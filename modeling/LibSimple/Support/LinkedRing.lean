import Mathlib.Data.List.Chain
import Mathlib.Data.List.Nodup
import Mathlib.Logic.Function.Basic

/-!
# Circular two-way lists in a heap

A heap holds a pair of links at some of its addresses.  A ring is a head
together with nodes that the links visit in order, forwards and backwards,
before they are back at the head.  The module gives the rules for the edits
that exchange the nodes between two neighbours, and the rule for a walk around
the ring whose body may take the current node out.
-/

namespace LinkedRing

variable {A : Type*}

/-- The two links of a node. -/
structure Links (A : Type*) where
  prev : A
  next : A
  deriving DecidableEq

/-- The links at every address that is alive. -/
abbrev Heap (A : Type*) := A → Option (Links A)

namespace Heap

def next (heap : Heap A) (a : A) : Option A := (heap a).map Links.next

def prev (heap : Heap A) (a : A) : Option A := (heap a).map Links.prev

/-- `b` follows `a`, by the links of both. -/
def Linked (heap : Heap A) (a b : A) : Prop := heap.next a = some b ∧ heap.prev b = some a

instance [DecidableEq A] (heap : Heap A) (a b : A) : Decidable (heap.Linked a b) :=
  inferInstanceAs (Decidable (_ ∧ _))

theorem isSome_next (heap : Heap A) (a : A) : (heap.next a).isSome = (heap a).isSome :=
  Option.isSome_map

theorem isSome_prev (heap : Heap A) (a : A) : (heap.prev a).isSome = (heap a).isSome :=
  Option.isSome_map

theorem isSome_of_next {heap : Heap A} {a b : A} (h : heap.next a = some b) :
    (heap a).isSome := by
  rw [← isSome_next]
  exact Option.isSome_of_eq_some h

theorem isSome_of_prev {heap : Heap A} {a b : A} (h : heap.prev b = some a) :
    (heap b).isSome := by
  rw [← isSome_prev]
  exact Option.isSome_of_eq_some h

section Update

variable [DecidableEq A]

/-- Write the forward link of a live node. -/
def setNext (heap : Heap A) (a b : A) : Option (Heap A) :=
  (heap a).map fun links => Function.update heap a (some { links with next := b })

/-- Write the backward link of a live node. -/
def setPrev (heap : Heap A) (a b : A) : Option (Heap A) :=
  (heap a).map fun links => Function.update heap a (some { links with prev := b })

theorem setNext_of_isSome {heap : Heap A} {a : A} (h : (heap a).isSome) (b : A) :
    ∃ heap', heap.setNext a b = some heap' ∧
      heap'.next = Function.update heap.next a (some b) ∧ heap'.prev = heap.prev := by
  obtain ⟨links, hlinks⟩ := Option.isSome_iff_exists.mp h
  refine ⟨_, by rw [setNext, hlinks]; rfl, ?_, ?_⟩
  · funext x
    by_cases hx : x = a
    · subst hx
      simp [next]
    · simp [next, hx]
  · funext x
    by_cases hx : x = a
    · subst hx
      simp [prev, hlinks]
    · simp [prev, hx]

theorem setPrev_of_isSome {heap : Heap A} {a : A} (h : (heap a).isSome) (b : A) :
    ∃ heap', heap.setPrev a b = some heap' ∧
      heap'.next = heap.next ∧ heap'.prev = Function.update heap.prev a (some b) := by
  obtain ⟨links, hlinks⟩ := Option.isSome_iff_exists.mp h
  refine ⟨_, by rw [setPrev, hlinks]; rfl, ?_, ?_⟩
  · funext x
    by_cases hx : x = a
    · subst hx
      simp [next, hlinks]
    · simp [next, hx]
  · funext x
    by_cases hx : x = a
    · subst hx
      simp [prev]
    · simp [prev, hx]

end Update

end Heap

/-! ## Rings -/

/-- From the head `h` the links visit `xs` and come back to `h`. -/
structure RingAt (heap : Heap A) (h : A) (xs : List A) : Prop where
  nodup : (h :: xs).Nodup
  linked : (h :: xs ++ [h]).IsChain heap.Linked

/-- A chain survives a change of the relation that its neighbours do not
notice. -/
theorem isChain_imp {R S : A → A → Prop} {xs : List A} (hxs : xs.IsChain R)
    (himp : ∀ x y, x ∈ xs.dropLast → y ∈ xs.tail → R x y → S x y) : xs.IsChain S := by
  induction hxs with
  | nil => exact .nil
  | singleton => exact .singleton _
  | cons_cons hxy hrest ih =>
      rename_i x y rest
      rw [List.isChain_cons_cons]
      constructor
      · exact himp x y (by simp) (by simp) hxy
      · apply ih
        intro u v hu hv
        exact himp u v (List.mem_cons_of_mem _ hu) (List.mem_cons_of_mem _ hv)

/-- There is a next stop, be it the head. -/
theorem exists_stop (h : A) (xs : List A) : ∃ a, a ∈ (xs ++ [h]).head? := by
  cases xs with
  | nil => exact ⟨h, rfl⟩
  | cons x xs => exact ⟨x, rfl⟩

/-- The neighbours at a place of a ring are among its addresses. -/
theorem neighbours_mem {h a b : A} {xs ys : List A} (ha : a ∈ (h :: xs).getLast?)
    (hb : b ∈ (ys ++ [h]).head?) : a ∈ h :: (xs ++ ys) ∧ b ∈ h :: (xs ++ ys) := by
  have hmem : b ∈ ys ++ [h] := List.mem_of_head? hb
  refine ⟨List.mem_append_left ys (List.mem_of_getLast? ha), ?_⟩
  simp only [List.mem_append, List.mem_cons] at hmem ⊢
  tauto

namespace RingAt

variable {heap heap' : Heap A} {h a b : A} {xs ys ms ms' : List A}

theorem nil_iff : RingAt heap h [] ↔ heap.Linked h h := by
  constructor
  · intro hring
    exact hring.linked.rel
  · intro hlink
    exact ⟨List.nodup_singleton h, List.isChain_pair.mpr hlink⟩

/-- The neighbours at a place of the ring are linked. -/
theorem linked_at (hring : RingAt heap h (xs ++ ys)) (ha : a ∈ (h :: xs).getLast?)
    (hb : b ∈ (ys ++ [h]).head?) : heap.Linked a b := by
  have hchain : (h :: xs ++ (ys ++ [h])).IsChain heap.Linked := by
    simpa using hring.linked
  exact (List.isChain_append.mp hchain).2.2 a ha b hb

/-- What follows a node of the ring. -/
theorem linked_next (hring : RingAt heap h (xs ++ a :: ys)) (hb : b ∈ (ys ++ [h]).head?) :
    heap.Linked a b := by
  have hring' : RingAt heap h (xs ++ [a] ++ ys) := by simpa using hring
  refine hring'.linked_at ?_ hb
  rw [← List.cons_append, List.getLast?_concat]
  rfl

theorem ne_head (hring : RingAt heap h (xs ++ a :: ys)) : a ≠ h := by
  rintro rfl
  exact (List.nodup_cons.mp hring.nodup).1 (List.mem_append_right xs List.mem_cons_self)

/-- What follows the head. -/
theorem linked_head (hring : RingAt heap h ys) (hb : b ∈ (ys ++ [h]).head?) :
    heap.Linked h b := by
  have hnil : RingAt heap h ([] ++ ys) := hring
  exact hnil.linked_at rfl hb

/-- Every stop of a walk is alive. -/
theorem isSome_stop (hring : RingAt heap h (xs ++ ys)) (hb : b ∈ (ys ++ [h]).head?) :
    (heap b).isSome := by
  obtain ⟨a, ha⟩ : ∃ a, a ∈ (h :: xs).getLast? := ⟨_, List.getLast?_cons⟩
  exact Heap.isSome_of_prev (hring.linked_at ha hb).2

theorem isSome_head (hring : RingAt heap h xs) : (heap h).isSome := by
  have hnil : RingAt heap h (xs ++ []) := by simpa using hring
  exact hnil.isSome_stop rfl

theorem isSome_of_mem (hring : RingAt heap h xs) (ha : a ∈ h :: xs) : (heap a).isSome := by
  rcases List.mem_cons.mp ha with rfl | ha
  · exact hring.isSome_head
  · obtain ⟨us, vs, rfl⟩ := List.append_of_mem ha
    exact hring.isSome_stop rfl

/-- The ring after an exchange of the nodes between the neighbours `a` and `b`:
only the forward link of `a`, the backward link of `b` and links of nodes that
come or go may have changed. -/
theorem replace (hring : RingAt heap h (xs ++ ms ++ ys)) (ha : a ∈ (h :: xs).getLast?)
    (hb : b ∈ (ys ++ [h]).head?) (hnodup : (h :: (xs ++ ms' ++ ys)).Nodup)
    (hmid : (a :: ms' ++ [b]).IsChain heap'.Linked)
    (hnext : ∀ x ∈ h :: (xs ++ ys), x ≠ a → heap'.next x = heap.next x)
    (hprev : ∀ x ∈ h :: (xs ++ ys), x ≠ b → heap'.prev x = heap.prev x) :
    RingAt heap' h (xs ++ ms' ++ ys) := by
  refine ⟨hnodup, ?_⟩
  have hchain : (h :: xs ++ (ms ++ (ys ++ [h]))).IsChain heap.Linked := by
    simpa using hring.linked
  obtain ⟨us, hus⟩ := List.getLast?_eq_some_iff.mp ha
  obtain ⟨vs, hvs⟩ := List.head?_eq_some_iff.mp hb
  have hsub : List.Sublist (h :: (xs ++ ys)) (h :: (xs ++ ms ++ ys)) := by simp
  have hold : (h :: (xs ++ ys)).Nodup := hsub.nodup hring.nodup
  have hleft : (us ++ a :: ys).Nodup := by
    rw [← List.singleton_append, ← List.append_assoc, ← hus]
    exact hold
  have hright : (xs ++ b :: vs).Nodup := by
    rw [← hvs, ← List.append_assoc, List.nodup_append_comm]
    exact hold
  have hfront : (us ++ [a]).IsChain heap'.Linked := by
    rw [← hus]
    refine isChain_imp hchain.left_of_append fun x y hx hy hlink => ?_
    rw [hus, List.dropLast_concat] at hx
    rw [List.tail_cons] at hy
    have hxmem : x ∈ h :: xs := hus ▸ List.mem_append_left [a] hx
    have hxa : x ≠ a := by
      rintro rfl
      exact (List.nodup_append.mp hleft).2.2 x hx x List.mem_cons_self rfl
    have hyb : y ≠ b := by
      rintro rfl
      exact (List.nodup_append.mp hright).2.2 y hy y List.mem_cons_self rfl
    exact ⟨(hnext x (List.mem_append_left ys hxmem) hxa).trans hlink.1,
      (hprev y (List.mem_cons_of_mem h (List.mem_append_left ys hy)) hyb).trans hlink.2⟩
  have hback : (b :: vs).IsChain heap'.Linked := by
    rw [← hvs]
    refine isChain_imp hchain.right_of_append.right_of_append fun x y hx hy hlink => ?_
    rw [List.dropLast_concat] at hx
    rw [hvs, List.tail_cons] at hy
    have hymem : y ∈ h :: (xs ++ ys) := by
      have hmem : y ∈ ys ++ [h] := hvs ▸ List.mem_cons_of_mem b hy
      rcases List.mem_append.mp hmem with hys | hh
      · exact List.mem_cons_of_mem h (List.mem_append_right xs hys)
      · exact List.mem_singleton.mp hh ▸ List.mem_cons_self
    have hxa : x ≠ a := by
      rintro rfl
      exact (List.nodup_cons.mp (List.nodup_append.mp hleft).2.1).1 hx
    have hyb : y ≠ b := by
      rintro rfl
      exact (List.nodup_cons.mp (List.nodup_append.mp hright).2.1).1 hy
    exact ⟨(hnext x (List.mem_cons_of_mem h (List.mem_append_right xs hx)) hxa).trans hlink.1,
      (hprev y hymem hyb).trans hlink.2⟩
  have hjoin : h :: (xs ++ ms' ++ ys) ++ [h] = us ++ a :: (ms' ++ b :: vs) := by
    calc
      h :: (xs ++ ms' ++ ys) ++ [h] = h :: xs ++ (ms' ++ (ys ++ [h])) := by simp
      _ = us ++ a :: (ms' ++ b :: vs) := by rw [hus, hvs]; simp
  rw [hjoin, List.isChain_split]
  refine ⟨hfront, ?_⟩
  rw [← List.cons_append, List.isChain_split]
  exact ⟨hmid, hback⟩

/-- Links of the head and of the nodes decide the ring. -/
theorem congr (hring : RingAt heap h xs) (hsame : ∀ x ∈ h :: xs, heap' x = heap x) :
    RingAt heap' h xs := by
  refine ⟨hring.nodup, ?_⟩
  refine isChain_imp hring.linked fun x y hx hy hlink => ?_
  rw [List.dropLast_concat] at hx
  have hymem : y ∈ h :: xs := by
    simpa [or_comm] using hy
  constructor
  · rw [Heap.next, hsame x hx]
    exact hlink.1
  · rw [Heap.prev, hsame y hymem]
    exact hlink.2

section Edit

variable [DecidableEq A] {n : A}

/-- A node comes in between two neighbours. -/
theorem insert (hring : RingAt heap h (xs ++ ys)) (ha : a ∈ (h :: xs).getLast?)
    (hb : b ∈ (ys ++ [h]).head?) (hn : n ∉ h :: (xs ++ ys))
    (hnext : heap'.next = Function.update (Function.update heap.next n (some b)) a (some n))
    (hprev : heap'.prev = Function.update (Function.update heap.prev b (some n)) n (some a)) :
    RingAt heap' h (xs ++ n :: ys) := by
  obtain ⟨hamem, hbmem⟩ := neighbours_mem ha hb
  have hna : n ≠ a := fun heq => hn (heq ▸ hamem)
  have hnb : n ≠ b := fun heq => hn (heq ▸ hbmem)
  have hrep : RingAt heap' h (xs ++ [n] ++ ys) := by
    have hnone : RingAt heap h (xs ++ [] ++ ys) := by simpa using hring
    refine hnone.replace ha hb ?_ ?_ ?_ ?_
    · have hmiddle : (h :: xs ++ n :: ys).Nodup :=
        List.nodup_middle.mpr (List.nodup_cons.mpr ⟨hn, hring.nodup⟩)
      simpa using hmiddle
    · refine .cons_cons ⟨?_, ?_⟩ (List.isChain_pair.mpr ⟨?_, ?_⟩)
      · rw [hnext, Function.update_self]
      · rw [hprev, Function.update_self]
      · rw [hnext, Function.update_of_ne hna, Function.update_self]
      · rw [hprev, Function.update_of_ne hnb.symm, Function.update_self]
    · intro x hx hxa
      have hxn : x ≠ n := fun heq => hn (heq ▸ hx)
      rw [hnext, Function.update_of_ne hxa, Function.update_of_ne hxn]
    · intro x hx hxb
      have hxn : x ≠ n := fun heq => hn (heq ▸ hx)
      rw [hprev, Function.update_of_ne hxn, Function.update_of_ne hxb]
  simpa using hrep

/-- A node goes out from between two neighbours. -/
theorem erase (hring : RingAt heap h (xs ++ n :: ys)) (ha : a ∈ (h :: xs).getLast?)
    (hb : b ∈ (ys ++ [h]).head?)
    (hnext : heap'.next = Function.update heap.next a (some b))
    (hprev : heap'.prev = Function.update heap.prev b (some a)) :
    RingAt heap' h (xs ++ ys) := by
  have hrep : RingAt heap' h (xs ++ [] ++ ys) := by
    have hone : RingAt heap h (xs ++ [n] ++ ys) := by simpa using hring
    refine hone.replace ha hb ?_ ?_ ?_ ?_
    · have hmiddle : (h :: xs ++ n :: ys).Nodup := by simpa using hring.nodup
      simpa using (List.nodup_cons.mp (List.nodup_middle.mp hmiddle)).2
    · refine List.isChain_pair.mpr ⟨?_, ?_⟩
      · rw [hnext, Function.update_self]
      · rw [hprev, Function.update_self]
    · intro x _ hxa
      rw [hnext, Function.update_of_ne hxa]
    · intro x _ hxb
      rw [hprev, Function.update_of_ne hxb]
  simpa using hrep

end Edit

end RingAt

end LinkedRing
