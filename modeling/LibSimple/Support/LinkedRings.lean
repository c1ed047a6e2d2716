import LibSimple.Support.LinkedRing
import Mathlib.Data.List.Lattice
import Mathlib.Data.List.Pairwise
import Mathlib.Logic.Equiv.Basic

/-!
# Several rings in a heap

Rings that share no address, and edits that concern some of them.  An edit is a
sequence of writes; the rings that none of them hits stay as they are.
-/

namespace LinkedRing

variable {A : Type*} {heap heap' : Heap A}

/-! ## What an edit leaves alone -/

/-- The links at every address outside `S` are the same. -/
def SameOutside (S : List A) (heap heap' : Heap A) : Prop := ∀ x, x ∉ S → heap' x = heap x

theorem Heap.eq_of_links {x : A} (hnext : heap'.next x = heap.next x)
    (hprev : heap'.prev x = heap.prev x) : heap' x = heap x := by
  simp only [Heap.next, Heap.prev] at hnext hprev
  cases h' : heap' x with
  | none =>
      rw [h', Option.map_none, eq_comm, Option.map_eq_none_iff] at hnext
      exact hnext.symm
  | some links' =>
      cases h : heap x with
      | none => simp [h', h] at hnext
      | some links =>
          rw [h', h, Option.map_some, Option.map_some, Option.some.injEq] at hnext hprev
          cases links
          cases links'
          simp_all

theorem SameOutside.mono {S T : List A} (h : SameOutside S heap heap') (hsub : S ⊆ T) :
    SameOutside T heap heap' := fun x hx => h x fun hmem => hx (hsub hmem)

theorem SameOutside.trans {S : List A} {heap'' : Heap A} (h : SameOutside S heap heap')
    (h' : SameOutside S heap' heap'') : SameOutside S heap heap'' :=
  fun x hx => (h' x hx).trans (h x hx)

/-! ## Sequences of writes -/

section Write

variable [DecidableEq A]

/-- A write to one of the links of a node. -/
inductive Write (A : Type*)
  | next (a b : A)
  | prev (a b : A)

namespace Write

/-- The node that is written to. -/
def target : Write A → A
  | next a _ => a
  | prev a _ => a

def apply (heap : Heap A) : Write A → Option (Heap A)
  | next a b => heap.setNext a b
  | prev a b => heap.setPrev a b

/-- The write seen on the forward links. -/
def onNext (f : A → Option A) : Write A → A → Option A
  | next a b => Function.update f a (some b)
  | prev _ _ => f

/-- The write seen on the backward links. -/
def onPrev (f : A → Option A) : Write A → A → Option A
  | next _ _ => f
  | prev a b => Function.update f a (some b)

end Write

theorem Write.sameOutside {w : Write A} (hnext : heap'.next = w.onNext heap.next)
    (hprev : heap'.prev = w.onPrev heap.prev) : SameOutside [w.target] heap heap' := by
  intro x hx
  rw [List.mem_singleton] at hx
  cases w with
  | next a b =>
      refine Heap.eq_of_links ?_ (congrFun hprev x)
      exact (congrFun hnext x).trans (Function.update_of_ne hx _ _)
  | prev a b =>
      refine Heap.eq_of_links (congrFun hnext x) ?_
      exact (congrFun hprev x).trans (Function.update_of_ne hx _ _)

/-- A write leaves the same nodes alive. -/
theorem Write.isSome_eq {w : Write A} (h : (heap w.target).isSome)
    (hnext : heap'.next = w.onNext heap.next) (hprev : heap'.prev = w.onPrev heap.prev) (x : A) :
    (heap' x).isSome = (heap x).isSome := by
  by_cases hx : x = w.target
  · rw [hx, h]
    cases w with
    | next a b =>
        rw [← Heap.isSome_next, hnext]
        simp [Write.onNext, Write.target]
    | prev a b =>
        rw [← Heap.isSome_prev, hprev]
        simp [Write.onPrev, Write.target]
  · rw [Write.sameOutside hnext hprev x (by simpa using hx)]

theorem Write.apply_of_isSome {w : Write A} (h : (heap w.target).isSome) :
    ∃ heap', w.apply heap = some heap' ∧ heap'.next = w.onNext heap.next ∧
      heap'.prev = w.onPrev heap.prev := by
  cases w with
  | next a b => exact Heap.setNext_of_isSome h b
  | prev a b => exact Heap.setPrev_of_isSome h b

/-- Writes one after another. -/
def writes (heap : Heap A) (ws : List (Write A)) : Option (Heap A) :=
  ws.foldlM Write.apply heap

/-- Writes to live nodes succeed, and touch nothing else. -/
theorem writes_of_isSome {ws : List (Write A)} (h : ∀ w ∈ ws, (heap w.target).isSome) :
    ∃ heap', writes heap ws = some heap' ∧ heap'.next = ws.foldl Write.onNext heap.next ∧
      heap'.prev = ws.foldl Write.onPrev heap.prev ∧
      SameOutside (ws.map Write.target) heap heap' := by
  induction ws generalizing heap with
  | nil => exact ⟨heap, rfl, rfl, rfl, fun x _ => rfl⟩
  | cons w ws ih =>
      rw [List.forall_mem_cons] at h
      obtain ⟨heap₁, hset, hnext, hprev⟩ := Write.apply_of_isSome h.1
      have hlive : ∀ v ∈ ws, (heap₁ v.target).isSome := fun v hv =>
        (Write.isSome_eq h.1 hnext hprev v.target).trans (h.2 v hv)
      obtain ⟨heap', hrest, hnext', hprev', hsame'⟩ := ih hlive
      have hsame := Write.sameOutside hnext hprev
      refine ⟨heap', ?_, ?_, ?_, ?_⟩
      · rw [writes, List.foldlM_cons, hset]
        exact hrest
      · rw [hnext', hnext, List.foldl_cons]
      · rw [hprev', hprev, List.foldl_cons]
      · refine SameOutside.trans (hsame.mono ?_) (hsame'.mono ?_)
        · simp
        · simp

end Write

/-! ## Rings -/

/-- The heads and nodes of the rings. -/
def addresses (rings : List (A × List A)) : List A := rings.flatMap fun r => r.1 :: r.2

/-- Rings that share no address, each a head with its nodes. -/
structure Rings (heap : Heap A) (rings : List (A × List A)) : Prop where
  ring : ∀ r ∈ rings, RingAt heap r.1 r.2
  nodup : (addresses rings).Nodup

variable {h l : A} {xs ys zs S : List A} {rings : List (A × List A)}

theorem rings_cons : Rings heap ((h, xs) :: rings) ↔
    RingAt heap h xs ∧ Rings heap rings ∧ (h :: xs).Disjoint (addresses rings) := by
  constructor
  · rintro ⟨hring, hnodup⟩
    rw [List.forall_mem_cons] at hring
    rw [addresses, List.flatMap_cons, List.nodup_append'] at hnodup
    exact ⟨hring.1, ⟨hring.2, hnodup.2.1⟩, hnodup.2.2⟩
  · rintro ⟨hring, hrings, hdisjoint⟩
    refine ⟨List.forall_mem_cons.mpr ⟨hring, hrings.ring⟩, ?_⟩
    rw [addresses, List.flatMap_cons, List.nodup_append']
    exact ⟨hring.nodup, hrings.nodup, hdisjoint⟩

/-- Rings survive an edit elsewhere. -/
theorem Rings.congr (hrings : Rings heap rings) (hsame : SameOutside S heap heap')
    (hdisjoint : S.Disjoint (addresses rings)) : Rings heap' rings := by
  refine ⟨fun r hr => (hrings.ring r hr).congr fun x hx => hsame x fun hS => ?_, hrings.nodup⟩
  exact hdisjoint hS (List.mem_flatMap.mpr ⟨r, hr, hx⟩)

/-- A ring that an edit makes, beside those that it does not touch. -/
theorem Rings.cons_of_edit (hrings : Rings heap rings) (hring : RingAt heap' h zs)
    (hsame : SameOutside S heap heap') (hdisjoint : S.Disjoint (addresses rings))
    (hsub : h :: zs ⊆ S) : Rings heap' ((h, zs) :: rings) :=
  rings_cons.mpr ⟨hring, hrings.congr hsame hdisjoint,
    List.disjoint_of_subset_left hsub hdisjoint⟩

/-- No node of a ring is a head. -/
theorem Rings.ne_head (hrings : Rings heap rings) {r r' : A × List A} (hr : r ∈ rings)
    (hr' : r' ∈ rings) {a : A} (ha : a ∈ r.2) : a ≠ r'.1 := by
  rintro rfl
  obtain ⟨heach, hapart⟩ := List.nodup_flatMap.mp hrings.nodup
  by_cases heq : r = r'
  · subst heq
    exact (List.nodup_cons.mp (heach r hr)).1 ha
  · have hsymm : Std.Symm (Function.onFun List.Disjoint fun r : A × List A => r.1 :: r.2) :=
      ⟨fun _ _ hdisjoint => hdisjoint.symm⟩
    exact hapart.forall hr hr' heq (List.mem_cons_of_mem _ ha) List.mem_cons_self

/-- A node of a ring has two neighbours, and is neither of them. -/
theorem Rings.neighbours (hrings : Rings heap rings) {r : A × List A} (hr : r ∈ rings) {a : A}
    (ha : a ∈ r.2) : ∃ p n, heap.Linked p a ∧ heap.Linked a n ∧ p ≠ a ∧ n ≠ a := by
  have hring := hrings.ring r hr
  obtain ⟨us, vs, hsplit⟩ := List.append_of_mem ha
  rw [hsplit] at hring
  obtain ⟨p, hp⟩ : ∃ p, p ∈ (r.1 :: us).getLast? := ⟨_, List.getLast?_cons⟩
  obtain ⟨n, hn⟩ := exists_stop r.1 vs
  have hnodup : (a :: (r.1 :: us ++ vs)).Nodup := by
    have hmiddle : (r.1 :: us ++ a :: vs).Nodup := hring.nodup
    exact List.nodup_middle.mp hmiddle
  have hnot := (List.nodup_cons.mp hnodup).1
  obtain ⟨hpmem, hnmem⟩ := neighbours_mem hp hn
  refine ⟨p, n, hring.linked_at hp rfl, hring.linked_next hn, ?_, ?_⟩
  · rintro rfl
    exact hnot hpmem
  · rintro rfl
    exact hnot hnmem

/-! ## Renaming -/

/-- A heap whose links are those of another one under other names has the rings of
the other one under these names. -/
theorem Rings.map_perm {σ : Equiv.Perm A} (hrings : Rings heap rings)
    (hheads : ∀ r ∈ rings, σ r.1 = r.1)
    (hlink : ∀ x y, heap.Linked x y → heap'.Linked (σ x) (σ y)) :
    Rings heap' (rings.map fun r => (r.1, r.2.map σ)) := by
  constructor
  · intro r' hr'
    obtain ⟨r, hr, rfl⟩ := List.mem_map.mp hr'
    have hring := hrings.ring r hr
    have hnodup := hring.nodup.map σ.injective
    have hchain := List.isChain_map_of_isChain σ hlink hring.linked
    simp only [List.map_append, List.map_cons, List.map_nil, hheads r hr] at hnodup hchain
    exact ⟨hnodup, hchain⟩
  · have haddresses : addresses (rings.map fun r => (r.1, r.2.map σ)) =
        (addresses rings).map σ := by
      rw [addresses, addresses, List.flatMap_map, List.map_flatMap]
      refine List.flatMap_congr fun r hr => ?_
      rw [List.map_cons, hheads r hr]
    rw [haddresses]
    exact hrings.nodup.map σ.injective

/-! ## Splicing -/

/-- The nodes of another ring come in between two neighbours. -/
theorem RingAt.splice [DecidableEq A] {a b first last : A} (hring : RingAt heap h (xs ++ ys))
    (ha : a ∈ (h :: xs).getLast?) (hb : b ∈ (ys ++ [h]).head?) (hzs : RingAt heap l zs)
    (hfirst : first ∈ zs.head?) (hlast : last ∈ zs.getLast?)
    (hdisjoint : (h :: (xs ++ ys)).Disjoint zs)
    (hnext : heap'.next =
      Function.update (Function.update heap.next a (some first)) last (some b))
    (hprev : heap'.prev =
      Function.update (Function.update heap.prev first (some a)) b (some last)) :
    RingAt heap' h (xs ++ zs ++ ys) := by
  obtain ⟨hamem, hbmem⟩ := neighbours_mem ha hb
  have hfmem : first ∈ zs := List.mem_of_head? hfirst
  have hlmem : last ∈ zs := List.mem_of_getLast? hlast
  have houter : ∀ x ∈ h :: (xs ++ ys), ∀ z ∈ zs, x ≠ z := fun x hx z hz heq =>
    hdisjoint hx (heq ▸ hz)
  have hnil : RingAt heap h (xs ++ [] ++ ys) := by simpa using hring
  -- inside the nodes that come in all links stay
  have hinner : zs.IsChain heap'.Linked := by
    have hold : zs.IsChain heap.Linked := by
      have hchain : (l :: (zs ++ [l])).IsChain heap.Linked := hzs.linked
      exact hchain.tail.left_of_append
    obtain ⟨us, rfl⟩ := List.getLast?_eq_some_iff.mp hlast
    obtain ⟨vs, hvs⟩ := List.head?_eq_some_iff.mp hfirst
    have hnodup : (us ++ [last]).Nodup := (List.nodup_cons.mp hzs.nodup).2
    refine isChain_imp hold fun x y hx hy hlink => ⟨?_, ?_⟩
    · rw [List.dropLast_concat] at hx
      have hxl : x ≠ last := by
        rintro rfl
        exact (List.nodup_append.mp hnodup).2.2 x hx x List.mem_cons_self rfl
      rw [hnext, Function.update_of_ne hxl,
        Function.update_of_ne (houter a hamem x (List.mem_append_left _ hx)).symm]
      exact hlink.1
    · have hyz : y ∈ us ++ [last] := List.mem_of_mem_tail hy
      have hyf : y ≠ first := by
        rintro rfl
        rw [hvs, List.tail_cons] at hy
        rw [hvs] at hnodup
        exact (List.nodup_cons.mp hnodup).1 hy
      rw [hprev, Function.update_of_ne (houter b hbmem y hyz).symm, Function.update_of_ne hyf]
      exact hlink.2
  refine hnil.replace ha hb ?_ ?_ ?_ ?_
  · have hpair : (zs ++ (h :: (xs ++ ys))).Nodup :=
      List.nodup_append'.mpr ⟨(List.nodup_cons.mp hzs.nodup).2, hring.nodup, hdisjoint.symm⟩
    have hperm : (zs ++ (h :: (xs ++ ys))).Perm (h :: (xs ++ zs ++ ys)) := by
      rw [List.append_assoc]
      refine List.perm_middle.trans (List.Perm.cons h ?_)
      rw [← List.append_assoc, ← List.append_assoc]
      exact List.perm_append_comm.append_right ys
    exact hperm.nodup_iff.mp hpair
  · rw [List.cons_append]
    refine List.isChain_cons.mpr ⟨fun y hy => ?_, List.isChain_append.mpr
      ⟨hinner, .singleton b, fun x hx y hy => ?_⟩⟩
    · obtain rfl : first = y := by
        rw [List.head?_append, hfirst] at hy
        exact Option.some.inj hy
      refine ⟨?_, ?_⟩
      · rw [hnext, Function.update_of_ne (houter a hamem last hlmem), Function.update_self]
      · rw [hprev, Function.update_of_ne (houter b hbmem first hfmem).symm, Function.update_self]
    · obtain rfl : last = x := Option.some.inj (hlast.symm.trans hx)
      obtain rfl : b = y := by simpa using hy
      exact ⟨by rw [hnext, Function.update_self], by rw [hprev, Function.update_self]⟩
  · intro x hx hxa
    rw [hnext, Function.update_of_ne (houter x hx last hlmem), Function.update_of_ne hxa]
  · intro x hx hxb
    rw [hprev, Function.update_of_ne hxb, Function.update_of_ne (houter x hx first hfmem)]

end LinkedRing
