import LibSimple.ListHead.Refinement

/-!
# Operations on disjoint rings

Every macro of `list.h` that builds or takes apart a list does to the contents of
a ring what it does to a sequence, and leaves every address outside the rings
involved alone.
-/

namespace LibSimple.ListHead

open LinkedRing CLang

variable {A : Type} {heap : Heap A} {head n : A} {xs : List A} {rings : List (A × List A)}

/-- The operation succeeds, leaves these rings, and changes links at addresses of `S`
only. -/
def Makes (op : Option (Heap A)) (heap : Heap A) (S : List A) (rings : List (A × List A)) : Prop :=
  ∃ heap', op = some heap' ∧ Rings heap' rings ∧ SameOutside S heap heap'

/-- An operation on one ring, from what it does to that ring. -/
theorem makes_of_ring {op : Option (Heap A)} {S zs : List A}
    (hrings : Rings heap ((head, xs) :: rings))
    (hop : ∃ heap', op = some heap' ∧ RingAt heap' head zs ∧ SameOutside S heap heap')
    (hdisjoint : S.Disjoint (addresses rings)) (hsub : head :: zs ⊆ S) :
    Makes op heap S ((head, zs) :: rings) := by
  obtain ⟨heap', hop, hring, hsame⟩ := hop
  exact ⟨heap', hop, (rings_cons.mp hrings).2.1.cons_of_edit hring hsame hdisjoint hsub, hsame⟩

/-- A node outside the rings is outside each of them. -/
theorem notMem_of_outside (hn : n ∉ addresses ((head, xs) :: rings)) :
    n ∉ head :: xs ∧ n ∉ addresses rings := by
  rw [addresses, List.flatMap_cons, List.mem_append, not_or] at hn
  exact hn

/-! ## The operations -/

variable [DecidableEq A]

theorem listInit_makes (hlive : (heap n).isSome) (hrings : Rings heap rings)
    (hn : n ∉ addresses rings) : Makes (listInit heap n) heap [n] ((n, []) :: rings) := by
  obtain ⟨heap', hinit, hring, hsame⟩ := listInit_ring hlive
  refine ⟨heap', hinit, hrings.cons_of_edit hring hsame ?_ (List.Subset.refl [n]), hsame⟩
  simpa using hn

theorem listAdd_makes (hrings : Rings heap ((head, xs) :: rings)) (hlive : (heap n).isSome)
    (hn : n ∉ addresses ((head, xs) :: rings)) :
    Makes (listAdd heap n head) heap (n :: head :: xs) ((head, n :: xs) :: rings) ∧
      Makes (listAddTail heap n head) heap (n :: head :: xs) ((head, xs ++ [n]) :: rings) := by
  obtain ⟨hring, -, hdisjoint⟩ := rings_cons.mp hrings
  obtain ⟨hnring, hnrings⟩ := notMem_of_outside hn
  have hdisjoint' : (n :: head :: xs).Disjoint (addresses rings) :=
    List.disjoint_cons_left.mpr ⟨hnrings, hdisjoint⟩
  refine ⟨makes_of_ring hrings (listAdd_ring hring hlive hnring) hdisjoint' ?_,
    makes_of_ring hrings (listAddTail_ring hring hlive hnring) hdisjoint' ?_⟩
  · intro x
    simp only [List.mem_cons]
    tauto
  · intro x
    simp only [List.mem_cons, List.mem_append]
    tauto

theorem listDel_makes (hrings : Rings heap ((head, xs) :: rings)) (hn : n ∈ xs) :
    Makes (listDel heap n) heap (head :: xs) ((head, xs.erase n) :: rings) := by
  obtain ⟨hring, -, hdisjoint⟩ := rings_cons.mp hrings
  obtain ⟨us, vs, -, rfl, herase⟩ := List.exists_erase_eq hn
  rw [herase]
  have hsub : head :: (us ++ vs) ⊆ head :: (us ++ n :: vs) := by
    intro x
    simp only [List.mem_cons, List.mem_append]
    tauto
  obtain ⟨heap', hdel, hring', hsame⟩ := listDel_ring hring
  exact makes_of_ring hrings ⟨heap', hdel, hring', hsame.mono hsub⟩ hdisjoint hsub

theorem listEmpty_eq (hring : RingAt heap head xs) :
    listEmpty heap head = some (decide (xs = [])) := by
  obtain ⟨b, hb⟩ := exists_stop head xs
  rw [listEmpty, (hring.linked_head hb).1]
  cases xs with
  | nil =>
      obtain rfl : head = b := by simpa using hb
      simp
  | cons x xs =>
      obtain rfl : x = b := by simpa using hb
      have hnil : RingAt heap head ([] ++ x :: xs) := hring
      simp [hnil.ne_head.symm]

theorem listSplice_makes {l : A} {ys : List A}
    (hrings : Rings heap ((head, xs) :: (l, ys) :: rings)) :
    Makes (listSplice heap l head) heap (head :: xs ++ l :: ys) ((head, ys ++ xs) :: rings) ∧
      Makes (listSpliceTail heap l head) heap (head :: xs ++ l :: ys)
        ((head, xs ++ ys) :: rings) := by
  obtain ⟨hring, hrest, hdisjoint⟩ := rings_cons.mp hrings
  obtain ⟨hother, hrings', hdisjoint'⟩ := rings_cons.mp hrest
  have hboth : Rings heap ((head, xs) :: rings) := by
    refine rings_cons.mpr ⟨hring, hrings', List.disjoint_of_subset_right ?_ hdisjoint⟩
    exact List.subset_append_right (l :: ys) (addresses rings)
  by_cases hnil : ys = []
  · -- nothing is spliced, and the heap stays
    subst hnil
    have hsame : Makes (some heap) heap (head :: xs ++ [l]) ((head, xs) :: rings) :=
      ⟨heap, rfl, hboth, fun x _ => rfl⟩
    have hempty := listEmpty_eq hother
    rw [List.nil_append, List.append_nil, listSplice, listSpliceTail, hempty]
    exact ⟨hsame, hsame⟩
  · have hempty := listEmpty_eq hother
    rw [decide_eq_false hnil] at hempty
    have hapart : (head :: xs).Disjoint ys := by
      refine List.disjoint_of_subset_right ?_ hdisjoint
      exact List.Subset.trans (List.subset_cons_self l ys)
        (List.subset_append_left (l :: ys) (addresses rings))
    have hS : (head :: xs ++ l :: ys).Disjoint (addresses rings) :=
      List.disjoint_append_left.mpr ⟨(rings_cons.mp hboth).2.2, hdisjoint'⟩
    have hfront : head :: (ys ++ xs) ⊆ head :: xs ++ l :: ys := by
      intro x
      simp only [List.mem_cons, List.mem_append]
      tauto
    have hback : head :: (xs ++ ys) ⊆ head :: xs ++ l :: ys := by
      intro x
      simp only [List.mem_cons, List.mem_append]
      tauto
    have hleft : RingAt heap head ([] ++ xs) := hring
    have hright : RingAt heap head (xs ++ []) := by simpa using hring
    obtain ⟨b, hb⟩ := exists_stop head xs
    obtain ⟨a, ha⟩ : ∃ a, a ∈ (head :: xs).getLast? := ⟨_, List.getLast?_cons⟩
    have hhead : head ∈ [head].getLast? := rfl
    constructor
    · refine makes_of_ring hboth ?_ hS hfront
      obtain ⟨heap', hsplice, hring', hsame⟩ :=
        listSpliceBetween_ring hleft hother hnil hhead hb hapart
      refine ⟨heap', ?_, hring', hsame.mono hfront⟩
      simp [listSplice, hempty, (hring.linked_head hb).1, hsplice]
    · refine makes_of_ring hboth ?_ hS hback
      obtain ⟨heap', hsplice, hring', hsame⟩ :=
        listSpliceBetween_ring hright hother hnil ha rfl (by simpa using hapart)
      rw [List.append_nil] at hring' hsame
      refine ⟨heap', ?_, hring', hsame.mono hback⟩
      simp [listSpliceTail, hempty, (hright.linked_at ha rfl).2, hsplice]

/-! ## A walk that deletes -/

/-- The body of a loop that notes the nodes it visits and deletes those of `P`. -/
def deleteBody (P : A → Bool) (pos : A) (s : List A × Heap A) : Option (List A × Heap A) :=
  if P pos then do
    let heap ← listDel s.2 pos
    return (s.1 ++ [pos], heap)
  else some (s.1 ++ [pos], s.2)

/-- Before each round the nodes behind are those not deleted, the ones ahead are all
there. -/
structure Walking (P : A → Bool) (heap : Heap A) (head : A) (xs rest : List A)
    (s : List A × Heap A) : Prop where
  visited : s.1 ++ rest = xs
  ring : RingAt s.2 head (s.1.filter (!P ·) ++ rest)
  same : SameOutside (head :: xs) heap s.2

theorem Walking.step {P : A → Bool} {x : A} {rest : List A} {s : List A × Heap A}
    (hs : Walking P heap head xs (x :: rest) s) :
    ∃ s', deleteBody P x s = some s' ∧ Walking P heap head xs rest s' := by
  obtain ⟨hvisited, hring, hsame⟩ := hs
  have hvisited' : s.1 ++ [x] ++ rest = xs := by simpa using hvisited
  by_cases hP : P x = true
  · obtain ⟨heap', hdel, hring', hsame'⟩ := listDel_ring hring
    refine ⟨(s.1 ++ [x], heap'), by simp [deleteBody, hP, hdel], hvisited', ?_, ?_⟩
    · simpa [hP] using hring'
    · refine hsame.trans (hsame'.mono (List.cons_subset_cons head ?_))
      rw [← hvisited]
      refine List.append_subset.mpr ⟨?_, ?_⟩
      · exact List.Subset.trans (List.filter_subset_self s.1) (List.subset_append_left _ _)
      · exact List.Subset.trans (List.subset_cons_self x rest) (List.subset_append_right _ _)
  · refine ⟨(s.1 ++ [x], s.2), by simp [deleteBody, hP], hvisited', ?_, hsame⟩
    simpa [hP] using hring

/-- The walk visits every node once, in order, and the ring keeps the others. -/
theorem listForEachSafe_deletes (P : A → Bool) (hrings : Rings heap ((head, xs) :: rings)) :
    ∃ heap', Returns (listForEachSafe Prod.snd head (deleteBody P) ([], heap)) (xs, heap') ∧
      Rings heap' ((head, xs.filter (!P ·)) :: rings) ∧ SameOutside (head :: xs) heap heap' := by
  obtain ⟨hring, hrest, hdisjoint⟩ := rings_cons.mp hrings
  have hstart : Walking P heap head xs xs ([], heap) := ⟨rfl, hring, fun x _ => rfl⟩
  have hrule := @listForEachSafe_returns A _ head A id xs (List A × Heap A) Prod.snd
    (deleteBody P) (fun rest s => Walking P heap head xs rest s)
    (fun rest s hs => ⟨s.1.filter (!P ·), by simpa using hs.ring⟩)
    (fun x rest s hs => hs.step) ([], heap) hstart (by simpa using hring)
  obtain ⟨⟨visited, heap'⟩, hreturns, hvisited, hring', hsame⟩ := hrule
  rw [List.append_nil] at hvisited hring'
  subst hvisited
  refine ⟨heap', hreturns, hrest.cons_of_edit hring' hsame hdisjoint ?_, hsame⟩
  exact List.cons_subset_cons head (List.filter_subset_self visited)

/-! ## All of them -/

/-- What the macros do to a ring among disjoint rings. -/
theorem list_refines (hrings : Rings heap ((head, xs) :: rings)) :
    (∀ n others, (heap n).isSome → Rings heap others → n ∉ addresses others →
      Makes (listInit heap n) heap [n] ((n, []) :: others)) ∧
    (∀ n, (heap n).isSome → n ∉ addresses ((head, xs) :: rings) →
      Makes (listAdd heap n head) heap (n :: head :: xs) ((head, n :: xs) :: rings) ∧
      Makes (listAddTail heap n head) heap (n :: head :: xs) ((head, xs ++ [n]) :: rings)) ∧
    (∀ n ∈ xs, Makes (listDel heap n) heap (head :: xs) ((head, xs.erase n) :: rings)) ∧
    (∀ l ys others, rings = (l, ys) :: others →
      Makes (listSplice heap l head) heap (head :: xs ++ l :: ys) ((head, ys ++ xs) :: others) ∧
      Makes (listSpliceTail heap l head) heap (head :: xs ++ l :: ys)
        ((head, xs ++ ys) :: others)) ∧
    ∀ P : A → Bool, ∃ heap',
      Returns (listForEachSafe Prod.snd head (deleteBody P) ([], heap)) (xs, heap') ∧
      Rings heap' ((head, xs.filter (!P ·)) :: rings) ∧ SameOutside (head :: xs) heap heap' := by
  refine ⟨fun n others hlive hothers hn => listInit_makes hlive hothers hn,
    fun n hlive hn => listAdd_makes hrings hlive hn, fun n hn => listDel_makes hrings hn, ?_,
    fun P => listForEachSafe_deletes P hrings⟩
  rintro l ys others rfl
  exact listSplice_makes hrings

/-- A heap with the ring of 0, which holds 1 and 2, and that of 3, which holds 4; 5 is
alone with itself. -/
def twoRings : Heap ℕ
  | 0 => some ⟨2, 1⟩
  | 1 => some ⟨0, 2⟩
  | 2 => some ⟨1, 0⟩
  | 3 => some ⟨4, 4⟩
  | 4 => some ⟨3, 3⟩
  | 5 => some ⟨5, 5⟩
  | _ => none

theorem rings_twoRings : Rings twoRings [(0, [1, 2]), (3, [4])] where
  ring := by
    rw [List.forall_mem_cons, List.forall_mem_singleton]
    exact ⟨⟨by decide, by decide⟩, ⟨by decide, by decide⟩⟩
  nodup := by decide

theorem list_refines_two :
    Makes (listAddTail twoRings 5 0) twoRings [5, 0, 1, 2] [(0, [1, 2, 5]), (3, [4])] ∧
      Makes (listSplice twoRings 3 0) twoRings [0, 1, 2, 3, 4] [(0, [4, 1, 2])] := by
  obtain ⟨-, hadd, -, hsplice, -⟩ := list_refines rings_twoRings
  exact ⟨(hadd 5 (by decide) (by decide)).2, (hsplice 3 [4] [] rfl).1⟩

end LibSimple.ListHead
