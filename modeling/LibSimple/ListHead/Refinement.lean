import LibSimple.ListHead.Model
import LibSimple.Support.CLang
import LibSimple.Support.LinkedRings

/-!
# Intrusive lists as sequences

On a ring of list heads `list_add` puts a node in front and `list_del` takes
one out.  The rules for the two loops say that they visit the nodes of the ring
in order: the body of the safe loop may take the current node out, because the
node after it has been read before.
-/

namespace LibSimple.ListHead

open LinkedRing CLang

variable {A : Type} [DecidableEq A]
variable {heap : Heap A} {head n a b : A} {xs ys : List A}

/-! ## Links -/

theorem listInit_ring (hlive : (heap head).isSome) :
    ∃ heap', listInit heap head = some heap' ∧ RingAt heap' head [] ∧
      SameOutside [head] heap heap' := by
  have hwrites : ∀ w ∈ [Write.prev head head, .next head head], (heap w.target).isSome := by
    simpa [Write.target] using hlive
  obtain ⟨heap', hrun, hnext, hprev, hsame⟩ := writes_of_isSome hwrites
  refine ⟨heap', by simpa [listInit, writes, Write.apply] using hrun, ?_, ?_⟩
  · refine RingAt.nil_iff.mpr ⟨?_, ?_⟩
    · simp [hnext, Write.onNext]
    · simp [hprev, Write.onPrev]
  · exact hsame.mono (by simp [Write.target])

/-- `____list_add` puts a node between two neighbours. -/
theorem listAddBetween_ring (hring : RingAt heap head (xs ++ ys)) (hlive : (heap n).isSome)
    (ha : a ∈ (head :: xs).getLast?) (hb : b ∈ (ys ++ [head]).head?)
    (hn : n ∉ head :: (xs ++ ys)) :
    ∃ heap', listAddBetween heap n a b = some heap' ∧ RingAt heap' head (xs ++ n :: ys) ∧
      SameOutside (n :: head :: (xs ++ ys)) heap heap' := by
  have hlink : heap.Linked a b := hring.linked_at ha hb
  have halive := Heap.isSome_of_next hlink.1
  have hblive := Heap.isSome_of_prev hlink.2
  have hwrites : ∀ w ∈ [Write.prev b n, .next n b, .prev n a, .next a n],
      (heap w.target).isSome := by
    simp [Write.target, halive, hblive, hlive]
  obtain ⟨heap', hrun, hnext, hprev, hsame⟩ := writes_of_isSome hwrites
  refine ⟨heap', by simpa [listAddBetween, writes, Write.apply] using hrun,
    hring.insert ha hb hn hnext hprev, hsame.mono ?_⟩
  obtain ⟨hamem, hbmem⟩ := neighbours_mem ha hb
  have hsub : head :: (xs ++ ys) ⊆ n :: head :: (xs ++ ys) := List.subset_cons_self n _
  simp [Write.target, hsub hamem, hsub hbmem]

/-- `list_add` puts a node in front. -/
theorem listAdd_ring (hring : RingAt heap head xs) (hlive : (heap n).isSome)
    (hn : n ∉ head :: xs) :
    ∃ heap', listAdd heap n head = some heap' ∧ RingAt heap' head (n :: xs) ∧
      SameOutside (n :: head :: xs) heap heap' := by
  obtain ⟨b, hb⟩ := exists_stop head xs
  have hnil : RingAt heap head ([] ++ xs) := hring
  have ha : head ∈ [head].getLast? := rfl
  obtain ⟨heap', hadd, hring', hsame⟩ := listAddBetween_ring hnil hlive ha hb hn
  exact ⟨heap', by simp [listAdd, (hring.linked_head hb).1, hadd], hring', hsame⟩

/-- `list_add_tail` puts a node behind. -/
theorem listAddTail_ring (hring : RingAt heap head xs) (hlive : (heap n).isSome)
    (hn : n ∉ head :: xs) :
    ∃ heap', listAddTail heap n head = some heap' ∧ RingAt heap' head (xs ++ [n]) ∧
      SameOutside (n :: head :: xs) heap heap' := by
  obtain ⟨a, ha⟩ : ∃ a, a ∈ (head :: xs).getLast? := ⟨_, List.getLast?_cons⟩
  have hnil : RingAt heap head (xs ++ []) := by simpa using hring
  have hlink : heap.Linked a head := hnil.linked_at ha rfl
  obtain ⟨heap', hadd, hring', hsame⟩ := listAddBetween_ring hnil hlive ha rfl (by simpa using hn)
  exact ⟨heap', by simp [listAddTail, hlink.2, hadd], hring', by simpa using hsame⟩

/-- `list_del` takes a node out. -/
theorem listDel_ring (hring : RingAt heap head (xs ++ n :: ys)) :
    ∃ heap', listDel heap n = some heap' ∧ RingAt heap' head (xs ++ ys) ∧
      SameOutside (head :: (xs ++ ys)) heap heap' := by
  obtain ⟨a, ha⟩ : ∃ a, a ∈ (head :: xs).getLast? := ⟨_, List.getLast?_cons⟩
  obtain ⟨b, hb⟩ := exists_stop head ys
  have hleft : heap.Linked a n := hring.linked_at ha rfl
  have hright : heap.Linked n b := hring.linked_next hb
  have halive := Heap.isSome_of_next hleft.1
  have hblive := Heap.isSome_of_prev hright.2
  have hwrites : ∀ w ∈ [Write.next a b, .prev b a], (heap w.target).isSome := by
    simp [Write.target, halive, hblive]
  obtain ⟨heap', hrun, hnext, hprev, hsame⟩ := writes_of_isSome hwrites
  -- the first write hits `n` itself only when `n` is alone with itself
  have hafter : ∀ heap₁, heap.setNext a b = some heap₁ → heap₁.next n = some b := by
    intro heap₁ hset
    obtain ⟨heap₂, hset₂, hnext₂, -⟩ := Heap.setNext_of_isSome halive b
    obtain rfl := Option.some.inj (hset.symm.trans hset₂)
    rw [hnext₂]
    by_cases hna : n = a
    · rw [hna, Function.update_self]
    · rw [Function.update_of_ne hna]
      exact hright.1
  refine ⟨heap', ?_, hring.erase ha hb hnext hprev, hsame.mono ?_⟩
  · obtain ⟨heap₁, hset, -, -⟩ := Heap.setNext_of_isSome halive b
    simp only [listDel, hright.1, hleft.2, hset, hafter heap₁ hset, Option.bind_eq_bind,
      Option.bind_some]
    simpa [writes, Write.apply, hset] using hrun
  · obtain ⟨hamem, hbmem⟩ := neighbours_mem ha hb
    simp only [List.map_cons, List.map_nil, Write.target, List.cons_subset, List.nil_subset]
    exact ⟨hamem, hbmem, trivial⟩

/-- `list_splice` and `list_splice_tail` put the nodes of another ring between two
neighbours. -/
theorem listSpliceBetween_ring {l : A} {zs : List A} (hring : RingAt heap head (xs ++ ys))
    (hzs : RingAt heap l zs) (hne : zs ≠ []) (ha : a ∈ (head :: xs).getLast?)
    (hb : b ∈ (ys ++ [head]).head?) (hdisjoint : (head :: (xs ++ ys)).Disjoint zs) :
    ∃ heap', listSpliceBetween heap l a b = some heap' ∧
      RingAt heap' head (xs ++ zs ++ ys) ∧
      SameOutside (head :: (xs ++ zs ++ ys)) heap heap' := by
  have hlink : heap.Linked a b := hring.linked_at ha hb
  obtain ⟨first, hfirst⟩ : ∃ first, first ∈ zs.head? := ⟨_, List.head?_eq_some_head hne⟩
  obtain ⟨last, hlast⟩ : ∃ last, last ∈ zs.getLast? := ⟨_, List.getLast?_eq_some_getLast hne⟩
  have hin : heap.Linked l first := by
    refine hzs.linked_head ?_
    rw [List.head?_append, hfirst]
    rfl
  have hout : heap.Linked last l := by
    have hnil : RingAt heap l (zs ++ []) := by simpa using hzs
    refine hnil.linked_at ?_ rfl
    rw [List.getLast?_cons_of_ne_nil hne]
    exact hlast
  have halive := Heap.isSome_of_next hlink.1
  have hblive := Heap.isSome_of_prev hlink.2
  have hflive := Heap.isSome_of_prev hin.2
  have hllive := Heap.isSome_of_next hout.1
  have hwrites : ∀ w ∈ [Write.prev first a, .next a first, .next last b, .prev b last],
      (heap w.target).isSome := by
    simp [Write.target, halive, hblive, hflive, hllive]
  obtain ⟨heap', hrun, hnext, hprev, hsame⟩ := writes_of_isSome hwrites
  refine ⟨heap', ?_, hring.splice ha hb hzs hfirst hlast hdisjoint hnext hprev, hsame.mono ?_⟩
  · simpa [listSpliceBetween, hin.1, hout.2, writes, Write.apply] using hrun
  · obtain ⟨hamem, hbmem⟩ := neighbours_mem ha hb
    have hfmem : first ∈ zs := List.mem_of_head? hfirst
    have hlmem : last ∈ zs := List.mem_of_getLast? hlast
    have hkept : head :: (xs ++ ys) ⊆ head :: (xs ++ zs ++ ys) :=
      List.cons_subset_cons head (List.append_subset.mpr
        ⟨List.subset_append_of_subset_left ys (List.subset_append_left xs zs),
          List.subset_append_right _ ys⟩)
    have hnew : zs ⊆ head :: (xs ++ zs ++ ys) :=
      List.subset_cons_of_subset head
        (List.subset_append_of_subset_left ys (List.subset_append_right xs zs))
    simp only [List.map_cons, List.map_nil, Write.target, List.cons_subset, List.nil_subset]
    exact ⟨hnew hfmem, hkept hamem, hnew hlmem, hkept hbmem, trivial⟩

/-! ## Loops -/

/-! The rules speak of the things `B` that the nodes belong to; `f` gives the node
of each. -/

variable {B : Type} {f : B → A} {bs : List B}

section ForEach

variable {R : Type} {body : A → Option (Option R)} {answer : B → Option R}

theorem listForEachFrom_eq (hring : RingAt heap head (xs ++ bs.map f))
    (hbody : ∀ y ∈ bs, body (f y) = some (answer y)) {pos : A}
    (hpos : pos ∈ (bs.map f ++ [head]).head?) {fuel : ℕ} (hfuel : bs.length < fuel) :
    listForEachFrom heap head body fuel pos = some (bs.findSome? answer) := by
  induction bs generalizing xs pos fuel with
  | nil =>
      obtain rfl : head = pos := by simpa using hpos
      cases fuel with
      | zero => simp at hfuel
      | succ fuel => simp [listForEachFrom]
  | cons y bs ih =>
      obtain rfl : f y = pos := by simpa using hpos
      cases fuel with
      | zero => simp at hfuel
      | succ fuel =>
          obtain ⟨b, hb⟩ := exists_stop head (bs.map f)
          have hnext := (hring.linked_next hb).1
          have hy := hbody y List.mem_cons_self
          rw [listForEachFrom, if_neg hring.ne_head, hy, List.findSome?_cons]
          cases hanswer : answer y with
          | some r => rfl
          | none =>
              have hrest : RingAt heap head (xs ++ [f y] ++ bs.map f) := by simpa using hring
              simp only [hnext, Option.bind_eq_bind, Option.bind_some]
              apply ih hrest (fun z hz => hbody z (List.mem_cons_of_mem y hz)) hb
              simpa using hfuel

/-- A loop that returns the first answer of its body asks the nodes in the order
of the ring. -/
theorem listForEach_returns (hring : RingAt heap head (bs.map f))
    (hbody : ∀ x ∈ bs, body (f x) = some (answer x)) :
    Returns (listForEach heap head body) (bs.findSome? answer) := by
  refine ⟨bs.length + 1, fun fuel hfuel => ?_⟩
  obtain ⟨b, hb⟩ := exists_stop head (bs.map f)
  have hnil : RingAt heap head ([] ++ bs.map f) := hring
  rw [listForEach, (hring.linked_head hb).1]
  exact listForEachFrom_eq hnil hbody hb hfuel

end ForEach

section ForEachSafe

variable {S : Type} {heads : S → Heap A} {body : A → S → Option S} {I : List B → S → Prop}

/-- The rule for `list_for_each_safe`: `I rest` holds before each round, for what
is still ahead.  The node after `pos` is known before the body runs, and it is
the next of the nodes ahead whatever becomes of `pos`. -/
theorem listForEachSafeFrom_eq
    (hring : ∀ rest s, I rest s → ∃ kept, RingAt (heads s) head (kept ++ rest.map f))
    (hbody : ∀ x rest s, I (x :: rest) s → ∃ s', body (f x) s = some s' ∧ I rest s')
    {s : S} (hs : I bs s) {pos m : A} (hpos : pos ∈ (bs.map f ++ [head]).head?)
    (hm : (heads s).next pos = some m) :
    ∃ s', (∀ fuel, bs.length < fuel →
      listForEachSafeFrom heads head body fuel pos m s = some s') ∧ I [] s' := by
  induction bs generalizing pos m s with
  | nil =>
      obtain rfl : head = pos := by simpa using hpos
      refine ⟨s, fun fuel hfuel => ?_, hs⟩
      cases fuel with
      | zero => simp at hfuel
      | succ fuel => simp [listForEachSafeFrom]
  | cons x bs ih =>
      obtain rfl : f x = pos := by simpa using hpos
      obtain ⟨kept, hkept⟩ := hring _ _ hs
      obtain ⟨b, hb⟩ := exists_stop head (bs.map f)
      obtain rfl : m = b := by
        rw [(hkept.linked_next hb).1] at hm
        exact (Option.some.inj hm).symm
      obtain ⟨s₁, hs₁, hI₁⟩ := hbody _ _ _ hs
      obtain ⟨kept₁, hkept₁⟩ := hring _ _ hI₁
      have hlive : ((heads s₁).next m).isSome := by
        rw [Heap.isSome_next]
        exact hkept₁.isSome_stop hb
      obtain ⟨m₁, hm₁⟩ := Option.isSome_iff_exists.mp hlive
      obtain ⟨s', hs', hI'⟩ := ih hI₁ hb hm₁
      refine ⟨s', fun fuel hfuel => ?_, hI'⟩
      cases fuel with
      | zero => simp at hfuel
      | succ fuel =>
          rw [listForEachSafeFrom, if_neg hkept.ne_head, hs₁]
          simp only [hm₁, Option.bind_eq_bind, Option.bind_some]
          apply hs'
          simpa using hfuel

theorem listForEachSafe_returns
    (hring : ∀ rest s, I rest s → ∃ kept, RingAt (heads s) head (kept ++ rest.map f))
    (hbody : ∀ x rest s, I (x :: rest) s → ∃ s', body (f x) s = some s' ∧ I rest s')
    {s : S} (hs : I bs s) (hstart : RingAt (heads s) head (bs.map f)) :
    ∃ s', Returns (listForEachSafe heads head body s) s' ∧ I [] s' := by
  obtain ⟨b, hb⟩ := exists_stop head (bs.map f)
  have hnil : RingAt (heads s) head ([] ++ bs.map f) := hstart
  have hlive : ((heads s).next b).isSome := by
    rw [Heap.isSome_next]
    exact hnil.isSome_stop hb
  obtain ⟨m, hm⟩ := Option.isSome_iff_exists.mp hlive
  obtain ⟨s', hrounds, hI⟩ := listForEachSafeFrom_eq hring hbody hs hb hm
  refine ⟨s', ⟨bs.length + 1, fun fuel hfuel => ?_⟩, hI⟩
  simp only [listForEachSafe, (hstart.linked_head hb).1, hm, Option.bind_eq_bind,
    Option.bind_some]
  exact hrounds fuel hfuel

end ForEachSafe

end LibSimple.ListHead
