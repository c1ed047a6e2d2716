import LibSimple.ListHead.Rings

/-!
# Exchanging two nodes

`list_exchange` writes the neighbours of each node, as they were before, around the
other one.  Two nodes that are neighbours of each other are their own neighbours
afterwards.
-/

namespace LibSimple.ListHead

open LinkedRing

variable {A : Type} [DecidableEq A]
variable {heap heap' : Heap A} {a b pa na pb nb : A} {rings : List (A × List A)}

/-- The rings with `a` and `b` in each other's place. -/
def exchanged (a b : A) (rings : List (A × List A)) : List (A × List A) :=
  rings.map fun r => (r.1, r.2.map (Equiv.swap a b))

/-- `list_exchange` succeeds and leaves these rings. -/
def Exchanges (heap : Heap A) (rings : List (A × List A)) (a b : A) : Prop :=
  ∃ heap', listExchange heap a b = some heap' ∧ Rings heap' (exchanged a b rings)

/-! ## The links afterwards -/

theorem listExchange_links (hpa : heap.Linked pa a) (hna : heap.Linked a na)
    (hpb : heap.Linked pb b) (hnb : heap.Linked b nb) :
    ∃ heap', listExchange heap a b = some heap' ∧
      heap'.next = Function.update (Function.update (Function.update (Function.update heap.next
        pb (some a)) a (some nb)) pa (some b)) b (some na) ∧
      heap'.prev = Function.update (Function.update (Function.update (Function.update heap.prev
        a (some pb)) nb (some a)) b (some pa)) na (some b) := by
  have hwrites : ∀ w ∈ [Write.prev a pb, .next pb a, .next a nb, .prev nb a, .prev b pa,
      .next pa b, .next b na, .prev na b], (heap w.target).isSome := by
    simp [Write.target, Heap.isSome_of_next hpa.1, Heap.isSome_of_next hna.1,
      Heap.isSome_of_prev hna.2, Heap.isSome_of_next hpb.1, Heap.isSome_of_next hnb.1,
      Heap.isSome_of_prev hnb.2]
  obtain ⟨heap', hrun, hnext, hprev, -⟩ := writes_of_isSome hwrites
  refine ⟨heap', ?_, hnext, hprev⟩
  simp only [listExchange, hpa.2, hna.1, hpb.2, hnb.1, Option.bind_eq_bind, Option.bind_some]
  simpa [listExchangeBetween, writes, Write.apply] using hrun

/-- Links in one direction around `a` and `b` whose far ends have been exchanged are
the old ones under exchanged names. -/
theorem link_swap {f g : A → Option A} (hab : a ≠ b) (hfa : f a = some na) (hfb : f b = some nb)
    (hna : na ≠ a ∧ na ≠ b) (hnb : nb ≠ a ∧ nb ≠ b) (hga : g a = some nb) (hgb : g b = some na)
    (hgpa : g pa = some b) (hgpb : g pb = some a)
    (hrest : ∀ x, x ≠ a → x ≠ b → x ≠ pa → x ≠ pb → g x = f x) {x y : A} (hxy : f x = some y)
    (hya : y = a → x = pa) (hyb : y = b → x = pb) (hpa : f pa = some a) (hpb : f pb = some b) :
    g (Equiv.swap a b x) = some (Equiv.swap a b y) := by
  by_cases hxa : x = a
  · subst hxa
    obtain rfl := Option.some.inj (hfa.symm.trans hxy)
    rw [Equiv.swap_apply_left, Equiv.swap_apply_of_ne_of_ne hna.1 hna.2, hgb]
  by_cases hxb : x = b
  · subst hxb
    obtain rfl := Option.some.inj (hfb.symm.trans hxy)
    rw [Equiv.swap_apply_right, Equiv.swap_apply_of_ne_of_ne hnb.1 hnb.2, hga]
  rw [Equiv.swap_apply_of_ne_of_ne hxa hxb]
  by_cases hya' : y = a
  · rw [hya', Equiv.swap_apply_left, hya hya', hgpa]
  by_cases hyb' : y = b
  · rw [hyb', Equiv.swap_apply_right, hyb hyb', hgpb]
  rw [Equiv.swap_apply_of_ne_of_ne hya' hyb', ← hxy]
  refine hrest x hxa hxb ?_ ?_
  · rintro rfl
    exact hya' (Option.some.inj (hxy.symm.trans hpa))
  · rintro rfl
    exact hyb' (Option.some.inj (hxy.symm.trans hpb))

/-- The neighbours of two nodes that are not neighbours of each other. -/
structure Apart (heap : Heap A) (a b pa na pb nb : A) : Prop where
  ne : a ≠ b
  before_a : heap.Linked pa a ∧ pa ≠ a ∧ pa ≠ b
  after_a : heap.Linked a na ∧ na ≠ a ∧ na ≠ b
  before_b : heap.Linked pb b ∧ pb ≠ a ∧ pb ≠ b
  after_b : heap.Linked b nb ∧ nb ≠ a ∧ nb ≠ b

/-- All links are the old ones under exchanged names. -/
theorem Apart.linked_swap (h : Apart heap a b pa na pb nb)
    (hnext : heap'.next = Function.update (Function.update (Function.update (Function.update
      heap.next pb (some a)) a (some nb)) pa (some b)) b (some na))
    (hprev : heap'.prev = Function.update (Function.update (Function.update (Function.update
      heap.prev a (some pb)) nb (some a)) b (some pa)) na (some b)) {x y : A}
    (hlink : heap.Linked x y) : heap'.Linked (Equiv.swap a b x) (Equiv.swap a b y) := by
  obtain ⟨hab, ⟨hpa, hpaa, hpab⟩, ⟨hna, hnaa, hnab⟩, ⟨hpb, hpba, hpbb⟩, ⟨hnb, hnba, hnbb⟩⟩ := h
  have hpapb : pa ≠ pb := by
    rintro rfl
    exact hab (Option.some.inj (hpa.1.symm.trans hpb.1))
  have hnanb : na ≠ nb := by
    rintro rfl
    exact hab (Option.some.inj (hna.2.symm.trans hnb.2))
  constructor
  · refine link_swap hab hna.1 hnb.1 ⟨hnaa, hnab⟩ ⟨hnba, hnbb⟩ ?_ ?_ ?_ ?_ ?_ hlink.1 ?_ ?_
      hpa.1 hpb.1
    · rw [hnext, Function.update_of_ne hab, Function.update_of_ne hpaa.symm, Function.update_self]
    · rw [hnext, Function.update_self]
    · rw [hnext, Function.update_of_ne hpab, Function.update_self]
    · rw [hnext, Function.update_of_ne hpbb, Function.update_of_ne hpapb.symm,
        Function.update_of_ne hpba, Function.update_self]
    · intro z hza hzb hzpa hzpb
      rw [hnext, Function.update_of_ne hzb, Function.update_of_ne hzpa, Function.update_of_ne hza,
        Function.update_of_ne hzpb]
    · rintro rfl
      exact Option.some.inj (hlink.2.symm.trans hpa.2)
    · rintro rfl
      exact Option.some.inj (hlink.2.symm.trans hpb.2)
  · refine link_swap hab hpa.2 hpb.2 ⟨hpaa, hpab⟩ ⟨hpba, hpbb⟩ ?_ ?_ ?_ ?_ ?_ hlink.2 ?_ ?_
      hna.2 hnb.2
    · rw [hprev, Function.update_of_ne hnaa.symm, Function.update_of_ne hab,
        Function.update_of_ne hnba.symm, Function.update_self]
    · rw [hprev, Function.update_of_ne hnab.symm, Function.update_self]
    · rw [hprev, Function.update_self]
    · rw [hprev, Function.update_of_ne hnanb.symm, Function.update_of_ne hnbb,
        Function.update_self]
    · intro z hza hzb hzna hznb
      rw [hprev, Function.update_of_ne hzna, Function.update_of_ne hzb, Function.update_of_ne hznb,
        Function.update_of_ne hza]
    · rintro rfl
      exact Option.some.inj (hlink.1.symm.trans hna.1)
    · rintro rfl
      exact Option.some.inj (hlink.1.symm.trans hnb.1)

/-! ## The rings afterwards -/

/-- What follows a node of a ring follows its new name in the exchanged ring. -/
theorem linked_exchanged (hrings : Rings heap rings) {r r' : A × List A} (hr : r ∈ rings)
    (hr' : r' ∈ rings) (ha : a ∈ r.2) (hb : b ∈ r'.2)
    (hrings' : Rings heap' (exchanged a b rings)) {x y : A} {r₀ : A × List A} (hr₀ : r₀ ∈ rings)
    (hx : x ∈ r₀.2) (hlink : heap.Linked x y) :
    heap'.Linked (Equiv.swap a b x) (Equiv.swap a b y) := by
  have hhead : Equiv.swap a b r₀.1 = r₀.1 :=
    Equiv.swap_apply_of_ne_of_ne (hrings.ne_head hr hr₀ ha).symm (hrings.ne_head hr' hr₀ hb).symm
  have hring := hrings.ring r₀ hr₀
  have hring' := hrings'.ring _ (List.mem_map.mpr ⟨r₀, hr₀, rfl⟩)
  obtain ⟨us, vs, hsplit⟩ := List.append_of_mem hx
  obtain ⟨z, hz⟩ := exists_stop r₀.1 vs
  rw [hsplit] at hring hring'
  obtain rfl : z = y := Option.some.inj ((hring.linked_next hz).1.symm.trans hlink.1)
  rw [List.map_append, List.map_cons] at hring'
  refine hring'.linked_next ?_
  have hmap : (vs.map (Equiv.swap a b) ++ [r₀.1]) = (vs ++ [r₀.1]).map (Equiv.swap a b) := by
    rw [List.map_append, List.map_cons, List.map_nil, hhead]
  rw [hmap, List.head?_map, hz]
  rfl

/-- `list_exchange` swaps two nodes exactly when neither follows the other. -/
theorem exchanges_iff (hrings : Rings heap rings) (ha : a ∈ rings.flatMap Prod.snd)
    (hb : b ∈ rings.flatMap Prod.snd) (hab : a ≠ b) :
    Exchanges heap rings a b ↔ ¬ heap.Linked a b ∧ ¬ heap.Linked b a := by
  obtain ⟨r, hr, har⟩ := List.mem_flatMap.mp ha
  obtain ⟨r', hr', hbr⟩ := List.mem_flatMap.mp hb
  obtain ⟨pa, na, hpa, hna, hpaa, hnaa⟩ := hrings.neighbours hr har
  obtain ⟨pb, nb, hpb, hnb, hpbb, hnbb⟩ := hrings.neighbours hr' hbr
  obtain ⟨heap', hrun, hnext, hprev⟩ := listExchange_links hpa hna hpb hnb
  constructor
  · rintro ⟨heap'', hrun', hrings'⟩
    obtain rfl := Option.some.inj (hrun.symm.trans hrun')
    have hswapped := @linked_exchanged A _ heap heap' a b rings hrings r r' hr hr' har hbr hrings'
    refine ⟨fun hlink => ?_, fun hlink => ?_⟩
    · -- `b` would be its own successor
      obtain rfl : b = na := Option.some.inj (hlink.1.symm.trans hna.1)
      have hbad := (hswapped hr har hlink).1
      rw [Equiv.swap_apply_left, Equiv.swap_apply_right, hnext, Function.update_self] at hbad
      exact hab (Option.some.inj hbad).symm
    · -- `a` would be its own successor
      obtain rfl : a = nb := Option.some.inj (hlink.1.symm.trans hnb.1)
      have hbad := (hswapped hr' hbr hlink).1
      rw [Equiv.swap_apply_left, Equiv.swap_apply_right, hnext, Function.update_of_ne hab,
        Function.update_of_ne hpaa.symm, Function.update_self] at hbad
      exact hab (Option.some.inj hbad)
  · rintro ⟨hnab, hnba⟩
    have hapart : Apart heap a b pa na pb nb := by
      refine ⟨hab, ⟨hpa, hpaa, ?_⟩, ⟨hna, hnaa, ?_⟩, ⟨hpb, ?_, hpbb⟩, ⟨hnb, ?_, hnbb⟩⟩
      · rintro rfl
        exact hnba hpa
      · rintro rfl
        exact hnab hna
      · rintro rfl
        exact hnab hpb
      · rintro rfl
        exact hnba hnb
    refine ⟨heap', hrun, hrings.map_perm (fun s hs => ?_) fun x y hlink => ?_⟩
    · exact Equiv.swap_apply_of_ne_of_ne (hrings.ne_head hr hs har).symm
        (hrings.ne_head hr' hs hbr).symm
    · exact hapart.linked_swap hnext hprev hlink

/-- Two nodes in two rings. -/
theorem exchanges_iff_two :
    Exchanges twoRings [(0, [1, 2]), (3, [4])] 1 4 ↔
      ¬ twoRings.Linked 1 4 ∧ ¬ twoRings.Linked 4 1 :=
  exchanges_iff rings_twoRings (by decide) (by decide) (by decide)

/-- In the ring of two nodes the exchange leaves the second one linked to itself. -/
theorem not_exchanges_neighbours :
    Rings twoRings [(0, [1, 2]), (3, [4])] ∧
      ((listExchange twoRings 1 2).bind fun heap => heap.next 2) = some 2 ∧
      ¬ Exchanges twoRings [(0, [1, 2]), (3, [4])] 1 2 := by
  have hself : ((listExchange twoRings 1 2).bind fun heap => heap.next 2) = some 2 := by decide
  refine ⟨rings_twoRings, hself, ?_⟩
  rintro ⟨heap', hrun, hrings'⟩
  have hring : RingAt heap' 0 ([] ++ 2 :: [1]) := hrings'.ring (0, [2, 1]) (by decide)
  have hlink : heap'.Linked 2 1 := hring.linked_next rfl
  rw [hrun] at hself
  have := Option.some.inj (hlink.1.symm.trans hself)
  omega

end LibSimple.ListHead
