import LibSimple.Teacher.Debouncing
import Mathlib.Algebra.Order.Field.Rat
import Mathlib.Tactic.Linarith

/-!
# Reported durations

How far the durations of `AreaDuration` can be trusted.  The time of an isolated sample of
the other kind is counted, and nothing takes it back when the state changes to that kind
later.  So a duration is too long exactly when such samples have come in between.
-/

namespace LibSimple.Teacher

open Debounce

/-! ## The history of samples -/

/-- The debounced state behind these samples, newest first. -/
def shown (samples : List Sample) : Bool := output 2 (kinds samples)

/-- The newest two samples change the state. -/
def Changes (x y : Sample) (older : List Sample) : Prop :=
  x.valid = y.valid ∧ x.valid ≠ shown (y :: older)

instance (x y : Sample) (older : List Sample) : Decidable (Changes x y older) :=
  inferInstanceAs (Decidable (_ ∧ _))

/-- The stamp of the last sample before the pair that made the last change, or of the
first sample of all when none precedes the pair. -/
def changeStamp : List Sample → Option ℚ
  | x :: y :: older =>
      if Changes x y older then some ((older.head?.map Sample.stamp).getD y.stamp)
      else changeStamp (y :: older)
  | _ => none

/-- The time since the sample before. -/
def sinceLast (x : Sample) : List Sample → ℚ
  | [] => 0
  | y :: _ => x.stamp - y.stamp

/-- The time that samples of the kind that is not shown have taken since the last change. -/
def stray : List Sample → ℚ
  | [] => 0
  | x :: older =>
      if shown (x :: older) ≠ shown older then 0
      else if x.valid = shown older then stray older
      else stray older + sinceLast x older

/-- Whenever a pair changes the state, the samples of its kind that came since the change
before, each alone, have taken no time. -/
def NoStray : List Sample → Prop
  | x :: y :: older => (Changes x y older → stray older = 0) ∧ NoStray (y :: older)
  | _ => True

/-- The stamps are positive and do not decrease. -/
structure Ordered (samples : List Sample) : Prop where
  positive : ∀ x ∈ samples, 0 < x.stamp
  sorted : samples.Pairwise fun x y => y.stamp ≤ x.stamp

theorem NoStray.tail {x : Sample} {older : List Sample} (h : NoStray (x :: older)) :
    NoStray older := by
  cases older with
  | nil => trivial
  | cons y older => exact h.2

theorem Ordered.tail {x : Sample} {older : List Sample} (h : Ordered (x :: older)) :
    Ordered older :=
  ⟨fun y hy => h.positive y (List.mem_cons_of_mem x hy), h.sorted.tail⟩

theorem Ordered.sinceLast_nonneg {x : Sample} {older : List Sample} (h : Ordered (x :: older)) :
    0 ≤ sinceLast x older := by
  cases older with
  | nil => exact le_refl 0
  | cons y older =>
      have hle : y.stamp ≤ x.stamp := List.rel_of_pairwise_cons h.sorted List.mem_cons_self
      exact sub_nonneg.mpr hle

theorem Ordered.stray_nonneg {samples : List Sample} (h : Ordered samples) :
    0 ≤ stray samples := by
  induction samples with
  | nil => exact le_refl 0
  | cons x older ih =>
      have hstray := ih h.tail
      have hsince := h.sinceLast_nonneg
      rw [stray]
      split_ifs
      · exact le_refl 0
      · exact hstray
      · exact add_nonneg hstray hsince

/-! ## What the object keeps of it -/

namespace AreaDuration

/-- The fields of an `AreaDuration` behind these samples. -/
structure Tracks (d : AreaDuration) (samples : List Sample) : Prop where
  debounces : d.Debounces (kinds samples)
  last : d.last = (samples.head?.map Sample.stamp).getD (-1)
  other : d.duration (!shown samples) = stray samples
  nonneg : 0 ≤ d.durationValid
  area : d.durationValidArea ≤ d.durationValid

variable {d : AreaDuration} {samples : List Sample} {x : Sample}

theorem Tracks.gap_eq (h : d.Tracks samples) (hordered : Ordered (x :: samples)) :
    d.gap x.stamp = sinceLast x samples := by
  rw [gap, h.last]
  cases samples with
  | nil => exact if_neg (by decide)
  | cons y older => exact if_pos (hordered.positive y (by simp))

/-- A sample changes the state when it makes a pair with the one before. -/
theorem Tracks.switches_iff (h : d.Tracks samples) :
    d.Switches x.valid ↔ ∃ y older, samples = y :: older ∧ Changes x y older := by
  rw [h.debounces.switches_iff]
  cases samples with
  | nil => exact iff_of_false (fun hs => hs.2 (by decide)) fun ⟨y, older, hnil, _⟩ => by cases hnil
  | cons y older =>
      have hpending : 0 < pending 2 (kinds (y :: older)) ↔ y.valid ≠ shown (y :: older) :=
        pending_pos_iff
      constructor
      · rintro ⟨hx, hrun⟩
        have hy := hpending.mp (by omega)
        refine ⟨y, older, rfl, ?_, hx⟩
        change x.valid ≠ shown (y :: older) at hx
        cases hk : shown (y :: older) <;> simp_all
      · rintro ⟨_, _, hcons, hpair, hx⟩
        obtain ⟨rfl, rfl⟩ := List.cons.inj hcons
        have hpos := hpending.mpr (hpair ▸ hx)
        exact ⟨hx, by omega⟩

theorem Tracks.valid (h : d.Tracks samples) : d.valid = shown samples := h.debounces.valid

/-- The state that is shown behind one more sample. -/
theorem Tracks.shown_cons (h : d.Tracks samples) :
    shown (x :: samples) = if d.Switches x.valid then x.valid else shown samples := by
  rw [← h.valid, ← (stamped_spec d x).valid]
  exact (h.debounces.stamped x).valid.symm

theorem duration_true (d : AreaDuration) : d.duration true = d.durationValid := rfl

theorem Tracks.stamped (h : d.Tracks samples) (hordered : Ordered (x :: samples)) :
    (d.stamped x).Tracks (x :: samples) := by
  have hspec := stamped_spec d x
  have hgap := h.gap_eq hordered
  have hsince := hordered.sinceLast_nonneg
  have hshown := h.shown_cons (x := x)
  have hown := hspec.own
  have hother := hspec.other
  have harea := hspec.validArea
  have hnonneg := h.nonneg
  have hle := h.area
  rw [hgap] at hown harea
  have hdurations : 0 ≤ (d.stamped x).durationValid ∧
      (d.stamped x).durationValidArea ≤ (d.stamped x).durationValid := by
    cases hk : x.valid with
    | true =>
        rw [hk] at hown harea
        rw [harea, if_pos rfl, ← duration_true, hown, duration_true]
        exact ⟨by linarith, by linarith⟩
    | false =>
        rw [hk] at hother harea
        rw [harea, if_neg Bool.false_ne_true, ← duration_true]
        change (d.stamped x).duration true = _ at hother
        rw [hother]
        split_ifs
        · exact ⟨le_refl 0, le_refl 0⟩
        · exact ⟨hnonneg, hle⟩
  refine ⟨h.debounces.stamped x, hspec.last, ?_, hdurations.1, hdurations.2⟩
  rw [stray]
  by_cases hswitch : d.Switches x.valid
  · rw [if_pos hswitch] at hshown hother
    have hchange : shown (x :: samples) ≠ shown samples := by
      rw [hshown, ← h.valid]
      exact hswitch.1
    rw [if_pos hchange, hshown, hother]
  · rw [if_neg hswitch] at hshown hother
    rw [if_neg (not_not.mpr hshown), hshown]
    by_cases hx : x.valid = shown samples
    · rw [if_pos hx, ← hx, hother, hx, h.other]
    · have hnot : (!shown samples) = x.valid := by
        cases hk : shown samples <;> simp_all
      rw [if_neg hx, hnot, hown, ← hnot, h.other]

theorem Tracks.setArea (h : d.Tracks samples) (id : ℤ) : (d.setArea id).Tracks samples := by
  obtain ⟨hlast, hvalid, hcnt, hduration, harea⟩ := setArea_spec d id
  have hvalidDuration : (d.setArea id).durationValid = d.durationValid := hduration true
  refine ⟨⟨hvalid.trans h.debounces.valid, hcnt.trans h.debounces.contiousCnt⟩,
    hlast.trans h.last, (hduration _).trans h.other, ?_, ?_⟩
  · rw [hvalidDuration]
    exact h.nonneg
  · rw [hvalidDuration]
    rcases harea with harea | harea
    · rw [harea]
      exact h.area
    · rw [harea]
      exact h.nonneg

theorem tracks_after {calls : List Call} (hordered : Ordered (AreaDuration.samples calls)) :
    (after calls).Tracks (AreaDuration.samples calls) := by
  induction calls with
  | nil => exact ⟨⟨rfl, rfl⟩, rfl, rfl, le_refl 0, le_refl 0⟩
  | cons c earlier ih =>
      rcases after_cons_cases c earlier with ⟨x, hsamples, hafter⟩ | ⟨hsamples, id, hafter⟩
      · rw [hsamples] at hordered ⊢
        rw [hafter]
        exact (ih hordered.tail).stamped hordered
      · rw [hsamples] at hordered ⊢
        rw [hafter]
        exact (ih hordered).setArea id

/-! ## Durations of the state that is shown -/

/-- What a change counts for the new state: the time since the sample before the pair, and
the stray time. -/
theorem Tracks.duration_of_changes {y : Sample} {older : List Sample}
    (h : d.Tracks (y :: older)) (hordered : Ordered (x :: y :: older))
    (hchanges : Changes x y older) :
    (d.stamped x).duration x.valid = stray older +
      (x.stamp - (older.head?.map Sample.stamp).getD y.stamp) := by
  obtain ⟨hpair, hx⟩ := hchanges
  have hnot : (!shown (y :: older)) = x.valid := by
    cases hk : shown (y :: older) <;> simp_all
  -- The first sample of the pair has not changed the state, so its time is stray too.
  have hstray : stray (y :: older) = stray older + sinceLast y older := by
    have hy : y.valid ≠ shown (y :: older) := by rwa [← hpair]
    obtain ⟨hsame, hne⟩ : shown (y :: older) = shown older ∧ y.valid ≠ shown older :=
      output_eq_of_ne (by decide) hy
    rw [stray, if_neg (not_not.mpr hsame), if_neg hne]
  rw [(stamped_spec d x).own, h.gap_eq hordered, ← hnot, h.other, hstray, sinceLast]
  cases older with
  | nil =>
      show stray [] + 0 + (x.stamp - y.stamp) = stray [] + (x.stamp - y.stamp)
      linarith
  | cons z older =>
      show stray (z :: older) + (y.stamp - z.stamp) + (x.stamp - y.stamp) =
        stray (z :: older) + (x.stamp - z.stamp)
      linarith

theorem Tracks.shown_of_changes {y : Sample} {older : List Sample} (h : d.Tracks (y :: older))
    (hchanges : Changes x y older) : shown (x :: y :: older) = x.valid := by
  rw [h.shown_cons, if_pos (h.switches_iff.mpr ⟨y, older, rfl, hchanges⟩)]

/-- The duration of the state that is shown goes back to its last change at most. -/
def Bounded (d : AreaDuration) (samples : List Sample) : Prop :=
  ∀ x ∈ samples.head?, ∀ b ∈ changeStamp samples, d.duration (shown samples) ≤ x.stamp - b

theorem Tracks.bounded_stamped (h : d.Tracks samples) (hordered : Ordered (x :: samples))
    (hbounded : d.Bounded samples) (hstray : NoStray (x :: samples)) :
    (d.stamped x).Bounded (x :: samples) := by
  intro x' hx' b hb
  obtain rfl := Option.some.inj hx'
  cases samples with
  | nil => cases hb
  | cons y older =>
      rw [changeStamp] at hb
      by_cases hchanges : Changes x y older
      · rw [if_pos hchanges] at hb
        rw [h.shown_of_changes hchanges, h.duration_of_changes hordered hchanges,
          hstray.1 hchanges, ← Option.some.inj hb]
        linarith
      · rw [if_neg hchanges] at hb
        have hbound := hbounded y rfl b hb
        have hle : y.stamp ≤ x.stamp :=
          List.rel_of_pairwise_cons hordered.sorted List.mem_cons_self
        have hno : ¬ d.Switches x.valid := by
          rw [h.switches_iff]
          rintro ⟨_, _, hcons, hpair⟩
          obtain ⟨rfl, rfl⟩ := List.cons.inj hcons
          exact hchanges hpair
        rw [h.shown_cons, if_neg hno]
        by_cases hx : x.valid = shown (y :: older)
        · have hown := (stamped_spec d x).own
          rw [h.gap_eq hordered, sinceLast, hx] at hown
          rw [hown]
          linarith
        · have hnot : (!x.valid) = shown (y :: older) := by
            cases hk : shown (y :: older) <;> simp_all
          have hother := (stamped_spec d x).other
          rw [if_neg hno, hnot] at hother
          rw [hother]
          linarith

theorem bounded_after {calls : List Call} (hordered : Ordered (AreaDuration.samples calls))
    (hstray : NoStray (AreaDuration.samples calls)) :
    (after calls).Bounded (AreaDuration.samples calls) := by
  induction calls with
  | nil => exact fun x hx => by cases hx
  | cons c earlier ih =>
      rcases after_cons_cases c earlier with ⟨x, hsamples, hafter⟩ | ⟨hsamples, id, hafter⟩
      · rw [hsamples] at hordered hstray ⊢
        rw [hafter]
        exact (tracks_after hordered.tail).bounded_stamped hordered (ih hordered.tail hstray.tail)
          hstray
      · rw [hsamples] at hordered hstray ⊢
        rw [hafter]
        obtain ⟨-, -, -, hduration, -⟩ := setArea_spec (after earlier) id
        intro x hx b hb
        rw [hduration]
        exact ih hordered hstray x hx b hb

/-! ## Over-reporting -/

/-- The durations that are reported go back at most to the last sample before the pair
that made the last change, or to the first sample of all. -/
def NoOverReport (calls : List Call) : Prop :=
  ∀ latest ∈ (AreaDuration.samples calls).head?, ∀ b ∈ changeStamp (AreaDuration.samples calls),
    ((after calls).isValid = true →
      (after calls).validDuration ≤ latest.stamp - b ∧
        (after calls).validDurationArea ≤ latest.stamp - b) ∧
    ((after calls).isValid = false → (after calls).invalidDuration ≤ latest.stamp - b)

/-- It is enough to look at the duration of the state that is shown. -/
theorem noOverReport_iff {calls : List Call} (hordered : Ordered (AreaDuration.samples calls)) :
    NoOverReport calls ↔ (after calls).Bounded (AreaDuration.samples calls) := by
  have htracks := tracks_after hordered
  have harea := htracks.area
  rw [NoOverReport, Bounded, ← htracks.valid]
  refine forall₂_congr fun latest _ => forall₂_congr fun b _ => ?_
  rw [isValid, validDuration, validDurationArea, invalidDuration, duration]
  cases (after calls).valid with
  | true =>
      simp only [if_true, true_imp_iff, Bool.true_eq_false, false_imp_iff, and_true]
      exact ⟨fun h => h.1, fun h => ⟨h, harea.trans h⟩⟩
  | false =>
      simp only [Bool.not_false, if_true, true_imp_iff, Bool.false_eq_true, if_false,
        false_imp_iff, true_and]

/-- A change after stray time over-reports at once. -/
theorem Tracks.noStray_cons (h : d.Tracks samples) (hordered : Ordered (x :: samples))
    (hbounded : (d.stamped x).Bounded (x :: samples)) (hstray : NoStray samples) :
    NoStray (x :: samples) := by
  cases samples with
  | nil => trivial
  | cons y older =>
      refine ⟨fun hchanges => ?_, hstray⟩
      have hbase : changeStamp (x :: y :: older) =
          some ((older.head?.map Sample.stamp).getD y.stamp) := if_pos hchanges
      have hle := hbounded x rfl _ hbase
      rw [h.shown_of_changes hchanges, h.duration_of_changes hordered hchanges] at hle
      have hnonneg := hordered.tail.tail.stray_nonneg
      linarith

/-- In a run of calls no duration is ever over-reported exactly when no pair changes the
state after stray time. -/
theorem noOverReport_run_iff {calls : List Call} (hordered : Ordered (AreaDuration.samples calls)) :
    (∀ earlier, earlier <:+ calls → NoOverReport earlier) ↔
      NoStray (AreaDuration.samples calls) := by
  induction calls with
  | nil =>
      refine iff_of_true (fun earlier hsuffix => ?_) trivial
      rw [List.suffix_nil.mp hsuffix]
      exact fun latest hlatest => by cases hlatest
  | cons c earlier ih =>
      have hsplit : (∀ calls, calls <:+ c :: earlier → NoOverReport calls) ↔
          NoOverReport (c :: earlier) ∧ ∀ calls, calls <:+ earlier → NoOverReport calls := by
        simp only [List.suffix_cons_iff, or_imp, forall_and, forall_eq]
      have hbounded := bounded_after hordered
      rw [hsplit, noOverReport_iff hordered]
      rcases after_cons_cases c earlier with ⟨x, hsamples, hafter⟩ | ⟨hsamples, id, -⟩
      · rw [hsamples] at hordered hbounded ⊢
        have htracks := tracks_after hordered.tail
        rw [ih hordered.tail]
        refine ⟨fun h => ?_, fun h => ⟨hbounded h, h.tail⟩⟩
        rw [hafter] at h
        exact htracks.noStray_cons hordered h.1 h.2
      · rw [hsamples] at hordered hbounded ⊢
        rw [ih hordered]
        exact ⟨fun h => h.2, fun h => ⟨hbounded h, h⟩⟩

/-- Three isolated samples of each kind, and then a pair. -/
def alternating : List Call :=
  [.setValidStamp 8, .setValidStamp 7, .setInvalidStamp 6, .setValidStamp 5, .setInvalidStamp 4,
    .setValidStamp 3, .setInvalidStamp 2, .setValidStamp 1]

theorem ordered_alternating : Ordered (AreaDuration.samples alternating) :=
  ⟨by decide +kernel, by decide +kernel⟩

theorem noOverReport_run_iff_alternating :
    (∀ earlier, earlier <:+ alternating → NoOverReport earlier) ↔
      NoStray (AreaDuration.samples alternating) :=
  noOverReport_run_iff ordered_alternating

/-- The teacher counts as detected since the stamp 6, and 4 is reported at the stamp 8. -/
theorem not_noOverReport :
    ¬ ∀ calls, Ordered (AreaDuration.samples calls) → NoOverReport calls := by
  intro h
  have hchange : changeStamp (AreaDuration.samples alternating) = some 6 := by
    decide +kernel
  have hvalid : (after alternating).isValid = true := by
    decide +kernel
  have hle := ((h alternating ordered_alternating ⟨true, 8⟩ rfl 6 hchange).1 hvalid).1
  revert hle
  decide +kernel

end AreaDuration

end LibSimple.Teacher
