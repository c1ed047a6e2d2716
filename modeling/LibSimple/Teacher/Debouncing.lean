import LibSimple.Support.Debounce
import LibSimple.Teacher.Duration

/-!
# What counts as a change

`is_valid` of `AreaDuration` is the kind of the last two equal samples in a row, and the
result of `update` of `ChkValidData` that of the last six.
-/

namespace LibSimple.Teacher

open Debounce

/-- The kinds of samples. -/
def kinds (samples : List Sample) : List Bool := samples.map Sample.valid

/-! ## `AreaDuration` -/

namespace AreaDuration

/-- The counter of `AreaDuration` counts the pending samples down from two. -/
structure Debounces (d : AreaDuration) (ks : List Bool) : Prop where
  valid : d.valid = output 2 ks
  contiousCnt : d.contiousCnt = 2 - pending 2 ks

/-- A sample changes the state when it completes a run. -/
theorem Debounces.switches_iff {d : AreaDuration} {ks : List Bool} (h : d.Debounces ks)
    {kind : Bool} :
    d.Switches kind ↔ kind ≠ output 2 ks ∧ ¬ pending 2 ks + 1 < 2 := by
  have hlt := pending_lt (by decide : 0 < 2) ks
  rw [Switches, h.valid, h.contiousCnt]
  exact and_congr_right fun _ => by omega

theorem Debounces.stamped {d : AreaDuration} {ks : List Bool} (h : d.Debounces ks) (x : Sample) :
    (d.stamped x).Debounces (x.valid :: ks) := by
  have hspec := stamped_spec d x
  have hstep := output_pending_cons (by decide : 0 < 2) x.valid ks
  have hcount := h.contiousCnt
  have hlt := pending_lt (by decide : 0 < 2) ks
  by_cases hx : x.valid = output 2 ks
  · rw [if_pos hx, Prod.mk.injEq] at hstep
    have hno : ¬ d.Switches x.valid := fun hs => (h.switches_iff.mp hs).1 hx
    constructor
    · rw [hspec.valid, if_neg hno, hstep.1, h.valid]
    · rw [hspec.contiousCnt, if_neg fun hne => hne.1 (hx.trans h.valid.symm), hstep.2]
      rfl
  · by_cases hrun : pending 2 ks + 1 < 2
    · rw [if_neg hx, if_pos hrun, Prod.mk.injEq] at hstep
      have hno : ¬ d.Switches x.valid := fun hs => (h.switches_iff.mp hs).2 hrun
      have hne : x.valid ≠ d.valid := by rwa [h.valid]
      constructor
      · rw [hspec.valid, if_neg hno, hstep.1, h.valid]
      · rw [hspec.contiousCnt, if_pos ⟨hne, by omega⟩, hstep.2]
        omega
    · rw [if_neg hx, if_neg hrun, Prod.mk.injEq] at hstep
      have hswitch : d.Switches x.valid := h.switches_iff.mpr ⟨hx, hrun⟩
      constructor
      · rw [hspec.valid, if_pos hswitch, hstep.1]
      · rw [hspec.contiousCnt, if_neg fun hne => hne.2 hswitch.2, hstep.2]
        rfl

theorem debounces_after (calls : List Call) : (after calls).Debounces (kinds (samples calls)) := by
  induction calls with
  | nil => exact ⟨rfl, rfl⟩
  | cons c earlier ih =>
      rcases after_cons_cases c earlier with ⟨x, hsamples, hafter⟩ | ⟨hsamples, id, hafter⟩
      · rw [hsamples, hafter]
        exact ih.stamped x
      · obtain ⟨-, hvalid, hcnt, -⟩ := setArea_spec (after earlier) id
        rw [hsamples, hafter]
        exact ⟨hvalid.trans ih.valid, hcnt.trans ih.contiousCnt⟩

end AreaDuration

/-! ## `ChkValidData` -/

namespace ChkValidData

/-- The counter of `ChkValidData` counts the pending samples down from six, as long as
there are any. -/
structure Debounces (s : ChkValidData) (ks : List Bool) : Prop where
  curr : s.curr = output 6 ks
  lastValid : s.lastValid = ks.headD false
  contiousCnt : s.lastValid ≠ s.curr → s.contiousCnt = 6 - pending 6 ks

/-- Nothing is pending when the newest sample agrees with the signal. -/
theorem Debounces.pending_eq_zero {s : ChkValidData} {ks : List Bool} (h : s.Debounces ks)
    (heq : s.lastValid = s.curr) : pending 6 ks = 0 := by
  rw [h.lastValid, h.curr] at heq
  cases ks with
  | nil => rfl
  | cons k ks => exact pending_cons_of_eq heq

theorem Debounces.update {s : ChkValidData} {ks : List Bool} (h : s.Debounces ks) (d : Bool)
    (stamp : ℚ) :
    (s.update d stamp).1.Debounces (d :: ks) ∧
      (s.update d stamp).2 = (s.update d stamp).1.curr := by
  have hstep := output_pending_cons (by decide : 0 < 6) d ks
  have hlt := pending_lt (by decide : 0 < 6) ks
  rw [← h.curr] at hstep
  by_cases hd : d = s.curr
  · rw [if_pos hd, Prod.mk.injEq] at hstep
    by_cases hlast : d = s.lastValid
    · rw [ChkValidData.update, if_pos hlast, if_pos hd]
      refine ⟨⟨hstep.1.symm, hlast.symm, fun hne => ?_⟩, rfl⟩
      exact absurd (hlast.symm.trans hd) hne
    · rw [ChkValidData.update, if_neg hlast]
      exact ⟨⟨hstep.1.symm, rfl, fun hne => absurd hd hne⟩, rfl⟩
  · by_cases hlast : d = s.lastValid
    · have hcnt := h.contiousCnt (hlast ▸ hd)
      rw [ChkValidData.update, if_pos hlast, if_neg hd]
      by_cases hrun : pending 6 ks + 1 < 6
      · rw [if_neg hd, if_pos hrun, Prod.mk.injEq] at hstep
        dsimp only
        rw [if_neg (by omega)]
        refine ⟨⟨hstep.1.symm, hlast.symm, fun _ => ?_⟩, rfl⟩
        show s.contiousCnt - 1 = _
        rw [hstep.2]
        omega
      · rw [if_neg hd, if_neg hrun, Prod.mk.injEq] at hstep
        dsimp only
        rw [if_pos (by omega)]
        exact ⟨⟨hstep.1.symm, hlast.symm, fun hne => absurd hlast.symm hne⟩, rfl⟩
    · have heq : s.lastValid = s.curr := by
        cases d <;> cases hl : s.lastValid <;> cases hc : s.curr <;> simp_all
      have hzero := h.pending_eq_zero heq
      rw [if_neg hd, if_pos (by omega), Prod.mk.injEq] at hstep
      rw [ChkValidData.update, if_neg hlast]
      refine ⟨⟨hstep.1.symm, rfl, fun _ => ?_⟩, rfl⟩
      show validContious = _
      rw [hstep.2, hzero]
      rfl

theorem debounces_after (now : ℚ) (samples : List Sample) :
    (after now samples).Debounces (kinds samples) := by
  induction samples with
  | nil => exact ⟨rfl, rfl, fun hne => absurd rfl hne⟩
  | cons x earlier ih => exact (ih.update x.valid x.stamp).1

end ChkValidData

/-- `is_valid` is the kind of the last two equal samples in a row, and `update` returns that
of the last six; both are `false` before. -/
theorem debouncing_exact :
    (∀ calls, (AreaDuration.after calls).isValid =
        (recentRun 2 (kinds (AreaDuration.samples calls))).getD false) ∧
      ∀ now x earlier, ((ChkValidData.after now earlier).update x.valid x.stamp).2 =
        (recentRun 6 (kinds (x :: earlier))).getD false := by
  constructor
  · intro calls
    exact (AreaDuration.debounces_after calls).valid
  · intro now x earlier
    obtain ⟨hdebounces, hresult⟩ :=
      (ChkValidData.debounces_after now earlier).update x.valid x.stamp
    exact hresult.trans hdebounces.curr

end LibSimple.Teacher
