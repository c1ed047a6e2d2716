import LibSimple.Support.EventRuns
import LibSimple.Teacher.Control

/-!
# The scalers of `Running`

Pictures come in any size and format, and the size may change from one to the next.
`chk_scale` keeps a context of `libswscale` for each of the two cameras and makes a new one
when the picture is not like the last one.  A context is known by its address; what
`sws_getContext` returns is not in use.
-/

namespace LibSimple.Teacher

open CLang EventRuns

/-- `SwsContext`, by the arguments of `sws_getContext`. -/
structure SwsContext where
  srcWidth : ℤ
  srcHeight : ℤ
  srcFormat : ℤ
  dstWidth : ℤ
  dstHeight : ℤ
  deriving DecidableEq

/-- `sws_[index]`, `last_width_[index]`, `last_height_[index]` and `last_fmt_[index]`; the
constructor does not set the last two. -/
structure LastPicture where
  sws : Option ℕ
  width : ℤ
  height : Option ℤ
  fmt : Option ℤ

/-- The members of `Running` for the scaling, by `tracing`, and the contexts that are
alive. -/
structure Scaler where
  contexts : ℕ → Option SwsContext
  last : Bool → LastPicture
  width : Bool → ℤ
  height : Bool → ℤ

/-- A picture for `write_img`, or for `write_img_tracing`. -/
structure Picture where
  tracing : Bool
  width : ℤ
  height : ℤ
  fmt : ℤ

namespace Scaler

/-- The constructor. -/
def create (getValue : CStr → Option CStr) : Scaler where
  contexts := fun _ => none
  last := fun _ => ⟨none, -1, none, none⟩
  width := fun _ => intValue getValue "video_width" "960"
  height := fun _ => intValue getValue "video_height" "540"

/-- The test in `chk_scale`; `none` when it reads what has not been set. -/
def changed (last : LastPicture) (p : Picture) : Option Bool :=
  if p.width ≠ last.width then some true
  else do
    let height ← last.height
    if p.height ≠ height then some true
    else do
      let fmt ← last.fmt
      some (p.fmt ≠ fmt)

/-- `sws_freeContext`; `none` when there is no such context. -/
def swsFreeContext (s : Scaler) (ctx : ℕ) : Option Scaler :=
  if (s.contexts ctx).isSome then
    some { s with contexts := Function.update s.contexts ctx none }
  else none

/-- `chk_scale`, with what `sws_getContext` returns if it is called; `none` when it fails,
which ends the process, or when the context is in use. -/
def chkScale (s : Scaler) (p : Picture) (ctx : Option ℕ) : Option Scaler := do
  if ← changed (s.last p.tracing) p then
    let s ← match (s.last p.tracing).sws with
      | some old => s.swsFreeContext old
      | none => some s
    let new ← ctx
    if (s.contexts new).isSome then none
    else
      some { s with
        contexts := Function.update s.contexts new (some
          ⟨p.width, p.height, p.fmt, s.width p.tracing, s.height p.tracing⟩)
        last := Function.update s.last p.tracing ⟨some new, p.width, some p.height, some p.fmt⟩ }
  else some s

/-- `prepare_img`, with the context that `sws_scale` gets. -/
def prepareImg (s : Scaler) (p : Picture) (ctx : Option ℕ) : Option (Scaler × List SwsContext) := do
  let s ← s.chkScale p ctx
  let sws ← (s.last p.tracing).sws
  let context ← s.contexts sws
  some (s, [context])

/-- What the destructor does with `sws_[index]`. -/
def freeLast (s : Scaler) (tracing : Bool) : Option Scaler :=
  match (s.last tracing).sws with
  | some ctx => s.swsFreeContext ctx
  | none => some s

/-- The destructor. -/
def destroy (s : Scaler) : Option Scaler := do
  let s ← s.freeLast false
  s.freeLast true

/-- A picture, with the context that is made if one is needed. -/
def step (s : Scaler) (i : Picture × Option ℕ) : Option (Scaler × List SwsContext) :=
  s.prepareImg i.1 i.2

/-! ## What is kept -/

/-- The context of a camera is alive, and made for the last picture. -/
structure Fits (s : Scaler) (tracing : Bool) (ctx : ℕ) : Prop where
  size : ∃ height fmt, (s.last tracing).height = some height ∧ (s.last tracing).fmt = some fmt ∧
    s.contexts ctx = some ⟨(s.last tracing).width, height, fmt, s.width tracing, s.height tracing⟩

/-- Each camera has its own context once it has had a picture, and there are no others. -/
structure Kept (s : Scaler) : Prop where
  fits : ∀ tracing ctx, (s.last tracing).sws = some ctx → Fits s tracing ctx
  unset : ∀ tracing, (s.last tracing).sws = none →
    (s.last tracing).width = -1 ∧ (s.last tracing).height = none
  apart : ∀ tracing ctx, (s.last tracing).sws = some ctx → (s.last !tracing).sws ≠ some ctx
  alive : ∀ ctx, (s.contexts ctx).isSome → ∃ tracing, (s.last tracing).sws = some ctx

variable {s t : Scaler} {p : Picture} {ctx : Option ℕ} {tracing : Bool}

theorem kept_create (getValue : CStr → Option CStr) : Kept (create getValue) where
  fits := fun _ _ h => by cases h
  unset := fun _ _ => ⟨rfl, rfl⟩
  apart := fun _ _ h => by cases h
  alive := fun _ h => by cases h

/-- The context of the camera has been freed. -/
def without (s : Scaler) (tracing : Bool) : Scaler :=
  { s with contexts := fun x => if (s.last tracing).sws = some x then none else s.contexts x }

theorem alive_of_kept (hkept : Kept s) {x : ℕ} (hx : (s.last tracing).sws = some x) :
    (s.contexts x).isSome := by
  obtain ⟨height, fmt, -, -, halive⟩ := (hkept.fits tracing x hx).size
  rw [halive]
  rfl

theorem freeLast_eq (halive : ∀ x, (s.last tracing).sws = some x → (s.contexts x).isSome) :
    s.freeLast tracing = some (s.without tracing) := by
  rw [freeLast]
  cases hsws : (s.last tracing).sws with
  | none =>
      have hsame : s.without tracing = s := by simp [without, hsws]
      rw [hsame]
  | some ctx =>
      have hupdate : (s.without tracing).contexts = Function.update s.contexts ctx none := by
        funext x
        by_cases hx : x = ctx
        · simp [without, hsws, hx]
        · have hne : ctx ≠ x := fun heq => hx heq.symm
          simp [without, hsws, hne, Function.update_of_ne hx]
      show s.swsFreeContext ctx = _
      rw [swsFreeContext, if_pos (halive ctx hsws), ← hupdate]
      rfl

theorem contexts_without_self {x : ℕ} (hx : (s.last tracing).sws = some x) :
    (s.without tracing).contexts x = none :=
  if_pos hx

theorem contexts_without_of_ne {x : ℕ} (hx : (s.last tracing).sws ≠ some x) :
    (s.without tracing).contexts x = s.contexts x :=
  if_neg hx

/-- What `chk_scale` does when it makes a new context. -/
def renew (s : Scaler) (p : Picture) (new : ℕ) : Scaler :=
  { s.without p.tracing with
    contexts := Function.update (s.without p.tracing).contexts new (some
      ⟨p.width, p.height, p.fmt, s.width p.tracing, s.height p.tracing⟩)
    last := Function.update s.last p.tracing ⟨some new, p.width, some p.height, some p.fmt⟩ }

theorem chkScale_of_changed (hkept : Kept s) (hchanged : changed (s.last p.tracing) p = some true) :
    s.chkScale p ctx = ctx.bind fun new =>
      if ((s.without p.tracing).contexts new).isSome then none else some (s.renew p new) := by
  have hfree : s.chkScale p ctx = (s.freeLast p.tracing).bind fun s => ctx.bind fun new =>
      if (s.contexts new).isSome then none
      else
        some { s with
          contexts := Function.update s.contexts new (some
            ⟨p.width, p.height, p.fmt, s.width p.tracing, s.height p.tracing⟩)
          last := Function.update s.last p.tracing
            ⟨some new, p.width, some p.height, some p.fmt⟩ } := by
    rw [chkScale, hchanged, freeLast]
    cases (s.last p.tracing).sws with
    | none => rfl
    | some old => rfl
  rw [hfree, freeLast_eq fun _ => alive_of_kept hkept]
  rfl

theorem chkScale_of_same (hchanged : changed (s.last p.tracing) p = some false) :
    s.chkScale p ctx = some s := by
  rw [chkScale, hchanged]
  rfl

theorem chkScale_cases (hkept : Kept s) (h : s.chkScale p ctx = some t) :
    (changed (s.last p.tracing) p = some false ∧ t = s) ∨
      ∃ new, ctx = some new ∧ (s.without p.tracing).contexts new = none ∧ t = s.renew p new := by
  cases hchanged : changed (s.last p.tracing) p with
  | none =>
      rw [chkScale, hchanged] at h
      cases h
  | some changed =>
      cases changed with
      | false =>
          rw [chkScale_of_same hchanged] at h
          cases h
          exact .inl ⟨rfl, rfl⟩
      | true =>
          rw [chkScale_of_changed hkept hchanged] at h
          obtain ⟨new, rfl, h⟩ := Option.bind_eq_some_iff.mp h
          dsimp only [Option.bind_some] at h
          split_ifs at h with halive
          cases h
          exact .inr ⟨new, rfl, Option.not_isSome_iff_eq_none.mp halive, rfl⟩

/-- The size has been compared with what was set before. -/
theorem changed_iff_false {last : LastPicture} :
    changed last p = some false ↔
      p.width = last.width ∧ last.height = some p.height ∧ last.fmt = some p.fmt := by
  constructor
  · intro h
    by_cases hwidth : p.width = last.width
    · rw [changed, if_neg (not_not.mpr hwidth)] at h
      obtain ⟨height, hheight, h⟩ := Option.bind_eq_some_iff.mp h
      by_cases hsame : p.height = height
      · rw [if_neg (not_not.mpr hsame)] at h
        obtain ⟨fmt, hfmt, h⟩ := Option.bind_eq_some_iff.mp h
        have hfmt' : p.fmt = fmt := by simpa using h
        exact ⟨hwidth, hsame ▸ hheight, hfmt' ▸ hfmt⟩
      · rw [if_pos hsame] at h
        cases h
    · rw [changed, if_pos hwidth] at h
      cases h
  · rintro ⟨hwidth, hheight, hfmt⟩
    simp [changed, hwidth, hheight, hfmt]

theorem renew_last_self (new : ℕ) :
    (s.renew p new).last p.tracing = ⟨some new, p.width, some p.height, some p.fmt⟩ :=
  Function.update_self _ _ _

theorem renew_last_other (new : ℕ) :
    (s.renew p new).last (!p.tracing) = s.last (!p.tracing) :=
  Function.update_of_ne (Bool.not_ne_self _) _ _

theorem renew_contexts_self (new : ℕ) :
    (s.renew p new).contexts new =
      some ⟨p.width, p.height, p.fmt, s.width p.tracing, s.height p.tracing⟩ :=
  Function.update_self _ _ _

theorem renew_contexts_of_ne {new x : ℕ} (hne : x ≠ new) :
    (s.renew p new).contexts x = (s.without p.tracing).contexts x :=
  Function.update_of_ne hne _ _

/-- The context of the other camera is not the new one, and stays. -/
theorem other_of_renew (hkept : Kept s) {new x : ℕ}
    (hnew : (s.without p.tracing).contexts new = none) (hx : (s.last !p.tracing).sws = some x) :
    x ≠ new ∧ (s.renew p new).contexts x = s.contexts x := by
  obtain ⟨height, fmt, -, -, halive⟩ := (hkept.fits (!p.tracing) x hx).size
  have hstays : (s.without p.tracing).contexts x = s.contexts x :=
    contexts_without_of_ne fun hsws => hkept.apart _ x hsws hx
  have hne : x ≠ new := by
    rintro rfl
    rw [hnew, halive] at hstays
    cases hstays
  exact ⟨hne, (renew_contexts_of_ne hne).trans hstays⟩

theorem kept_renew (hkept : Kept s) {new : ℕ} (hnew : (s.without p.tracing).contexts new = none) :
    Kept (s.renew p new) where
  fits := by
    intro tracing x hx
    rcases Bool.eq_or_eq_not tracing p.tracing with rfl | rfl
    · rw [renew_last_self] at hx
      cases hx
      refine ⟨p.height, p.fmt, ?_, ?_, ?_⟩
      · rw [renew_last_self]
      · rw [renew_last_self]
      · rw [renew_last_self, renew_contexts_self]
        rfl
    · rw [renew_last_other] at hx
      obtain ⟨height, fmt, hheight, hfmt, halive⟩ := (hkept.fits _ x hx).size
      obtain ⟨-, hstays⟩ := other_of_renew hkept hnew hx
      refine ⟨height, fmt, ?_, ?_, ?_⟩
      · rwa [renew_last_other]
      · rwa [renew_last_other]
      · rw [renew_last_other, hstays, halive]
        rfl
  unset := by
    intro tracing h
    rcases Bool.eq_or_eq_not tracing p.tracing with rfl | rfl
    · rw [renew_last_self] at h
      cases h
    · rw [renew_last_other] at h ⊢
      exact hkept.unset _ h
  apart := by
    intro tracing x hx
    rcases Bool.eq_or_eq_not tracing p.tracing with rfl | rfl
    · rw [renew_last_self] at hx
      cases hx
      rw [renew_last_other]
      exact fun h => (other_of_renew hkept hnew h).1 rfl
    · rw [renew_last_other] at hx
      rw [Bool.not_not, renew_last_self]
      intro h
      cases h
      exact (other_of_renew hkept hnew hx).1 rfl
  alive := by
    intro x hx
    by_cases hne : x = new
    · subst hne
      exact ⟨p.tracing, by rw [renew_last_self]⟩
    · rw [renew_contexts_of_ne hne] at hx
      have hold : (s.last p.tracing).sws ≠ some x := by
        intro h
        rw [contexts_without_self h] at hx
        cases hx
      rw [contexts_without_of_ne hold] at hx
      obtain ⟨tracing, h⟩ := hkept.alive x hx
      rcases Bool.eq_or_eq_not tracing p.tracing with rfl | rfl
      · exact absurd h hold
      · refine ⟨!p.tracing, ?_⟩
        rwa [renew_last_other]

/-! ## One picture -/

theorem kept_chkScale (hkept : Kept s) (h : s.chkScale p ctx = some t) : Kept t := by
  rcases chkScale_cases hkept h with ⟨-, rfl⟩ | ⟨new, -, hnew, rfl⟩
  · exact hkept
  · exact kept_renew hkept hnew

/-- Whatever was there before, the context of the camera is for this picture. -/
theorem current_chkScale (hkept : Kept s) (h : s.chkScale p ctx = some t) :
    ∃ x, (t.last p.tracing).sws = some x ∧
      t.contexts x = some ⟨p.width, p.height, p.fmt, s.width p.tracing, s.height p.tracing⟩ := by
  rcases chkScale_cases hkept h with ⟨hsame, rfl⟩ | ⟨new, -, hnew, rfl⟩
  · obtain ⟨hwidth, hheight, hfmt⟩ := changed_iff_false.mp hsame
    cases hsws : (t.last p.tracing).sws with
    | none =>
        -- the test has read a height, so there has been a picture
        rw [(hkept.unset _ hsws).2] at hheight
        cases hheight
    | some x =>
        obtain ⟨height, fmt, hheight', hfmt', halive⟩ := (hkept.fits _ x hsws).size
        rw [hheight] at hheight'
        rw [hfmt] at hfmt'
        cases hheight'
        cases hfmt'
        exact ⟨x, rfl, hwidth ▸ halive⟩
  · exact ⟨new, by rw [renew_last_self], renew_contexts_self new⟩

theorem dst_chkScale (hkept : Kept s) (h : s.chkScale p ctx = some t) :
    t.width = s.width ∧ t.height = s.height := by
  rcases chkScale_cases hkept h with ⟨-, rfl⟩ | ⟨new, -, -, rfl⟩
  · exact ⟨rfl, rfl⟩
  · exact ⟨rfl, rfl⟩

/-- The size of the last picture has been set when its width is read as the same. -/
theorem changed_isSome (hkept : Kept s) (hp : p.width ≠ -1) :
    ∃ b, changed (s.last p.tracing) p = some b := by
  by_cases hwidth : p.width = (s.last p.tracing).width
  · cases hsws : (s.last p.tracing).sws with
    | none => exact absurd (hwidth.trans (hkept.unset _ hsws).1) hp
    | some x =>
        obtain ⟨height, fmt, hheight, hfmt, -⟩ := (hkept.fits _ x hsws).size
        by_cases hsame : p.height = height
        · exact ⟨decide (p.fmt ≠ fmt), by simp [changed, hwidth, hheight, hfmt, hsame]⟩
        · exact ⟨true, by simp [changed, hwidth, hheight, hsame]⟩
  · exact ⟨true, if_pos hwidth⟩

theorem chkScale_isSome (hkept : Kept s) (hp : p.width ≠ -1) {new : ℕ}
    (hnew : s.contexts new = none) : ∃ t, s.chkScale p (some new) = some t := by
  obtain ⟨changed, hchanged⟩ := changed_isSome hkept hp
  cases changed with
  | false => exact ⟨s, chkScale_of_same hchanged⟩
  | true =>
      have hfree : (s.without p.tracing).contexts new = none := by
        by_cases hsws : (s.last p.tracing).sws = some new
        · exact contexts_without_self hsws
        · exact (contexts_without_of_ne hsws).trans hnew
      refine ⟨s.renew p new, ?_⟩
      rw [chkScale_of_changed hkept hchanged, Option.bind_some, hfree]
      rfl

theorem step_of_chkScale (hkept : Kept s) (h : s.chkScale p ctx = some t) :
    s.step (p, ctx) =
      some (t, [⟨p.width, p.height, p.fmt, s.width p.tracing, s.height p.tracing⟩]) := by
  obtain ⟨x, hsws, halive⟩ := current_chkScale hkept h
  rw [step, prepareImg, h]
  show ((t.last p.tracing).sws.bind fun sws => (t.contexts sws).bind fun context =>
    some (t, [context])) = _
  rw [hsws, Option.bind_some, halive]
  rfl

theorem step_cases (hkept : Kept s) {contexts : List SwsContext}
    (h : s.step (p, ctx) = some (t, contexts)) :
    Kept t ∧ t.width = s.width ∧ t.height = s.height ∧
      contexts = [⟨p.width, p.height, p.fmt, s.width p.tracing, s.height p.tracing⟩] := by
  obtain ⟨u, hu, -⟩ := Option.bind_eq_some_iff.mp h
  rw [step_of_chkScale hkept hu] at h
  cases h
  exact ⟨kept_chkScale hkept hu, (dst_chkScale hkept hu).1, (dst_chkScale hkept hu).2, rfl⟩

/-! ## All pictures -/

theorem destroy_eq (hkept : Kept s) :
    ∃ t, s.destroy = some t ∧ ∀ ctx, t.contexts ctx = none := by
  -- the other context is a different one, so it is still alive
  have hother : ∀ x, (s.last true).sws = some x → ((s.without false).contexts x).isSome := by
    intro x hx
    rw [contexts_without_of_ne fun hsws => hkept.apart false x hsws hx]
    exact alive_of_kept hkept hx
  refine ⟨(s.without false).without true, ?_, fun x => ?_⟩
  · rw [destroy, freeLast_eq fun _ => alive_of_kept hkept]
    exact freeLast_eq hother
  · by_cases htrue : (s.last true).sws = some x
    · exact contexts_without_self htrue
    · refine (contexts_without_of_ne (s := s.without false) htrue).trans ?_
      by_cases hfalse : (s.last false).sws = some x
      · exact contexts_without_self hfalse
      · rw [contexts_without_of_ne hfalse]
        by_contra halive
        obtain ⟨tracing, hx⟩ := hkept.alive x (Option.ne_none_iff_isSome.mp halive)
        cases tracing with
        | false => exact hfalse hx
        | true => exact htrue hx

/-- Each camera has a context that fits, for the sizes of the constructor. -/
def KeptFrom (getValue : CStr → Option CStr) (s : Scaler) : Prop :=
  Kept s ∧ s.width = (create getValue).width ∧ s.height = (create getValue).height

theorem keptFrom_run {getValue : CStr → Option CStr}
    {events : List (EventRuns.Event Scaler (Picture × Option ℕ) SwsContext)}
    (hrun : Run step (create getValue) events s) : KeptFrom getValue s := by
  refine hrun.invariant ⟨kept_create getValue, rfl, rfl⟩ ?_
  rintro s ⟨p, ctx⟩ t contexts ⟨hkept, hwidth, hheight⟩ h
  obtain ⟨hkept', hwidth', hheight', -⟩ := step_cases hkept h
  exact ⟨hkept', hwidth'.trans hwidth, hheight'.trans hheight⟩

/-- Every picture is scaled with a context for its own size and format, whatever came
before it for either camera; only a width of `-1` or a failing `sws_getContext` stops the
scaling; and the destructor frees every context that was made, none of them twice. -/
theorem scaled {getValue : CStr → Option CStr}
    {events : List (EventRuns.Event Scaler (Picture × Option ℕ) SwsContext)}
    (hrun : Run step (create getValue) events s) :
    (∀ e ∈ events, e.outputs = [⟨e.input.1.width, e.input.1.height, e.input.1.fmt,
      intValue getValue "video_width" "960", intValue getValue "video_height" "540"⟩]) ∧
    (∀ p new, p.width ≠ -1 → s.contexts new = none → ∃ x, s.step (p, some new) = some x) ∧
    ∃ t, s.destroy = some t ∧ ∀ ctx, t.contexts ctx = none := by
  obtain ⟨hkept, -, -⟩ := keptFrom_run hrun
  refine ⟨fun e he => ?_, fun p new hp hnew => ?_, destroy_eq hkept⟩
  · obtain ⟨later, earlier, -, hbefore, hstep⟩ := hrun.of_mem he
    obtain ⟨hkept', hwidth, hheight⟩ := keptFrom_run hbefore
    obtain ⟨-, -, -, houtputs⟩ := step_cases hkept' hstep
    rw [houtputs, hwidth, hheight]
    rfl
  · obtain ⟨t, ht⟩ := chkScale_isSome hkept hp hnew
    exact ⟨_, step_of_chkScale hkept ht⟩

/-- The picture of the tracing camera, twice, and the other one in two sizes; the second
context is made in the place of the first. -/
def sizeChanges : List (Picture × Option ℕ) :=
  [(⟨true, 720, 576, 0⟩, some 1), (⟨false, 1920, 1080, 0⟩, some 2), (⟨true, 720, 576, 0⟩, none),
    (⟨false, 720, 576, 0⟩, some 2)]

theorem sizeChanges_played : (play step [] (create fun _ => none) sizeChanges).isSome := by
  decide +kernel

theorem scaled_sizeChanges :
    let s := ((play step [] (create fun _ => none) sizeChanges).get sizeChanges_played).2
    s.contexts 2 = some ⟨720, 576, 0, 960, 540⟩ ∧
      ∃ t, s.destroy = some t ∧ ∀ ctx, t.contexts ctx = none :=
  ⟨by decide +kernel, (scaled (run_of_isSome sizeChanges_played)).2.2⟩

end Scaler

end LibSimple.Teacher
