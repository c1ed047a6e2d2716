import LibSimple.Teacher.Analyze

/-!
# A walk and its mirror image

Whether `state_fullview` judges a walk to the left as it judges the same walk to the
right.  It compares the horizontal displacement with two thirds of the range, but not its
absolute value, so a walk that goes far enough is taken for a stable one in one direction
only.
-/

namespace LibSimple.Teacher

open CLang

/-- The mirror image of a point in a picture of width `w`. -/
def mirrorPoint (w : CInt) (pt : CvPoint) : CvPoint :=
  if isValidPoint pt then { pt with x := toCInt (w.val - 1 - pt.x.val) } else pt

/-- The mirror image of a window. -/
def mirror (w : CInt) (data : List CvPoint) : List CvPoint := data.map (mirrorPoint w)

/-- Every valid point is in the picture. -/
def InPicture (w : CInt) (data : List CvPoint) : Prop :=
  ∀ pt ∈ validPoints data, 0 ≤ xOf pt ∧ xOf pt < w.val

instance (w : CInt) (data : List CvPoint) : Decidable (InPicture w data) :=
  inferInstanceAs (Decidable (∀ pt ∈ validPoints data, _ ∧ _))

/-! ## The extent of a window -/

section Extent

variable {f g : CvPoint → ℤ} {pts : List CvPoint}

theorem lowest_map (f : CvPoint → ℤ) (m : CvPoint → CvPoint) (pts : List CvPoint) :
    lowest f (pts.map m) = lowest (fun pt => f (m pt)) pts := by
  cases pts with
  | nil => rfl
  | cons first pts =>
      rw [List.map_cons, lowest, lowest, List.foldl_map]

theorem highest_map (f : CvPoint → ℤ) (m : CvPoint → CvPoint) (pts : List CvPoint) :
    highest f (pts.map m) = highest (fun pt => f (m pt)) pts := by
  cases pts with
  | nil => rfl
  | cons first pts =>
      rw [List.map_cons, highest, highest, List.foldl_map]

theorem moved_map (f : CvPoint → ℤ) (m : CvPoint → CvPoint) (pts : List CvPoint) :
    moved f (pts.map m) = moved (fun pt => f (m pt)) pts := by
  cases pts with
  | nil => rfl
  | cons first pts =>
      have hlast : (pts.map m).getLastD (m first) = m (pts.getLastD first) := by
        rw [List.getLastD_eq_getLast?, List.getLastD_eq_getLast?, List.getLast?_map,
          Option.getD_map]
      rw [List.map_cons, moved, moved, hlast]

/-- A coordinate that is turned round has its smallest value where the largest was. -/
theorem lowest_of_eq_sub {c : ℤ} (hg : ∀ pt ∈ pts, g pt = c - f pt) (hne : pts ≠ []) :
    lowest g pts = c - highest f pts := by
  cases pts with
  | nil => exact absurd rfl hne
  | cons first pts =>
      rw [List.forall_mem_cons] at hg
      obtain ⟨hfirst, hrest⟩ := hg
      have hfold : ∀ a : ℤ, pts.foldl (fun l pt => min (g pt) l) (c - a) =
          c - pts.foldl (fun r pt => max (f pt) r) a := by
        clear hne
        induction pts with
        | nil => exact fun a => rfl
        | cons pt pts ih =>
            intro a
            rw [List.forall_mem_cons] at hrest
            have hmin : min (c - f pt) (c - a) = c - max (f pt) a := by omega
            rw [List.foldl_cons, List.foldl_cons, hrest.1, hmin, ih hrest.2]
      rw [lowest, highest, hfirst]
      exact hfold (f first)

theorem moved_of_eq_sub {c : ℤ} (hg : ∀ pt ∈ pts, g pt = c - f pt) :
    moved g pts = -moved f pts := by
  cases pts with
  | nil => rfl
  | cons first pts =>
      have hmem : pts.getLastD first ∈ first :: pts := List.getLastD_mem_cons
      rw [moved, moved, hg _ hmem, hg first List.mem_cons_self]
      omega

/-- The extremes of coordinates that lie in a range lie there too. -/
theorem extremes_mem {a b : ℤ} (hf : ∀ pt ∈ pts, a ≤ f pt ∧ f pt < b) (hne : pts ≠ []) :
    a ≤ lowest f pts ∧ lowest f pts ≤ highest f pts ∧ highest f pts < b := by
  cases pts with
  | nil => exact absurd rfl hne
  | cons first pts =>
      rw [List.forall_mem_cons] at hf
      obtain ⟨hfirst, hrest⟩ := hf
      have hfold : ∀ l r : ℤ, a ≤ l → l ≤ r → r < b →
          a ≤ pts.foldl (fun l pt => min (f pt) l) l ∧
            pts.foldl (fun l pt => min (f pt) l) l ≤ pts.foldl (fun r pt => max (f pt) r) r ∧
            pts.foldl (fun r pt => max (f pt) r) r < b := by
        clear hne
        induction pts with
        | nil => exact fun l r ha hlr hb => ⟨ha, hlr, hb⟩
        | cons pt pts ih =>
            intro l r ha hlr hb
            rw [List.forall_mem_cons] at hrest
            exact ih hrest.2 (min (f pt) l) (max (f pt) r) (by omega) (by omega) (by omega)
      exact hfold _ _ hfirst.1 (le_refl _) hfirst.2

theorem moved_mem {a b : ℤ} (hf : ∀ pt ∈ pts, a ≤ f pt ∧ f pt < b) (hne : pts ≠ []) :
    a - b < moved f pts ∧ moved f pts < b - a := by
  cases pts with
  | nil => exact absurd rfl hne
  | cons first pts =>
      have hfirst := hf first List.mem_cons_self
      have hlast := hf (pts.getLastD first) List.getLastD_mem_cons
      rw [moved]
      omega

end Extent

/-! ## The mirror image -/

variable {w : CInt} {data : List CvPoint}

theorem xOf_mirrorPoint {pt : CvPoint} (hpt : isValidPoint pt = true)
    (hin : 0 ≤ xOf pt ∧ xOf pt < w.val) : xOf (mirrorPoint w pt) = w.val - 1 - xOf pt := by
  have hw := w.2.2
  rw [mirrorPoint, if_pos hpt]
  show wrapInt (w.val - 1 - xOf pt) = _
  rw [wrapInt_of_fits (by omega) (by omega)]

theorem yOf_mirrorPoint (pt : CvPoint) : yOf (mirrorPoint w pt) = yOf pt := by
  rw [mirrorPoint]
  split_ifs
  · rfl
  · rfl

theorem InPicture.mem {pt : CvPoint} (h : InPicture w data) (hpt : pt ∈ data)
    (hvalid : isValidPoint pt = true) : 0 ≤ xOf pt ∧ xOf pt < w.val :=
  h pt (List.mem_filter.mpr ⟨hpt, hvalid⟩)

/-- The mirror image has its valid points where the window has them. -/
theorem validPoints_mirror (h : InPicture w data) :
    validPoints (mirror w data) = (validPoints data).map (mirrorPoint w) := by
  rw [validPoints, mirror, List.filter_map, validPoints]
  congr 1
  refine List.filter_congr fun pt hpt => ?_
  by_cases hvalid : isValidPoint pt = true
  · have hin := h.mem hpt hvalid
    have hx := xOf_mirrorPoint hvalid hin
    have himage : isValidPoint (mirrorPoint w pt) = true := by
      rw [isValidPoint_iff, hx]
      omega
    rw [Function.comp_apply, himage, hvalid]
  · rw [Function.comp_apply, mirrorPoint, if_neg hvalid]

/-- The mirror image moves the other way, and is as wide and as high as the window. -/
theorem mirror_extent (h : InPicture w data) (hne : validPoints data ≠ []) :
    moved xOf (validPoints (mirror w data)) = -moved xOf (validPoints data) ∧
      moved yOf (validPoints (mirror w data)) = moved yOf (validPoints data) ∧
      highest xOf (validPoints (mirror w data)) - lowest xOf (validPoints (mirror w data)) =
        highest xOf (validPoints data) - lowest xOf (validPoints data) ∧
      highest yOf (validPoints (mirror w data)) = highest yOf (validPoints data) ∧
      lowest yOf (validPoints (mirror w data)) = lowest yOf (validPoints data) := by
  have hx : ∀ pt ∈ validPoints data, xOf (mirrorPoint w pt) = w.val - 1 - xOf pt := fun pt hpt =>
    xOf_mirrorPoint (List.mem_filter.mp hpt).2 (h pt hpt)
  have hturned : ∀ pt ∈ validPoints data, xOf pt = w.val - 1 - xOf (mirrorPoint w pt) := by
    intro pt hpt
    have heq := hx pt hpt
    omega
  have hlow := lowest_of_eq_sub hx hne
  have hhigh := lowest_of_eq_sub hturned hne
  rw [validPoints_mirror h]
  simp only [moved_map, lowest_map, highest_map, yOf_mirrorPoint, and_true, true_and]
  exact ⟨moved_of_eq_sub hx, by omega⟩

/-! ## The judgement -/

/-- What `state_fullview` asks for apart from the horizontal displacement. -/
structure OtherwiseStable (settings : Settings) (info : TracingInfo) (pts : List CvPoint) :
    Prop where
  result : info.result = .ok
  duration : settings.analyzeInterval ≤ info.validDuration
  width : info.rcTraceWidth < settings.stableWidth
  height : info.rcTraceHeight < settings.stableHeight
  vertical : wrapInt (moved yOf pts) ≤ subInt (highest yOf pts) (lowest yOf pts)

/-- Two thirds of the width of the range, as `int`s have it. -/
def twoThirds (pts : List CvPoint) : ℤ :=
  (wrapInt ((highest xOf pts - lowest xOf pts) * 2)).tdiv 3

theorem stateFullview_eq_toClose_iff (settings : Settings) (info : TracingInfo)
    (hin : InPicture w data) (htwo : 2 ≤ (validPoints data).length) :
    stateFullview settings info data = .toClose ↔
      OtherwiseStable settings info (validPoints data) ∧
        moved xOf (validPoints data) < twoThirds (validPoints data) := by
  have hw := w.2.2
  have hne : validPoints data ≠ [] := List.ne_nil_of_length_pos (by omega)
  obtain ⟨hlo, hle, hhi⟩ := extremes_mem hin hne
  obtain ⟨hmlo, hmhi⟩ := moved_mem hin hne
  have hmoved : wrapInt (moved xOf (validPoints data)) = moved xOf (validPoints data) :=
    wrapInt_of_fits (by omega) (by omega)
  have hwidth : subInt (highest xOf (validPoints data)) (lowest xOf (validPoints data)) =
      highest xOf (validPoints data) - lowest xOf (validPoints data) :=
    wrapInt_of_fits (by omega) (by omega)
  rw [stateFullview, dataRange_eq htwo, dataVec_eq]
  dsimp only
  rw [hmoved, hwidth, mulInt, ← twoThirds]
  constructor
  · intro hclose
    split_ifs at hclose with hresult htest
    exact ⟨⟨hresult, htest.1, htest.2.1, htest.2.2.1, htest.2.2.2.2⟩, htest.2.2.2.1⟩
  · rintro ⟨hstable, hwalk⟩
    rw [if_pos hstable.result, if_pos]
    exact ⟨hstable.duration, hstable.width, hstable.height, hwalk, hstable.vertical⟩

/-- A walk and its mirror image are judged alike exactly when the window does not look
stable otherwise, or the walk is shorter than two thirds of the range, whichever way it
goes, or it is not shorter either way. -/
theorem judged_alike_iff {w : CInt} {data : List CvPoint} (settings : Settings)
    (info : TracingInfo) (hin : InPicture w data) (htwo : 2 ≤ (validPoints data).length) :
    (stateFullview settings info data = .toClose ↔
        stateFullview settings info (mirror w data) = .toClose) ↔
      (OtherwiseStable settings info (validPoints data) →
        |moved xOf (validPoints data)| < twoThirds (validPoints data) ∨
          twoThirds (validPoints data) ≤ -|moved xOf (validPoints data)|) := by
  have hne : validPoints data ≠ [] := List.ne_nil_of_length_pos (by omega)
  obtain ⟨hmovedX, hmovedY, hwidth, hhighY, hlowY⟩ := mirror_extent hin hne
  have hthirds : twoThirds (validPoints (mirror w data)) = twoThirds (validPoints data) := by
    rw [twoThirds, hwidth, twoThirds]
  have hstable : OtherwiseStable settings info (validPoints (mirror w data)) ↔
      OtherwiseStable settings info (validPoints data) := by
    constructor
    · rintro ⟨hresult, hduration, hwidth, hheight, hvertical⟩
      rw [hmovedY, hhighY, hlowY] at hvertical
      exact ⟨hresult, hduration, hwidth, hheight, hvertical⟩
    · rintro ⟨hresult, hduration, hwidth, hheight, hvertical⟩
      rw [← hmovedY, ← hhighY, ← hlowY] at hvertical
      exact ⟨hresult, hduration, hwidth, hheight, hvertical⟩
  have hinMirror : InPicture w (mirror w data) := by
    intro pt hpt
    rw [validPoints_mirror hin, List.mem_map] at hpt
    obtain ⟨pt', hpt', rfl⟩ := hpt
    have hrange := hin pt' hpt'
    rw [xOf_mirrorPoint (List.mem_filter.mp hpt').2 hrange]
    omega
  have htwoMirror : 2 ≤ (validPoints (mirror w data)).length := by
    rwa [validPoints_mirror hin, List.length_map]
  rw [stateFullview_eq_toClose_iff settings info hin htwo,
    stateFullview_eq_toClose_iff settings info hinMirror htwoMirror, hstable, hmovedX, hthirds,
    and_congr_right_iff]
  refine imp_congr_right fun _ => ?_
  rcases abs_cases (moved xOf (validPoints data)) with ⟨habs, hsign⟩ | ⟨habs, hsign⟩
  · rw [habs]
    omega
  · rw [habs]
    omega

/-- Two points far apart, in the order of a walk to the right. -/
def walkRight : List CvPoint := [⟨toCInt 0, toCInt 50⟩, ⟨toCInt 100, toCInt 50⟩]

/-- Everything but the walk asks for the close view. -/
def steadyInfo : TracingInfo := ⟨.ok, 5, 300, 200⟩

def someSettings : Settings := ⟨3, 660, 340⟩

theorem judged_alike_iff_walkRight :
    (stateFullview someSettings steadyInfo walkRight = .toClose ↔
        stateFullview someSettings steadyInfo (mirror (toCInt 960) walkRight) = .toClose) ↔
      (OtherwiseStable someSettings steadyInfo (validPoints walkRight) →
        |moved xOf (validPoints walkRight)| < twoThirds (validPoints walkRight) ∨
          twoThirds (validPoints walkRight) ≤ -|moved xOf (validPoints walkRight)|) :=
  judged_alike_iff someSettings steadyInfo (by decide +kernel) (by decide +kernel)

/-- To the right the walk is too long for the close view, to the left it is not. -/
theorem not_judged_alike :
    ¬ ∀ (w : CInt) (data : List CvPoint) (settings : Settings) (info : TracingInfo),
      InPicture w data → 2 ≤ (validPoints data).length →
      (stateFullview settings info data = .toClose ↔
        stateFullview settings info (mirror w data) = .toClose) := by
  intro h
  have halike := h (toCInt 960) walkRight someSettings steadyInfo (by decide +kernel)
    (by decide +kernel)
  revert halike
  decide +kernel

end LibSimple.Teacher
