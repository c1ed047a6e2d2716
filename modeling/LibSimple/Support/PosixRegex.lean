import LibSimple.Support.CLang
import Mathlib.Data.List.Lex
import Mathlib.Data.List.TakeWhile

/-!
# Regular expressions with POSIX preference

Extended regular expressions without alternatives, whose repetitions are of
single characters.  A match consumes the front of a text and records, for every
group in the order of its opening parenthesis, where it starts and ends.  Among
all matches POSIX prefers the longest, and among these the one whose groups,
from the first on, take part and are long.

The module gives the rules by which the preferred match of an expression is put
together from its parts, and a matcher that finds it.
-/

namespace PosixRegex

open CLang

/-- What one character may be. -/
inductive CharSet
  | lit (c : UInt8)
  | any
  | noneOf (cs : List UInt8)
  | range (lo hi : UInt8)
  deriving DecidableEq

def CharSet.accepts : CharSet → UInt8 → Bool
  | .lit c, x => x == c
  | .any, _ => true
  | .noneOf cs, x => !cs.contains x
  | .range lo hi, x => lo ≤ x && x ≤ hi

inductive Regex
  | one (c : CharSet)
  | star (c : CharSet)
  | plus (c : CharSet)
  | seq (r q : Regex)
  | group (r : Regex)
  | optGroup (r : Regex)
  deriving DecidableEq

/-- The characters that stand for themselves only after a backslash. -/
def specials : List UInt8 := [46, 91, 92, 40, 41, 42, 43, 63, 123, 125, 124, 94, 36]

/-- How a set is written. -/
def CharSet.text : CharSet → List UInt8
  | .lit c => if specials.contains c then [92, c] else [c]
  | .any => [46]
  | .noneOf cs => [91, 94] ++ cs ++ [93]
  | .range lo hi => [91, lo, 45, hi, 93]

/-- How an expression is written. -/
def Regex.text : Regex → List UInt8
  | .one c => c.text
  | .star c => c.text ++ [42]
  | .plus c => c.text ++ [43]
  | .seq r q => r.text ++ q.text
  | .group r => [40] ++ r.text ++ [41]
  | .optGroup r => [40] ++ r.text ++ [41, 63]

/-- The text before a group and the text after it; `none` for a group that takes
no part. -/
abbrev Capture := Option (List UInt8 × List UInt8)

namespace Regex

/-- The number of groups. -/
def groups : Regex → ℕ
  | .one _ | .star _ | .plus _ => 0
  | .seq r q => r.groups + q.groups
  | .group r | .optGroup r => r.groups + 1

/-- The expression matches the front of `s` and leaves `t`. -/
def Matches : Regex → List UInt8 → List Capture → List UInt8 → Prop
  | .one c, s, g, t => g = [] ∧ ∃ x, c.accepts x = true ∧ s = x :: t
  | .star c, s, g, t => g = [] ∧ ∃ w, (∀ x ∈ w, c.accepts x = true) ∧ s = w ++ t
  | .plus c, s, g, t => g = [] ∧ ∃ w, w ≠ [] ∧ (∀ x ∈ w, c.accepts x = true) ∧ s = w ++ t
  | .seq r q, s, g, t => ∃ g₁ m g₂, g = g₁ ++ g₂ ∧ r.Matches s g₁ m ∧ q.Matches m g₂ t
  | .group r, s, g, t => ∃ g', g = some (s, t) :: g' ∧ r.Matches s g' t
  | .optGroup r, s, g, t =>
      (∃ g', g = some (s, t) :: g' ∧ r.Matches s g' t) ∨
        (g = List.replicate (r.groups + 1) none ∧ t = s)

theorem Matches.suffix {r : Regex} {s t : List UInt8} {g : List Capture}
    (h : r.Matches s g t) : t <:+ s := by
  induction r generalizing s g t with
  | one c =>
      obtain ⟨-, x, -, rfl⟩ := h
      exact List.suffix_cons x t
  | star c =>
      obtain ⟨-, w, -, rfl⟩ := h
      exact List.suffix_append w t
  | plus c =>
      obtain ⟨-, w, -, -, rfl⟩ := h
      exact List.suffix_append w t
  | seq r q ihr ihq =>
      obtain ⟨g₁, m, g₂, -, hr, hq⟩ := h
      exact (ihq hq).trans (ihr hr)
  | group r ih =>
      obtain ⟨g', -, hr⟩ := h
      exact ih hr
  | optGroup r ih =>
      rcases h with ⟨g', -, hr⟩ | ⟨-, rfl⟩
      · exact ih hr
      · exact List.suffix_refl t

theorem Matches.length_le {r : Regex} {s t : List UInt8} {g : List Capture}
    (h : r.Matches s g t) : t.length ≤ s.length :=
  h.suffix.length_le

/-- A group is a stretch of the text. -/
theorem Matches.suffix_of_mem {r : Regex} {s t : List UInt8} {g : List Capture}
    (h : r.Matches s g t) {a b : List UInt8} (hmem : some (a, b) ∈ g) : a <:+ s ∧ b <:+ a := by
  induction r generalizing s g t with
  | one c | star c | plus c =>
      obtain ⟨rfl, -⟩ := h
      exact absurd hmem List.not_mem_nil
  | seq r q ihr ihq =>
      obtain ⟨g₁, m, g₂, rfl, hr, hq⟩ := h
      rcases List.mem_append.mp hmem with hmem | hmem
      · exact ihr hr hmem
      · exact (ihq hq hmem).imp_left fun ha => ha.trans hr.suffix
  | group r ih =>
      obtain ⟨g', rfl, hr⟩ := h
      rcases List.mem_cons.mp hmem with heq | hmem
      · cases heq
        exact ⟨List.suffix_rfl, hr.suffix⟩
      · exact ih hr hmem
  | optGroup r ih =>
      rcases h with ⟨g', rfl, hr⟩ | ⟨rfl, -⟩
      · rcases List.mem_cons.mp hmem with heq | hmem
        · cases heq
          exact ⟨List.suffix_rfl, hr.suffix⟩
        · exact ih hr hmem
      · exact absurd (List.eq_of_mem_replicate hmem) (Option.some_ne_none _)

theorem Matches.length_groups {r : Regex} {s t : List UInt8} {g : List Capture}
    (h : r.Matches s g t) : g.length = r.groups := by
  induction r generalizing s g t with
  | one c =>
      obtain ⟨rfl, -⟩ := h
      rfl
  | star c =>
      obtain ⟨rfl, -⟩ := h
      rfl
  | plus c =>
      obtain ⟨rfl, -⟩ := h
      rfl
  | seq r q ihr ihq =>
      obtain ⟨g₁, m, g₂, rfl, hr, hq⟩ := h
      rw [List.length_append, ihr hr, ihq hq]
      rfl
  | group r ih =>
      obtain ⟨g', rfl, hr⟩ := h
      rw [List.length_cons, ih hr]
      rfl
  | optGroup r ih =>
      rcases h with ⟨g', rfl, hr⟩ | ⟨rfl, -⟩
      · rw [List.length_cons, ih hr]
        rfl
      · rw [List.length_replicate]
        rfl

end Regex

/-! ## Preference -/

/-- Smaller at the first place where two keys differ. -/
abbrev Below (k k' : List ℕ) : Prop := List.Lex (· < ·) k k'

/-- How a group counts: not at all, or by its length. -/
def captureKey : Capture → ℕ
  | none => 0
  | some (s, t) => s.length - t.length + 1

def groupsKey (g : List Capture) : List ℕ := g.map captureKey

/-- The length of a match, and then its groups from the first on. -/
def matchKey (s : List UInt8) (g : List Capture) (t : List UInt8) : List ℕ :=
  (s.length - t.length) :: groupsKey g

/-- A match that no other one beats. -/
structure Best (r : Regex) (s : List UInt8) (g : List Capture) (t : List UInt8) : Prop where
  isMatch : r.Matches s g t
  notBelow : ∀ g' t', r.Matches s g' t' → ¬ Below (matchKey s g t) (matchKey s g' t')

/-- The match that beats every other one. -/
structure Preferred (r : Regex) (s : List UInt8) (g : List Capture) (t : List UInt8) :
    Prop where
  isMatch : r.Matches s g t
  below : ∀ g' t', r.Matches s g' t' →
    Below (matchKey s g' t') (matchKey s g t) ∨ (g' = g ∧ t' = t)

/-- The match that beats every other one by its groups alone. -/
structure Greedy (r : Regex) (s : List UInt8) (g : List Capture) (t : List UInt8) : Prop where
  isMatch : r.Matches s g t
  below : ∀ g' t', r.Matches s g' t' → Below (groupsKey g') (groupsKey g) ∨ (g' = g ∧ t' = t)

theorem below_cons_iff {a b : ℕ} {k l : List ℕ} :
    Below (a :: k) (b :: l) ↔ a < b ∨ a = b ∧ Below k l := by
  constructor
  · intro h
    cases h with
    | rel hlt => exact .inl hlt
    | cons h => exact .inr ⟨rfl, h⟩
  · rintro (hlt | ⟨rfl, h⟩)
    · exact .rel hlt
    · exact .cons h

theorem below_append {k k' l l' : List ℕ} (hlen : k.length = k'.length) (h : Below k k') :
    Below (k ++ l) (k' ++ l') := by
  induction h with
  | nil => simp at hlen
  | rel hlt => exact .rel hlt
  | cons h ih => exact .cons (ih (by simpa using hlen))

section Rules

variable {r q : Regex} {s t m w : List UInt8} {g g' : List Capture} {c : CharSet} {x : UInt8}

/-- A best match is the preferred one. -/
theorem Preferred.eq_of_best (h : Preferred r s g t) {g' : List Capture} {t' : List UInt8}
    (hbest : Best r s g' t') : g' = g ∧ t' = t := by
  rcases h.below g' t' hbest.isMatch with hbelow | heq
  · exact absurd hbelow (hbest.notBelow g t h.isMatch)
  · exact heq

/-- A greedy match of the whole text is preferred. -/
theorem Greedy.preferred (h : Greedy r s g []) : Preferred r s g [] where
  isMatch := h.isMatch
  below := by
    intro g' t' hmatch
    cases t' with
    | nil =>
        rcases h.below g' [] hmatch with hbelow | heq
        · exact .inl (.cons hbelow)
        · exact .inr heq
    | cons y t' =>
        have hle := hmatch.length_le
        refine .inl (.rel ?_)
        simp only [List.length_cons, List.length_nil] at hle ⊢
        omega

/-- Greedy matches follow each other. -/
theorem Greedy.seq (hr : Greedy r s g m) (hq : Greedy q m g' t) :
    Greedy (.seq r q) s (g ++ g') t where
  isMatch := ⟨g, m, g', rfl, hr.isMatch, hq.isMatch⟩
  below := by
    rintro _ t' ⟨g₁, m', g₂, rfl, hmatch, hmatch'⟩
    have hlen : (groupsKey g₁).length = (groupsKey g).length := by
      rw [groupsKey, groupsKey, List.length_map, List.length_map, hmatch.length_groups,
        hr.isMatch.length_groups]
    rcases hr.below g₁ m' hmatch with hbelow | ⟨rfl, rfl⟩
    · refine .inl ?_
      rw [groupsKey, groupsKey, List.map_append, List.map_append]
      exact below_append hlen hbelow
    · rcases hq.below g₂ t' hmatch' with hbelow | ⟨rfl, rfl⟩
      · refine .inl ?_
        rw [groupsKey, groupsKey, List.map_append, List.map_append]
        exact List.Lex.append_left _ hbelow _
      · exact .inr ⟨rfl, rfl⟩

theorem below_capture {s : List UInt8} {g g' : List Capture} {t t' : List UInt8}
    (h : Below (matchKey s g t) (matchKey s g' t')) :
    Below (groupsKey (some (s, t) :: g)) (groupsKey (some (s, t') :: g')) := by
  rw [matchKey, matchKey, below_cons_iff] at h
  simp only [groupsKey, List.map_cons, captureKey]
  rw [below_cons_iff, Nat.add_lt_add_iff_right, Nat.add_right_cancel_iff]
  exact h

theorem Preferred.group (h : Preferred r s g t) :
    Preferred (.group r) s (some (s, t) :: g) t where
  isMatch := ⟨g, rfl, h.isMatch⟩
  below := by
    rintro _ t' ⟨g', rfl, hmatch⟩
    rcases h.below g' t' hmatch with hbelow | ⟨rfl, rfl⟩
    · refine .inl ?_
      rcases below_cons_iff.mp hbelow with hlt | ⟨heq, -⟩
      · exact .rel hlt
      · rw [matchKey, matchKey, heq]
        exact .cons (below_capture hbelow)
    · exact .inr ⟨rfl, rfl⟩

/-- A group is greedy where its content is preferred. -/
theorem Preferred.greedy_group (h : Preferred r s g t) :
    Greedy (.group r) s (some (s, t) :: g) t where
  isMatch := ⟨g, rfl, h.isMatch⟩
  below := by
    rintro _ t' ⟨g', rfl, hmatch⟩
    rcases h.below g' t' hmatch with hbelow | ⟨rfl, rfl⟩
    · exact .inl (below_capture hbelow)
    · exact .inr ⟨rfl, rfl⟩

/-- An optional group takes part when it can. -/
theorem Preferred.optGroup (h : Preferred r s g t) :
    Greedy (.optGroup r) s (some (s, t) :: g) t where
  isMatch := .inl ⟨g, rfl, h.isMatch⟩
  below := by
    rintro _ t' (⟨g', rfl, hmatch⟩ | ⟨rfl, rfl⟩)
    · rcases h.below g' t' hmatch with hbelow | ⟨rfl, rfl⟩
      · exact .inl (below_capture hbelow)
      · exact .inr ⟨rfl, rfl⟩
    · exact .inl (.rel (Nat.succ_pos _))

theorem greedy_optGroup_none (h : ∀ g t, ¬ r.Matches s g t) :
    Greedy (.optGroup r) s (List.replicate (r.groups + 1) none) s where
  isMatch := .inr ⟨rfl, rfl⟩
  below := by
    rintro _ t' (⟨g', rfl, hmatch⟩ | heq)
    · exact absurd hmatch (h g' t')
    · exact .inr heq

/-! ### Characters -/

/-- The rest of the text does not begin with a character of `c`. -/
def StopsAt (c : CharSet) (t : List UInt8) : Prop := ∀ x ∈ t.head?, c.accepts x = false

theorem stopsAt_nil (c : CharSet) : StopsAt c [] := nofun

theorem stopsAt_cons {c : CharSet} {x : UInt8} {t : List UInt8} :
    StopsAt c (x :: t) ↔ c.accepts x = false := by
  simp [StopsAt]

/-- Of two runs of characters of `c` that start together, the one that cannot go
on is the longer. -/
theorem run_longest {u v t' : List UInt8} (hv : ∀ y ∈ v, c.accepts y = true)
    (ht : StopsAt c t) (heq : u ++ t = v ++ t') : t' = t ∨ t.length < t'.length := by
  rcases List.append_eq_append_iff.mp heq with ⟨a, rfl, rfl⟩ | ⟨a, rfl, rfl⟩
  · cases a with
    | nil => exact .inl rfl
    | cons y a =>
        have hy : c.accepts y = true := hv y (by simp)
        rw [List.cons_append, stopsAt_cons, hy] at ht
        cases ht
  · cases a with
    | nil => exact .inl rfl
    | cons y a =>
        refine .inr ?_
        rw [List.length_append, List.length_cons]
        omega

theorem below_of_longer {t t' : List UInt8} (h : t.length < t'.length)
    (hle : t'.length ≤ s.length) : Below (matchKey s g' t') (matchKey s g t) :=
  .rel (Nat.sub_lt_sub_left (Nat.lt_of_lt_of_le h hle) h)

theorem preferred_star (hw : ∀ y ∈ w, c.accepts y = true) (ht : StopsAt c t) :
    Preferred (.star c) (w ++ t) [] t where
  isMatch := ⟨rfl, w, hw, rfl⟩
  below := by
    intro g' t' hmatch
    obtain ⟨rfl, v, hv, heq⟩ := id hmatch
    rcases run_longest hv ht heq with rfl | hlt
    · exact .inr ⟨rfl, rfl⟩
    · exact .inl (below_of_longer hlt hmatch.length_le)

theorem preferred_plus (hne : w ≠ []) (hw : ∀ y ∈ w, c.accepts y = true) (ht : StopsAt c t) :
    Preferred (.plus c) (w ++ t) [] t where
  isMatch := ⟨rfl, w, hne, hw, rfl⟩
  below := by
    intro g' t' hmatch
    obtain ⟨rfl, v, -, hv, heq⟩ := id hmatch
    rcases run_longest hv ht heq with rfl | hlt
    · exact .inr ⟨rfl, rfl⟩
    · exact .inl (below_of_longer hlt hmatch.length_le)

/-- One character in front. -/
theorem Preferred.one_seq (hx : c.accepts x = true) (h : Preferred q s g t) :
    Preferred (.seq (.one c) q) (x :: s) g t where
  isMatch := ⟨[], s, g, rfl, ⟨rfl, x, hx, rfl⟩, h.isMatch⟩
  below := by
    rintro _ t' ⟨_, m, g', rfl, ⟨rfl, y, -, heq⟩, hmatch⟩
    obtain ⟨rfl, rfl⟩ := List.cons.inj heq
    have hle := h.isMatch.length_le
    have hle' := hmatch.length_le
    have hkey : ∀ {g : List Capture} {t : List UInt8}, t.length ≤ s.length →
        matchKey (x :: s) g t = (s.length - t.length + 1) :: groupsKey g := by
      intro g t ht
      rw [matchKey, List.length_cons, Nat.sub_add_comm ht]
    rw [List.nil_append, hkey hle, hkey hle', below_cons_iff, Nat.add_lt_add_iff_right,
      Nat.add_right_cancel_iff, ← below_cons_iff]
    exact h.below g' t' hmatch

theorem not_matches_one_seq (hs : StopsAt c s) : ¬ (Regex.seq (.one c) q).Matches s g t := by
  rintro ⟨g₁, m, g₂, -, ⟨-, x, hx, rfl⟩, -⟩
  rw [stopsAt_cons.mp hs] at hx
  cases hx

/-! ### Delimiters -/

/-- The only match. -/
structure Only (r : Regex) (s : List UInt8) (g : List Capture) (t : List UInt8) : Prop where
  isMatch : r.Matches s g t
  unique : ∀ g' t', r.Matches s g' t' → g' = g ∧ t' = t

theorem Only.preferred (h : Only r s g t) : Preferred r s g t where
  isMatch := h.isMatch
  below := fun g' t' hmatch => .inr (h.unique g' t' hmatch)

theorem only_one (hx : c.accepts x = true) : Only (.one c) (x :: t) [] t where
  isMatch := ⟨rfl, x, hx, rfl⟩
  unique := by
    rintro _ t' ⟨rfl, y, -, heq⟩
    exact ⟨rfl, (List.cons.inj heq).2.symm⟩

theorem Only.one_seq (hx : c.accepts x = true) (h : Only q s g t) :
    Only (.seq (.one c) q) (x :: s) g t where
  isMatch := ⟨[], s, g, rfl, ⟨rfl, x, hx, rfl⟩, h.isMatch⟩
  unique := by
    rintro _ t' ⟨_, m, g', rfl, ⟨rfl, y, -, heq⟩, hmatch⟩
    obtain ⟨-, rfl⟩ := List.cons.inj heq
    exact h.unique g' t' hmatch

/-- What follows a run of characters of `c` does not begin with one of them. -/
def NotAfter (c : CharSet) (q : Regex) : Prop :=
  ∀ y s g t, c.accepts y = true → ¬ q.Matches (y :: s) g t

theorem notAfter_lit (hx : c.accepts x = false) : NotAfter c (.one (.lit x)) := by
  rintro y s g t hy ⟨-, z, hz, heq⟩
  obtain rfl : z = x := by simpa [CharSet.accepts] using hz
  rw [(List.cons.inj heq).1, hx] at hy
  cases hy

theorem NotAfter.seq (h : NotAfter c r) : NotAfter c (.seq r q) := by
  rintro y s g t hy ⟨g₁, m, g₂, -, hmatch, -⟩
  exact h y s g₁ m hy hmatch

/-- A run of characters of `c` that something else has to follow ends where the
characters of `c` end. -/
theorem run_of_notAfter {v : List UInt8} (hq : NotAfter c q)
    (hw : ∀ y ∈ w, c.accepts y = true) (ht : StopsAt c t) (hv : ∀ y ∈ v, c.accepts y = true)
    (heq : w ++ t = v ++ m) (hmatch : q.Matches m g s) : v = w ∧ m = t := by
  rcases List.append_eq_append_iff.mp heq with ⟨a, rfl, rfl⟩ | ⟨a, rfl, rfl⟩
  · cases a with
    | nil => simp
    | cons y a =>
        have hy : c.accepts y = true := hv y (by simp)
        rw [List.cons_append, stopsAt_cons, hy] at ht
        cases ht
  · cases a with
    | nil => simp
    | cons y a => exact absurd hmatch (hq y _ _ _ (hw y (by simp)))

theorem only_plus_seq (hne : w ≠ []) (hw : ∀ y ∈ w, c.accepts y = true) (hm : StopsAt c m)
    (hq : NotAfter c q) (h : Only q m g t) :
    Only (.seq (.group (.plus c)) q) (w ++ m) (some (w ++ m, m) :: g) t where
  isMatch := ⟨[some (w ++ m, m)], m, g, rfl, ⟨[], rfl, rfl, w, hne, hw, rfl⟩, h.isMatch⟩
  unique := by
    rintro _ t' ⟨_, m', g', rfl, ⟨_, rfl, rfl, v, -, hv, heq⟩, hmatch⟩
    obtain ⟨-, rfl⟩ := run_of_notAfter hq hw hm hv heq hmatch
    obtain ⟨rfl, rfl⟩ := h.unique g' t' hmatch
    exact ⟨rfl, rfl⟩

theorem not_matches_plus_seq (hw : ∀ y ∈ w, c.accepts y = true) (hm : StopsAt c m)
    (hq : NotAfter c q) (h : w = [] ∨ ∀ g t, ¬ q.Matches m g t) :
    ¬ (Regex.seq (.group (.plus c)) q).Matches (w ++ m) g t := by
  rintro ⟨_, m', g', -, ⟨_, -, -, v, hne, hv, heq⟩, hmatch⟩
  obtain ⟨rfl, rfl⟩ := run_of_notAfter hq hw hm hv heq hmatch
  rcases h with rfl | h
  · exact hne rfl
  · exact h g' t hmatch

end Rules

/-! ## A matcher -/

/-- Every match, as its groups and the text it leaves. -/
def allMatches : Regex → List UInt8 → List (List Capture × List UInt8)
  | .one c, s =>
      match s with
      | [] => []
      | x :: t => if c.accepts x then [([], t)] else []
  | .star c, s =>
      (List.range ((s.takeWhile c.accepts).length + 1)).map fun i => ([], s.drop i)
  | .plus c, s =>
      (List.range (s.takeWhile c.accepts).length).map fun i => ([], s.drop (i + 1))
  | .seq r q, s =>
      (allMatches r s).flatMap fun m => (allMatches q m.2).map fun n => (m.1 ++ n.1, n.2)
  | .group r, s => (allMatches r s).map fun m => (some (s, m.2) :: m.1, m.2)
  | .optGroup r, s =>
      (allMatches r s).map (fun m => (some (s, m.2) :: m.1, m.2)) ++
        [(List.replicate (r.groups + 1) none, s)]

theorem mem_of_mem_take_run {c : CharSet} {s : List UInt8} {i : ℕ}
    (hi : i ≤ (s.takeWhile c.accepts).length) {x : UInt8} (hx : x ∈ s.take i) :
    c.accepts x = true := by
  have htake : s.take i = (s.takeWhile c.accepts).take i := by
    conv => lhs; rw [← List.takeWhile_append_dropWhile (p := c.accepts) (l := s)]
    exact List.take_append_of_le_length hi
  rw [htake] at hx
  exact List.mem_takeWhile_imp (List.mem_of_mem_take hx)

theorem length_le_run {c : CharSet} {w t : List UInt8} (hw : ∀ x ∈ w, c.accepts x = true) :
    w.length ≤ ((w ++ t).takeWhile c.accepts).length := by
  rw [List.takeWhile_append_of_pos hw, List.length_append]
  exact Nat.le_add_right _ _

theorem mem_allMatches {r : Regex} {s t : List UInt8} {g : List Capture} :
    (g, t) ∈ allMatches r s ↔ r.Matches s g t := by
  induction r generalizing s g t with
  | one c =>
      cases s with
      | nil => simp [allMatches, Regex.Matches]
      | cons x s =>
          by_cases hx : c.accepts x = true
          · simp only [allMatches, hx, if_true, List.mem_singleton, Prod.mk.injEq]
            constructor
            · rintro ⟨rfl, rfl⟩
              exact ⟨rfl, x, hx, rfl⟩
            · rintro ⟨rfl, y, -, heq⟩
              exact ⟨rfl, (List.cons.inj heq).2.symm⟩
          · refine iff_of_false (by simp [allMatches, hx]) ?_
            rintro ⟨-, y, hy, heq⟩
            exact hx ((List.cons.inj heq).1 ▸ hy)
  | star c =>
      simp only [allMatches, Regex.Matches, List.mem_map, List.mem_range, Prod.mk.injEq]
      constructor
      · rintro ⟨i, hi, rfl, rfl⟩
        exact ⟨rfl, s.take i, fun x hx => mem_of_mem_take_run (Nat.le_of_lt_succ hi) hx,
          (List.take_append_drop i s).symm⟩
      · rintro ⟨rfl, w, hw, rfl⟩
        exact ⟨w.length, Nat.lt_succ_of_le (length_le_run hw), rfl, List.drop_left⟩
  | plus c =>
      simp only [allMatches, Regex.Matches, List.mem_map, List.mem_range, Prod.mk.injEq]
      constructor
      · rintro ⟨i, hi, rfl, rfl⟩
        refine ⟨rfl, s.take (i + 1), ?_, fun x hx => mem_of_mem_take_run hi hx,
          (List.take_append_drop (i + 1) s).symm⟩
        have hlen : i < s.length := hi.trans_le (List.takeWhile_prefix c.accepts).length_le
        rw [Ne, List.take_eq_nil_iff, not_or]
        exact ⟨Nat.succ_ne_zero i, List.ne_nil_of_length_pos (Nat.zero_lt_of_lt hlen)⟩
      · rintro ⟨rfl, w, hne, hw, rfl⟩
        have hpos : 0 < w.length := List.length_pos_of_ne_nil hne
        refine ⟨w.length - 1, ?_, rfl, ?_⟩
        · exact (Nat.sub_one_lt_of_lt hpos).trans_le (length_le_run hw)
        · rw [Nat.sub_add_cancel hpos, List.drop_left]
  | seq r q ihr ihq =>
      simp only [allMatches, Regex.Matches, List.mem_flatMap, List.mem_map, Prod.exists,
        Prod.mk.injEq, ihr, ihq]
      constructor
      · rintro ⟨g₁, m, hr, g₂, t', hq, rfl, rfl⟩
        exact ⟨g₁, m, g₂, rfl, hr, hq⟩
      · rintro ⟨g₁, m, g₂, rfl, hr, hq⟩
        exact ⟨g₁, m, hr, g₂, t, hq, rfl, rfl⟩
  | group r ih =>
      simp only [allMatches, Regex.Matches, List.mem_map, Prod.exists, Prod.mk.injEq, ih]
      constructor
      · rintro ⟨g', t', hr, rfl, rfl⟩
        exact ⟨g', rfl, hr⟩
      · rintro ⟨g', rfl, hr⟩
        exact ⟨g', t, hr, rfl, rfl⟩
  | optGroup r ih =>
      simp only [allMatches, Regex.Matches, List.mem_append, List.mem_map, Prod.exists,
        Prod.mk.injEq, ih, List.mem_singleton]
      refine or_congr ?_ Iff.rfl
      constructor
      · rintro ⟨g', t', hr, rfl, rfl⟩
        exact ⟨g', rfl, hr⟩
      · rintro ⟨g', rfl, hr⟩
        exact ⟨g', t, hr, rfl, rfl⟩

/-- The first of the entries whose key no other one beats. -/
def pick {β : Type} (key : β → List ℕ) : List β → Option β
  | [] => none
  | x :: xs =>
      match pick key xs with
      | none => some x
      | some y => if Below (key x) (key y) then some y else some x

theorem pick_eq_none_iff {β : Type} {key : β → List ℕ} {xs : List β} :
    pick key xs = none ↔ xs = [] := by
  cases xs with
  | nil => simp [pick]
  | cons x xs =>
      refine iff_of_false ?_ (List.cons_ne_nil x xs)
      rw [pick]
      split
      · simp
      · split
        · simp
        · simp

theorem pick_eq_some {β : Type} {key : β → List ℕ} {xs : List β} {b : β}
    (h : pick key xs = some b) : b ∈ xs ∧ ∀ x ∈ xs, ¬ Below (key b) (key x) := by
  induction xs generalizing b with
  | nil => simp [pick] at h
  | cons x xs ih =>
      rw [pick] at h
      cases hpick : pick key xs with
      | none =>
          obtain rfl := pick_eq_none_iff.mp hpick
          obtain rfl : x = b := by simpa [pick] using h
          refine ⟨List.mem_cons_self, fun y hy => ?_⟩
          obtain rfl := List.mem_singleton.mp hy
          exact irrefl_of (List.Lex (· < ·)) (key y)
      | some y =>
          obtain ⟨hy, hbest⟩ := ih hpick
          simp only [hpick] at h
          by_cases hxy : Below (key x) (key y)
          · obtain rfl : y = b := by simpa [hxy] using h
            refine ⟨List.mem_cons_of_mem x hy, fun z hz => ?_⟩
            rcases List.mem_cons.mp hz with rfl | hz
            · exact asymm_of (List.Lex (· < ·)) hxy
            · exact hbest z hz
          · obtain rfl : x = b := by simpa [hxy] using h
            refine ⟨List.mem_cons_self, fun z hz hxz => ?_⟩
            rcases List.mem_cons.mp hz with rfl | hz
            · exact irrefl_of (List.Lex (· < ·)) (key z) hxz
            · rcases IsOrderConnected.conn (key x) (key y) (key z) hxz with hbelow | hbelow
              · exact hxy hbelow
              · exact hbest z hz hbelow

/-! ## `regexec` -/

/-- `regmatch_t`: the offsets of a subexpression, which are `int`s; both are -1 when it
takes no part. -/
structure RegMatch where
  rmSo : CInt
  rmEo : CInt
  deriving DecidableEq

def RegMatch.unmatched : RegMatch := ⟨toCInt (-1), toCInt (-1)⟩

/-- The offsets in a text of a stretch that is given by what is left of the text
before and after it. -/
def RegMatch.ofCapture (str : List UInt8) : Capture → RegMatch
  | none => .unmatched
  | some (s, t) => ⟨toCInt (str.length - s.length), toCInt (str.length - t.length)⟩

/-- In a text whose length is an `int` the offsets are as they should be. -/
theorem RegMatch.ofCapture_some {str s t : List UInt8} (hlen : str.length ≤ intMax)
    (hs : s.length ≤ str.length) (ht : t.length ≤ str.length) :
    (RegMatch.ofCapture str (some (s, t))).rmSo.val = (str.length - s.length : ℕ) ∧
      (RegMatch.ofCapture str (some (s, t))).rmEo.val = (str.length - t.length : ℕ) := by
  rw [Nat.cast_sub hs, Nat.cast_sub ht]
  rw [intMax_eq] at hlen
  exact ⟨wrapInt_of_fits (by omega) (by omega), wrapInt_of_fits (by omega) (by omega)⟩

/-- The array that `regexec` fills: the whole match and then the groups. -/
def regMatches (str : List UInt8) (g : List Capture) (t : List UInt8) (k : ℕ) : RegMatch :=
  ((some (str, t) :: g)[k]?.map (RegMatch.ofCapture str)).getD .unmatched

/-- A function matches as POSIX asks for, at the start of any text whose length is an
`int`: there are no offsets for a longer one. -/
structure Implements (exec : List UInt8 → Option (ℕ → RegMatch)) (r : Regex) : Prop where
  best : ∀ str subs, str.length ≤ intMax → exec str = some subs →
    ∃ g t, Best r str g t ∧ subs = regMatches str g t
  noMatch : ∀ str, str.length ≤ intMax → exec str = none → ∀ g t, ¬ r.Matches str g t

/-- The array is that of the preferred match. -/
theorem Implements.eq_of_preferred {exec : List UInt8 → Option (ℕ → RegMatch)} {r : Regex}
    (h : Implements exec r) {str t : List UInt8} {g : List Capture} (hlen : str.length ≤ intMax)
    (hpref : Preferred r str g t) : exec str = some (regMatches str g t) := by
  cases hexec : exec str with
  | none => exact absurd hpref.isMatch (h.noMatch str hlen hexec g t)
  | some subs =>
      obtain ⟨g', t', hbest, rfl⟩ := h.best str subs hlen hexec
      obtain ⟨rfl, rfl⟩ := hpref.eq_of_best hbest
      rfl

/-- The matcher that compares all matches. -/
def execAll (r : Regex) (str : List UInt8) : Option (ℕ → RegMatch) :=
  (pick (fun m => matchKey str m.1 m.2) (allMatches r str)).map fun m => regMatches str m.1 m.2

theorem implements_execAll (r : Regex) : Implements (execAll r) r where
  best := by
    intro str subs _ hsubs
    obtain ⟨⟨g, t⟩, hpick, rfl⟩ := Option.map_eq_some_iff.mp hsubs
    obtain ⟨hmem, hbest⟩ := pick_eq_some hpick
    refine ⟨g, t, ⟨mem_allMatches.mp hmem, fun g' t' hmatch => ?_⟩, rfl⟩
    exact hbest (g', t') (mem_allMatches.mpr hmatch)
  noMatch := by
    intro str _ hnone g t hmatch
    have hnil := pick_eq_none_iff.mp (Option.map_eq_none_iff.mp hnone)
    have hmem := mem_allMatches.mpr hmatch
    rw [hnil] at hmem
    exact absurd hmem List.not_mem_nil

end PosixRegex
