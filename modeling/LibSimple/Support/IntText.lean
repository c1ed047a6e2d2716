import LibSimple.Support.CLang

/-!
# Printed and scanned `int`s

What `%d` prints, and what `%d` of `sscanf` makes of it: an `int` comes back with the
text behind it, as long as that does not go on with a digit.
-/

namespace CLang

/-- What `%d` prints. -/
def intText (x : ℤ) : List UInt8 :=
  if x < 0 then 45 :: decimalDigits x.natAbs else decimalDigits x.natAbs

/-- What follows the sign of a number, if it has one. -/
def skipSign : List UInt8 → List UInt8
  | 45 :: rest => rest
  | 43 :: rest => rest
  | rest => rest

/-- `%d` of `sscanf`, which takes a number as `strtol` does: the number and the text
behind it. -/
def scanInt (s : List UInt8) : Option (CInt × List UInt8) :=
  let rest := skipSign (s.dropWhile isSpaceChar)
  if rest.takeWhile isDigit = [] then none
  else some (toCInt (strtol s), rest.dropWhile isDigit)

/-- `sscanf(s, "%d,%d", &x, &y)`: the two numbers when its result is 2. -/
def scanIntPair (s : CStr) : Option (CInt × CInt) := do
  let (x, rest) ← scanInt s.val
  match rest with
  | 44 :: rest => do
      let (y, _) ← scanInt rest
      some (x, y)
  | _ => none

/-! ## Scanning what was printed -/

theorem takeWhile_decimalDigits_append {n : ℕ} {rest : List UInt8}
    (hrest : ∀ c ∈ rest.head?, isDigit c = false) :
    (decimalDigits n ++ rest).takeWhile isDigit = decimalDigits n ∧
      (decimalDigits n ++ rest).dropWhile isDigit = rest := by
  have hdigits : ∀ c ∈ decimalDigits n, isDigit c = true := fun _ => isDigit_of_mem_decimalDigits
  rw [List.takeWhile_append_of_pos hdigits, List.dropWhile_append_of_pos hdigits]
  cases rest with
  | nil => exact ⟨List.append_nil _, rfl⟩
  | cons c rest =>
      have hc : ¬ isDigit c = true := by
        rw [hrest c rfl]
        exact Bool.false_ne_true
      rw [List.takeWhile_cons_of_neg hc, List.dropWhile_cons_of_neg hc]
      exact ⟨List.append_nil _, rfl⟩

/-- Digits behind a sign, or without one. -/
theorem strtol_decimalDigits {n : ℕ} {rest : List UInt8}
    (hrest : ∀ c ∈ rest.head?, isDigit c = false) :
    strtol (45 :: decimalDigits n ++ rest) = max (-9223372036854775808) (-(n : ℤ)) ∧
      strtol (decimalDigits n ++ rest) = min 9223372036854775807 (n : ℤ) ∧
      (decimalDigits n ++ rest).dropWhile isSpaceChar = decimalDigits n ++ rest ∧
      skipSign (decimalDigits n ++ rest) = decimalDigits n ++ rest := by
  obtain ⟨htake, -⟩ := takeWhile_decimalDigits_append hrest (n := n)
  obtain ⟨d, ds, hds⟩ : ∃ d ds, decimalDigits n = d :: ds :=
    List.exists_cons_of_ne_nil (decimalDigits_ne_nil n)
  have hd : isDigit d = true := isDigit_of_mem_decimalDigits (n := n) (by rw [hds]; simp)
  obtain ⟨hspace, hminus, hplus, -⟩ := digit_ne hd
  have hdrop : (decimalDigits n ++ rest).dropWhile isSpaceChar = decimalDigits n ++ rest := by
    rw [hds, List.cons_append, List.dropWhile_cons_of_neg (by simp [hspace])]
  refine ⟨?_, ?_, hdrop, ?_⟩
  · rw [strtol, List.cons_append, List.dropWhile_cons_of_neg (by decide)]
    simp only []
    rw [htake, digitsValue_decimalDigits]
  · rw [strtol, hdrop]
    rw [hds, List.cons_append] at htake ⊢
    split
    · rename_i heq
      exact absurd (List.cons.inj heq).1 hminus
    · rename_i heq
      exact absurd (List.cons.inj heq).1 hplus
    · rw [htake, ← hds, digitsValue_decimalDigits]
  · rw [hds, List.cons_append, skipSign]
    · rintro r heq
      exact hminus (List.cons.inj heq).1
    · rintro r heq
      exact hplus (List.cons.inj heq).1

/-- An `int` that was printed is scanned as it was. -/
theorem scanInt_intText (x : CInt) {rest : List UInt8}
    (hrest : ∀ c ∈ rest.head?, isDigit c = false) :
    scanInt (intText x.val ++ rest) = some (x, rest) := by
  obtain ⟨x, hlo, hhi⟩ := x
  obtain ⟨hneg, hpos, hspace, hsign⟩ := strtol_decimalDigits hrest (n := x.natAbs)
  obtain ⟨htake, hdrop⟩ := takeWhile_decimalDigits_append hrest (n := x.natAbs)
  have hne := decimalDigits_ne_nil x.natAbs
  show scanInt (intText x ++ rest) = _
  rw [intText]
  split_ifs with hx
  · have hskip : skipSign ((45 :: decimalDigits x.natAbs ++ rest).dropWhile isSpaceChar) =
        decimalDigits x.natAbs ++ rest := by
      rw [List.cons_append, List.dropWhile_cons_of_neg (by decide), skipSign]
    have hvalue : max (-9223372036854775808) (-(x.natAbs : ℤ)) = x := by omega
    rw [scanInt, hskip, htake, hdrop, if_neg hne, hneg, hvalue,
      toCInt_val (⟨x, hlo, hhi⟩ : CInt)]
  · have hvalue : min 9223372036854775807 (x.natAbs : ℤ) = x := by omega
    rw [scanInt, hspace, hsign, htake, hdrop, if_neg hne, hpos, hvalue,
      toCInt_val (⟨x, hlo, hhi⟩ : CInt)]

/-- Two `int`s that were printed with a comma between them are scanned as they were. -/
theorem scanIntPair_intText {s : CStr} {x y : CInt}
    (hs : s.val = intText x.val ++ 44 :: intText y.val) : scanIntPair s = some (x, y) := by
  have hx : scanInt (intText x.val ++ 44 :: intText y.val) = some (x, 44 :: intText y.val) := by
    refine scanInt_intText x fun c hc => ?_
    obtain rfl := Option.some.inj hc
    decide
  have hy : scanInt (intText y.val ++ []) = some (y, []) :=
    scanInt_intText y fun c hc => by cases hc
  rw [List.append_nil] at hy
  rw [scanIntPair, hs, hx, Option.bind_eq_bind, Option.bind_some]
  simp only []
  rw [hy, Option.bind_some]

/-- A printed `int` has only digits and a sign in it, and something at all. -/
theorem mem_intText {x : ℤ} {c : UInt8} (h : c ∈ intText x) : c = 45 ∨ isDigit c = true := by
  rw [intText] at h
  split_ifs at h with hx
  · rw [List.mem_cons] at h
    exact h.imp_right isDigit_of_mem_decimalDigits
  · exact Or.inr (isDigit_of_mem_decimalDigits h)

end CLang
