import Mathlib.Data.Nat.Digits.Defs
import Mathlib.Data.List.DropRight

/-!
# C integers and C strings

This module contains the program-independent part of the C language that the
embedded functions rest on: `int` arithmetic on 32 bits, NUL-terminated
strings, copies of partly initialised scratch memory, and the decimal
conversions of the standard library.

A byte is a `UInt8`; memory that a program has not written yet is `none` in a
list of `Option UInt8`.
-/

namespace CLang

/-! ## 32-bit `int` -/

/-- The largest value of a 32-bit `int`. -/
def intMax : ℕ := 2147483647

theorem intMax_eq : intMax = 2147483647 := rfl

/-- The 32-bit `int` with the same residue as `x`: what a conversion to `int`
keeps of a wider value. -/
def wrapInt (x : ℤ) : ℤ := Int.bmod x 4294967296

theorem wrapInt_of_fits {x : ℤ} (hlo : -2147483648 ≤ x) (hhi : x ≤ 2147483647) :
    wrapInt x = x := by
  unfold wrapInt
  apply Int.bmod_eq_of_le <;> omega

theorem wrapInt_natCast {n : ℕ} (h : n ≤ intMax) : wrapInt (n : ℤ) = n := by
  unfold intMax at h
  exact wrapInt_of_fits (by omega) (by omega)

/-- A value just too large for an `int` comes out negative. -/
theorem wrapInt_of_gt {x : ℤ} (hlo : 2147483647 < x) (hhi : x ≤ 6442450943) :
    wrapInt x = x - 4294967296 := by
  rw [wrapInt, Int.bmod_def]
  omega

/-- `x` is the value of an `int`. -/
def FitsInt (x : ℤ) : Prop := -2147483648 ≤ x ∧ x ≤ 2147483647

instance (x : ℤ) : Decidable (FitsInt x) := inferInstanceAs (Decidable (_ ∧ _))

theorem FitsInt.wrapInt_eq {x : ℤ} (h : FitsInt x) : wrapInt x = x := wrapInt_of_fits h.1 h.2

theorem fitsInt_wrapInt (x : ℤ) : FitsInt (wrapInt x) := by
  have hlo : -2147483648 ≤ wrapInt x := Int.le_bmod (by decide)
  have hhi : wrapInt x < 2147483648 := Int.bmod_lt (by decide)
  exact ⟨hlo, by omega⟩

/-- An `int`. -/
abbrev CInt : Type := {x : ℤ // FitsInt x}

/-- The `int` that keeps the low 32 bits of `x`. -/
def toCInt (x : ℤ) : CInt := ⟨wrapInt x, fitsInt_wrapInt x⟩

theorem toCInt_val (x : CInt) : toCInt x.val = x := Subtype.ext x.2.wrapInt_eq

/-- `x + y` on 32-bit `int`s. -/
def addInt (x y : ℤ) : ℤ := wrapInt (x + y)

/-- `x - y` on 32-bit `int`s. -/
def subInt (x y : ℤ) : ℤ := wrapInt (x - y)

/-- `x * y` on 32-bit `int`s. -/
def mulInt (x y : ℤ) : ℤ := wrapInt (x * y)

theorem addInt_natCast {m n : ℕ} (h : m + n ≤ intMax) :
    addInt m n = ((m + n : ℕ) : ℤ) := by
  rw [addInt, ← Nat.cast_add, wrapInt_natCast h]

theorem subInt_natCast {m n : ℕ} (hle : n ≤ m) (h : m ≤ intMax) :
    subInt m n = ((m - n : ℕ) : ℤ) := by
  rw [subInt, ← Nat.cast_sub hle, wrapInt_natCast (by omega)]

/-- `memcpy(dst + pos, src + start, n)`: `dst` afterwards, and `none` when the
copy leaves one of the two buffers. -/
def memcpy (dst : List UInt8) (pos : ℤ) (src : List UInt8) (start n : ℤ) :
    Option (List UInt8) :=
  if 0 ≤ n ∧ 0 ≤ pos ∧ pos + n ≤ dst.length ∧ 0 ≤ start ∧ start + n ≤ src.length then
    some (dst.take pos.toNat ++
      ((src.drop start.toNat).take n.toNat ++ dst.drop (pos + n).toNat))
  else none

theorem memcpy_natCast {dst src : List UInt8} {pos start n : ℕ} (hdst : pos + n ≤ dst.length)
    (hsrc : start + n ≤ src.length) :
    memcpy dst pos src start n =
      some (dst.take pos ++ ((src.drop start).take n ++ dst.drop (pos + n))) := by
  rw [memcpy, if_pos ⟨by omega, by omega, by omega, by omega, by omega⟩]
  rfl

/-! ## Loops -/

/-- A loop returns `r`: with all but too little fuel it ends with `r`. -/
def Returns {R : Type*} (loop : ℕ → Option R) (r : R) : Prop :=
  ∃ needed, ∀ fuel, needed ≤ fuel → loop fuel = some r

theorem Returns.unique {R : Type*} {loop : ℕ → Option R} {r r' : R}
    (h : Returns loop r) (h' : Returns loop r') : r = r' := by
  obtain ⟨needed, hneeded⟩ := h
  obtain ⟨needed', hneeded'⟩ := h'
  have hr := hneeded (max needed needed') (le_max_left _ _)
  rw [hneeded' _ (le_max_right _ _)] at hr
  exact (Option.some.inj hr).symm

/-- A loop that does one round more, and then something with the result. -/
theorem Returns.map_succ {R S : Type*} {loop : ℕ → Option R} {loop' : ℕ → Option S} {r : R}
    {f : R → S} (h : Returns loop r) (hstep : ∀ fuel, loop' (fuel + 1) = (loop fuel).map f) :
    Returns loop' (f r) := by
  obtain ⟨needed, hneeded⟩ := h
  refine ⟨needed + 1, fun fuel hfuel => ?_⟩
  obtain ⟨fuel, rfl⟩ : ∃ n, fuel = n + 1 := ⟨fuel - 1, by omega⟩
  rw [hstep, hneeded fuel (by omega), Option.map_some]

/-! ## Characters -/

@[match_pattern] abbrev cr : UInt8 := 13

@[match_pattern] abbrev lf : UInt8 := 10

/-- The byte of an ASCII character. -/
def charByte (c : Char) : UInt8 := UInt8.ofNat c.toNat

/-- The bytes of an ASCII text. -/
def bytes (cs : List Char) : List UInt8 := cs.map charByte

/-- `isdigit` in the C locale. -/
def isDigit (c : UInt8) : Bool := 48 ≤ c && c ≤ 57

/-- `isspace` in the C locale, as `strtol` uses it. -/
def isSpaceChar (c : UInt8) : Bool := c == 32 || (9 ≤ c && c ≤ 13)

/-- `tolower` in the C locale. -/
def toLower (c : UInt8) : UInt8 := if 65 ≤ c ∧ c ≤ 90 then c + 32 else c

/-! ## NUL-terminated strings -/

/-- A C string: the bytes before the terminating NUL. -/
def CStr := {s : List UInt8 // (0 : UInt8) ∉ s}

namespace CStr

instance : DecidableEq CStr := inferInstanceAs (DecidableEq {s : List UInt8 // (0 : UInt8) ∉ s})

@[ext] theorem ext {s t : CStr} (h : s.val = t.val) : s = t := Subtype.ext h

/-- `strlen` -/
def strlen (s : CStr) : ℕ := s.val.length

/-- The C string that starts a buffer which holds a NUL somewhere after the
listed bytes. -/
def ofBuffer (buffer : List UInt8) : CStr :=
  ⟨buffer.takeWhile (· ≠ 0), fun h => by simpa using List.mem_takeWhile_imp h⟩

theorem ofBuffer_val_of_notMem {buffer : List UInt8} (h : (0 : UInt8) ∉ buffer) :
    (ofBuffer buffer).val = buffer := by
  show buffer.takeWhile (· ≠ 0) = buffer
  rw [List.takeWhile_eq_self_iff]
  intro c hc
  simp only [ne_eq, decide_not, Bool.not_eq_eq_eq_not, Bool.not_true, decide_eq_false_iff_not]
  rintro rfl
  exact h hc

theorem ofBuffer_val (s : CStr) : ofBuffer s.val = s :=
  CStr.ext (ofBuffer_val_of_notMem s.2)

theorem strlen_ofBuffer_le (buffer : List UInt8) : (ofBuffer buffer).strlen ≤ buffer.length :=
  (List.takeWhile_prefix _).length_le

/-- The string with one more non-NUL byte in front. -/
def cons (c : UInt8) (hc : c ≠ 0) (s : CStr) : CStr :=
  ⟨c :: s.val, by
    rw [List.mem_cons, not_or]
    exact ⟨hc.symm, s.2⟩⟩

/-- `!strcasecmp(s, t)`: the strings are equal when the case of ASCII letters
is ignored. -/
def eqIgnoreCase (s t : CStr) : Bool := s.val.map toLower == t.val.map toLower

theorem eqIgnoreCase_iff {s t : CStr} :
    eqIgnoreCase s t = true ↔ s.val.map toLower = t.val.map toLower := by
  simp [eqIgnoreCase]

theorem eqIgnoreCase_comm (s t : CStr) : eqIgnoreCase s t = eqIgnoreCase t s := by
  simp only [eqIgnoreCase, Bool.beq_eq_decide_eq, eq_comm]

theorem eqIgnoreCase_trans {s t u : CStr}
    (hst : eqIgnoreCase s t = true) (htu : eqIgnoreCase t u = true) :
    eqIgnoreCase s u = true := by
  rw [eqIgnoreCase_iff] at *
  exact hst.trans htu

/-- A string constant. -/
def ofString (s : String) : CStr := ofBuffer (bytes s.toList)

end CStr

/-- The rest of a text from the last byte `c` on. -/
def lastFrom (c : UInt8) : List UInt8 → Option (List UInt8)
  | [] => none
  | d :: rest => (lastFrom c rest).or (if d = c then some (d :: rest) else none)

theorem lastFrom_isSome_iff {c : UInt8} {s : List UInt8} :
    (lastFrom c s).isSome = true ↔ c ∈ s := by
  induction s with
  | nil => simp [lastFrom]
  | cons d rest ih =>
      rw [lastFrom, Option.isSome_or, Bool.or_eq_true, ih, List.mem_cons, or_comm]
      by_cases hd : d = c
      · simp [hd]
      · simp [hd, Ne.symm hd]

/-- `strrchr`; `none` is a null pointer. -/
def strrchr (s : CStr) (c : UInt8) : Option CStr := (lastFrom c s.val).map CStr.ofBuffer

theorem strrchr_isSome_iff {s : CStr} {c : UInt8} : (strrchr s c).isSome = true ↔ c ∈ s.val := by
  rw [strrchr, Option.isSome_map, lastFrom_isSome_iff]

/-- `strdup` of partly initialised memory: the bytes up to the first NUL, or
`none` when the scan meets an uninitialised byte or the end of the memory. -/
def strdup : List (Option UInt8) → Option CStr
  | [] => none
  | none :: _ => none
  | some c :: rest =>
      if h : c = 0 then some ⟨[], by simp⟩ else (strdup rest).map (CStr.cons c h)

/-- Initialised bytes that are followed by a NUL hold a string. -/
theorem strdup_terminated (buffer : List UInt8) (rest : List (Option UInt8)) :
    strdup (buffer.map some ++ some 0 :: rest) = some (CStr.ofBuffer buffer) := by
  induction buffer with
  | nil => rfl
  | cons c buffer ih =>
      by_cases hc : c = 0
      · subst hc
        simp [strdup, CStr.ofBuffer]
      · simp only [List.map_cons, List.cons_append, strdup, hc, dite_false, ih,
          Option.map_some, Option.some.injEq]
        apply CStr.ext
        simp [CStr.cons, CStr.ofBuffer, hc]

/-- `strstr` for a needle of two bytes, on memory that may be read only as far
as the list goes: `none` is a read past its end, `some none` a search that a
NUL ends, and `some (some i)` a match at offset `i`. -/
def strstrPair (a b : UInt8) : List UInt8 → Option (Option ℕ)
  | [] => none
  | [c] => if c = 0 then some none else none
  | c :: d :: rest =>
      if c = 0 then some none
      else if c = a ∧ d = b then some (some 0)
      else (strstrPair a b (d :: rest)).map (·.map (· + 1))

/-- The search does not leave memory that ends with the needle. -/
theorem strstrPair_of_suffix {a b : UInt8} {text : List UInt8} (h : [a, b] <:+ text) :
    ∃ r, strstrPair a b text = some r := by
  fun_induction strstrPair a b text with
  | case1 => simp at h
  | case2 => exact ⟨none, rfl⟩
  | case3 c hzero => simpa using h.length_le
  | case4 d rest => exact ⟨none, rfl⟩
  | case5 c d rest hzero hmatch => exact ⟨some 0, rfl⟩
  | case6 c d rest hzero hmiss ih =>
      rcases List.suffix_cons_iff.mp h with heq | hsuf
      · simp only [List.cons.injEq] at heq
        exact absurd ⟨heq.1.symm, heq.2.1.symm⟩ hmiss
      · obtain ⟨r, hr⟩ := ih hsuf
        exact ⟨r.map (· + 1), by rw [hr]; rfl⟩

/-- A match is a place of the needle. -/
theorem strstrPair_match {a b : UInt8} {text : List UInt8} {i : ℕ}
    (h : strstrPair a b text = some (some i)) : [a, b] <+: text.drop i := by
  fun_induction strstrPair a b text generalizing i with
  | case1 => simp at h
  | case2 => simp at h
  | case3 c hzero => simp at h
  | case4 d rest => simp at h
  | case5 c d rest hzero hmatch =>
      obtain rfl : 0 = i := by simpa using h
      obtain ⟨rfl, rfl⟩ := hmatch
      exact ⟨rest, rfl⟩
  | case6 c d rest hzero hmiss ih =>
      obtain ⟨r, hr, hi⟩ := Option.map_eq_some_iff.mp h
      obtain ⟨j, rfl, rfl⟩ := Option.map_eq_some_iff.mp hi
      exact ih hr

/-- The search finds the needle behind a text without its first byte. -/
theorem strstrPair_of_notMem {a b : UInt8} {text : List UInt8} (hzero : (0 : UInt8) ∉ text)
    (htext : a ∉ text) (ha : a ≠ 0) (rest : List UInt8) :
    strstrPair a b (text ++ a :: b :: rest) = some (some text.length) := by
  induction text with
  | nil => simp [strstrPair, ha]
  | cons c text ih =>
      rw [List.mem_cons, not_or] at hzero htext
      obtain ⟨d, tail, htail⟩ : ∃ d tail, text ++ a :: b :: rest = d :: tail :=
        List.exists_cons_of_ne_nil (by simp)
      have hc : ¬ (c = a ∧ d = b) := fun h => htext.1 h.1.symm
      rw [List.cons_append, htail, strstrPair, if_neg (Ne.symm hzero.1), if_neg hc, ← htail,
        ih hzero.2 htext.2]
      rfl

/-! ## Decimal conversion -/

/-- The value of a run of decimal digits. -/
def digitsValue (ds : List UInt8) : ℕ := ds.foldl (fun n c => 10 * n + (c.toNat - 48)) 0

/-- `strtol(s, 0, 10)` with 64-bit saturation: blanks, a sign, digits. -/
def strtol (s : List UInt8) : ℤ :=
  match s.dropWhile isSpaceChar with
  | 45 :: rest => max (-9223372036854775808) (-(digitsValue (rest.takeWhile isDigit) : ℤ))
  | 43 :: rest => min 9223372036854775807 (digitsValue (rest.takeWhile isDigit))
  | rest => min 9223372036854775807 (digitsValue (rest.takeWhile isDigit))

/-- `atoi`: the low 32 bits of `strtol`. -/
def atoi (s : CStr) : ℤ := wrapInt (strtol s.val)

/-- The decimal digits that `%d` and `%u` print for `n`. -/
def decimalDigits (n : ℕ) : List UInt8 :=
  if n = 0 then [48] else ((Nat.digits 10 n).map fun d => UInt8.ofNat (48 + d)).reverse

theorem isDigit_of_lt : ∀ {d : ℕ}, d < 10 → isDigit (UInt8.ofNat (48 + d)) = true := by
  decide

theorem toNat_digit_of_lt : ∀ {d : ℕ}, d < 10 → (UInt8.ofNat (48 + d)).toNat - 48 = d := by
  decide

/-- A digit is neither a blank nor a sign for `strtol`, and not a NUL. -/
theorem digit_ne {c : UInt8} (h : isDigit c = true) :
    isSpaceChar c = false ∧ c ≠ 45 ∧ c ≠ 43 ∧ c ≠ 0 := by
  simp only [isDigit, Bool.and_eq_true, decide_eq_true_eq, UInt8.le_iff_toNat_le,
    UInt8.reduceToNat] at h
  simp only [isSpaceChar, Bool.or_eq_false_iff, beq_eq_false_iff_ne, ne_eq,
    Bool.and_eq_false_imp, decide_eq_true_eq, decide_eq_false_iff_not,
    UInt8.le_iff_toNat_le, ← UInt8.toNat_inj, UInt8.reduceToNat]
  omega

theorem isDigit_of_mem_decimalDigits {n : ℕ} {c : UInt8} (h : c ∈ decimalDigits n) :
    isDigit c = true := by
  unfold decimalDigits at h
  split_ifs at h with hn
  · rw [List.mem_singleton.mp h]
    decide
  · rw [List.mem_reverse, List.mem_map] at h
    obtain ⟨d, hd, rfl⟩ := h
    exact isDigit_of_lt (Nat.digits_lt_base (by decide) hd)

theorem digitsValue_digits (ds : List ℕ) (h : ∀ d ∈ ds, d < 10) :
    digitsValue (ds.map fun d => UInt8.ofNat (48 + d)).reverse = Nat.ofDigits 10 ds := by
  unfold digitsValue
  rw [List.foldl_reverse, List.foldr_map]
  induction ds with
  | nil => rfl
  | cons d ds ih =>
      rw [List.foldr_cons, ih (fun e he => h e (List.mem_cons_of_mem d he)),
        toNat_digit_of_lt (h d List.mem_cons_self), Nat.ofDigits_cons]
      simp [add_comm]

theorem digitsValue_decimalDigits (n : ℕ) : digitsValue (decimalDigits n) = n := by
  unfold decimalDigits
  split_ifs with hn
  · subst hn
    decide
  · rw [digitsValue_digits _ (fun d hd => Nat.digits_lt_base (by decide) hd),
      Nat.ofDigits_digits]

theorem decimalDigits_ne_nil (n : ℕ) : decimalDigits n ≠ [] := by
  unfold decimalDigits
  split_ifs with hn
  · simp
  · simpa [Nat.digits_eq_nil_iff_eq_zero] using hn

/-- The decimal text of `n`, as `sprintf` leaves it in its buffer. -/
def decimal (n : ℕ) : CStr :=
  ⟨decimalDigits n, fun h => (digit_ne (isDigit_of_mem_decimalDigits h)).2.2.2 rfl⟩

/-- A number in decimal, without a sign. -/
structure IsDecimal (s : CStr) : Prop where
  nonempty : s.val ≠ []
  digits : ∀ c ∈ s.val, isDigit c = true

theorem isDecimal_decimal (n : ℕ) : IsDecimal (decimal n) :=
  ⟨decimalDigits_ne_nil n, fun _ hc => isDigit_of_mem_decimalDigits hc⟩

/-- `atoi` of a decimal number saturates at 64 bits and keeps the low 32. -/
theorem atoi_eq {s : CStr} (h : IsDecimal s) :
    atoi s = wrapInt (min 9223372036854775807 (digitsValue s.val)) := by
  have htake : s.val.takeWhile isDigit = s.val := List.takeWhile_eq_self_iff.mpr h.digits
  cases hs : s.val with
  | nil => exact absurd hs h.nonempty
  | cons c rest =>
      obtain ⟨hspace, hminus, hplus, -⟩ := digit_ne (h.digits c (by simp [hs]))
      rw [hs] at htake
      have hdrop : (c :: rest).dropWhile isSpaceChar = c :: rest := by
        rw [List.dropWhile_cons_of_neg (by simp [hspace])]
      rw [atoi, hs, strtol, hdrop]
      split
      · rename_i heq
        exact absurd (List.cons.inj heq).1 hminus
      · rename_i heq
        exact absurd (List.cons.inj heq).1 hplus
      · rw [htake]

theorem atoi_of_le {s : CStr} (h : IsDecimal s) (hle : digitsValue s.val ≤ intMax) :
    atoi s = digitsValue s.val := by
  rw [intMax_eq] at hle
  rw [atoi_eq h, min_eq_right (by omega), wrapInt_natCast (by rw [intMax_eq]; omega)]

/-- Printing and scanning a non-negative `int` is the identity. -/
theorem atoi_decimal {n : ℕ} (h : n ≤ intMax) : atoi (decimal n) = n := by
  have hvalue : digitsValue (decimal n).val = n := digitsValue_decimalDigits n
  rw [atoi_of_le (isDecimal_decimal n) (by rw [hvalue]; exact h), hvalue]

theorem atoi_le (s : CStr) : atoi s ≤ intMax := by
  have hlt : atoi s < 2147483648 := Int.bmod_lt (by decide)
  rw [intMax_eq]
  omega

end CLang
