import LibSimple.Http.Chunking

/-!
# Memory safety of line parsing

Which streams make a sequence of calls of `httpc_parser_parse` run into an
undefined operation.  `StepSafe` is a condition on one byte and the state
before it; the streams all of whose bytes meet it are exactly the safe ones.
-/

namespace LibSimple.Http

open CLang Runs

/-- The calls on consecutive pieces of a stream meet no undefined operation. -/
def MemorySafe (pieces : List (List UInt8)) : Prop :=
  ∀ f, parsePieces none pieces ≠ .error f

/-- Every byte of the stream is safe in the state that the bytes before it lead
to. -/
def StepsSafe (data : List UInt8) : Prop :=
  ∀ pre c post s, data = pre ++ c :: post → run appendByte parserCreate pre = .ok s →
    StepSafe c s

theorem run_isOk_iff_stepsSafe {data : List UInt8} :
    (∃ t, run appendByte parserCreate data = .ok t) ↔ StepsSafe data := by
  rw [run_isOk_iff]
  constructor
  · intro h pre c post s hdata hs
    exact (appendByte_isOk_iff (invariant_run invariant_parserCreate hs)).mp
      (h pre c post s hdata hs)
  · intro h pre c post s hdata hs
    exact (appendByte_isOk_iff (invariant_run invariant_parserCreate hs)).mpr
      (h pre c post s hdata hs)

theorem isOk_iff_forall_ne_error {Error α : Type*} {x : Except Error α} :
    (∃ a, x = .ok a) ↔ ∀ e, x ≠ .error e := by
  cases x with
  | error e => simp
  | ok a => simp

/-- The calls succeed exactly when the single bytes do. -/
theorem memorySafe_iff_run {pieces : List (List UInt8)} :
    MemorySafe pieces ↔ ∃ t, run appendByte parserCreate pieces.flatten = .ok t := by
  rw [MemorySafe, ← isOk_iff_forall_ne_error]
  by_cases hnil : pieces = []
  · subst hnil
    exact ⟨fun _ => ⟨parserCreate, rfl⟩, fun _ => ⟨(none, 0), rfl⟩⟩
  · rw [parsePieces_none hnil, ← appendBytes_fst]
    cases appendBytes parserCreate pieces.flatten with
    | error f => simp
    | ok r => simp

/-- A stream is handled safely, however it is cut, exactly when no byte reaches
a line that has no room left and no line is finished that has no colon, a name
of one character or a blank value. -/
theorem memorySafe_iff_stepsSafe (pieces : List (List UInt8)) :
    MemorySafe pieces ↔ StepsSafe pieces.flatten := by
  rw [memorySafe_iff_run, run_isOk_iff_stepsSafe]

/-- A header line without a value makes the value loop leave the line. -/
theorem not_memorySafe_emptyValue :
    ¬ MemorySafe [bytes ['G', ' ', '/', ' ', 'H'] ++ [cr, lf] ++ bytes ['A', 'B', ':'] ++
      [cr, lf] ++ bytes ['X']] :=
  fun h => h .lineReadOutOfBounds (by decide +kernel)

end LibSimple.Http
