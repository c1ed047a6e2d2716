import LibSimple.Tcp.Model
import Mathlib.Tactic.Ring

/-!
# Exact transfers

`simple_tcpclient_sendnt` and `simple_tcpclient_recvnt` move the bytes of a buffer
in as many pieces as the system chooses, and keep count of them.
-/

namespace LibSimple.Tcp

open StoreTrace

variable {α : Type}

/-! ## What the system does -/

/-- A round without progress and the result that it leads to. -/
inductive Stops (nothing : α → Prop) : Round α → ℤ → Prop
  | timeout : Stops nothing .timeout (-2)
  | selectError : Stops nothing .selectError (-1)
  | error : Stops nothing .error (-1)
  | nothing {x : α} (h : nothing x) : Stops nothing (.moved x) 0

/-- What the system moves when it is asked for some bytes: no more than that, and
none exactly in a round of the kind `nothing`. -/
structure Moves (move : α → ℕ → ℕ → List UInt8) (nothing : α → Prop) : Prop where
  length_le : ∀ x next len, (move x next len).length ≤ len
  nothing_iff : ∀ x next len, 0 < len → (move x next len = [] ↔ nothing x)

/-- The bytes that the system moves in these rounds, one after another, when it is
asked each time for what is left of `rest` bytes from index `next` on. -/
def movedIn (move : α → ℕ → ℕ → List UInt8) (tv : Timeval) : Rounds α → ℕ → ℕ → List UInt8
  | [], _, _ => []
  | round :: rounds, next, rest =>
      match round tv with
      | .moved x =>
          let bytes := move x next rest
          bytes ++ movedIn move tv rounds (next + bytes.length) (rest - bytes.length)
      | _ => movedIn move tv rounds next rest

/-- None of these rounds stops a transfer. -/
def Unstopped (nothing : α → Prop) (tv : Timeval) (rounds : Rounds α) : Prop :=
  ∀ round ∈ rounds, ∀ rc, ¬ Stops nothing (round tv) rc

/-- The last of these rounds, and no other, stops a transfer, with this result. -/
def StoppedBy (nothing : α → Prop) (tv : Timeval) (rounds : Rounds α) (rc : ℤ) : Prop :=
  ∃ front last, rounds = front ++ [last] ∧ Unstopped nothing tv front ∧
    Stops nothing (last tv) rc

/-- There are rounds enough for a transfer of `len` bytes to come to an end: they move
all of the bytes, or one of them stops it. -/
def Suffice (move : α → ℕ → ℕ → List UInt8) (nothing : α → Prop) (tv : Timeval) (len : ℤ)
    (rounds : Rounds α) : Prop :=
  (movedIn move tv rounds 0 len.toNat).length = len ∨
    ∃ round ∈ rounds, ∃ rc, Stops nothing (round tv) rc

section Rounds

variable {move : α → ℕ → ℕ → List UInt8} {nothing : α → Prop} {tv : Timeval}

theorem Stops.nonpos {round : Round α} {rc : ℤ} (h : Stops nothing round rc) : rc ≤ 0 := by
  cases h <;> decide

theorem movedIn_append (front back : Rounds α) (next rest : ℕ) :
    movedIn move tv (front ++ back) next rest =
      movedIn move tv front next rest ++
        movedIn move tv back (next + (movedIn move tv front next rest).length)
          (rest - (movedIn move tv front next rest).length) := by
  induction front generalizing next rest with
  | nil => rfl
  | cons round front ih =>
      rw [List.cons_append, movedIn, movedIn]
      cases round tv with
      | moved x =>
          simp only [ih, List.append_assoc, List.length_append, Nat.add_assoc, Nat.sub_sub]
      | _ => exact ih next rest

theorem length_movedIn_le (hmove : Moves move nothing) (rounds : Rounds α) (next rest : ℕ) :
    (movedIn move tv rounds next rest).length ≤ rest := by
  induction rounds generalizing next rest with
  | nil => exact Nat.zero_le rest
  | cons round rounds ih =>
      rw [movedIn]
      cases round tv with
      | moved x =>
          have hle := hmove.length_le x next rest
          have hrest := ih (next + (move x next rest).length) (rest - (move x next rest).length)
          rw [List.length_append]
          omega
      | _ => exact ih next rest

theorem unstopped_nil : Unstopped nothing tv [] := fun _ h => absurd h List.not_mem_nil

theorem Unstopped.append {front back : Rounds α} (h : Unstopped nothing tv front)
    (h' : Unstopped nothing tv back) : Unstopped nothing tv (front ++ back) :=
  fun round hround => (List.mem_append.mp hround).elim (h round) (h' round)

theorem StoppedBy.append {front back : Rounds α} {rc : ℤ} (h : Unstopped nothing tv front)
    (h' : StoppedBy nothing tv back rc) : StoppedBy nothing tv (front ++ back) rc := by
  obtain ⟨middle, last, rfl, hmiddle, hstops⟩ := h'
  exact ⟨front ++ middle, last, (List.append_assoc _ _ _).symm, h.append hmiddle, hstops⟩

theorem unstopped_again {round : Timeval → Round α} (h : round tv = .again) :
    Unstopped nothing tv [round] := by
  intro round' hmem rc hstops
  rw [List.mem_singleton.mp hmem, h] at hstops
  cases hstops

end Rounds

/-! ## One call -/

/-- What a call for `len` bytes at index `next` has done when it returns `rc`: it has
used up some rounds and moved the bytes that the system moves in them, each at its
place; it fails in the round that stops it. -/
structure Called (move : α → ℕ → ℕ → List UInt8) (nothing : α → Prop) (tv : Timeval)
    (next len : ℕ) (rounds : Rounds α) (rc : ℤ) (t : Transfer α) : Prop where
  count : t.count = t.moved.length
  trace : t.trace = stores next t.moved
  used : ∃ used, rounds = used ++ t.ahead ∧ t.moved = movedIn move tv used next len ∧
    (0 < rc ∧ Unstopped nothing tv used ∨ t.moved = [] ∧ StoppedBy nothing tv used rc)

section Call

variable {move : α → ℕ → ℕ → List UInt8} {nothing : α → Prop} {tv : Timeval}

/-- A round that is to be tried again leaves the call as it is. -/
theorem Called.again {next len : ℕ} {rounds : Rounds α} {rc : ℤ} {t : Transfer α}
    (h : Called move nothing tv next len rounds rc t) {round : Timeval → Round α}
    (hround : round tv = .again) : Called move nothing tv next len (round :: rounds) rc t := by
  obtain ⟨used, hrounds, hmoved, hrc⟩ := h.used
  have hagain : Unstopped nothing tv [round] := unstopped_again hround
  refine ⟨h.count, h.trace, round :: used, by rw [hrounds]; rfl, ?_, ?_⟩
  · rw [hmoved, movedIn, hround]
  · exact hrc.imp (And.imp_right hagain.append) (And.imp_right (.append hagain))

theorem called_of_transfert (hmove : Moves move nothing) {next len : ℕ} (hlen : 0 < len)
    {rounds : Rounds α} {rc : ℤ} {t : Transfer α}
    (h : transfert move next len tv rounds = some (rc, t)) :
    Called move nothing tv next len rounds rc t := by
  induction rounds with
  | nil => cases h
  | cons round rounds ih =>
      have hstop : ∀ rc', Stops nothing (round tv) rc' → movedIn move tv [round] next len = [] →
          some (rc', (⟨0, [], [], rounds⟩ : Transfer α)) = some (rc, t) →
          Called move nothing tv next len (round :: rounds) rc t := by
        rintro rc' hstops hnone heq
        cases heq
        exact ⟨rfl, rfl, [round], rfl, hnone.symm,
          .inr ⟨rfl, [], round, rfl, unstopped_nil, hstops⟩⟩
      rw [transfert] at h
      cases hround : round tv with
      | timeout =>
          rw [hround] at h
          exact hstop (-2) (hround ▸ .timeout) (by rw [movedIn, hround, movedIn]) h
      | selectError =>
          rw [hround] at h
          exact hstop (-1) (hround ▸ .selectError) (by rw [movedIn, hround, movedIn]) h
      | error =>
          rw [hround] at h
          exact hstop (-1) (hround ▸ .error) (by rw [movedIn, hround, movedIn]) h
      | again =>
          rw [hround] at h
          exact (ih h).again hround
      | moved x =>
          rw [hround] at h
          have hbytes : movedIn move tv [round] next len = move x next len := by
            rw [movedIn, hround]
            exact List.append_nil _
          by_cases hnone : move x next len = []
          · have hx : nothing x := (hmove.nothing_iff x next len hlen).mp hnone
            simp only [hnone] at h
            exact hstop 0 (hround ▸ .nothing hx) (hbytes.trans hnone) h
          · cases h
            refine ⟨rfl, rfl, [round], rfl, hbytes.symm, .inl ⟨?_, ?_⟩⟩
            · exact Int.natCast_pos.mpr (List.length_pos_iff_ne_nil.mpr hnone)
            · intro round' hmem rc hstops
              rw [List.mem_singleton.mp hmem, hround] at hstops
              cases hstops with
              | nothing hx => exact hnone ((hmove.nothing_iff x next len hlen).mpr hx)

/-- A call that does not return has found nothing but rounds that are to be tried
again. -/
theorem none_of_transfert {next len : ℕ} {rounds : Rounds α}
    (h : transfert move next len tv rounds = none) :
    Unstopped nothing tv rounds ∧ movedIn move tv rounds next len = [] := by
  induction rounds with
  | nil => exact ⟨unstopped_nil, rfl⟩
  | cons round rounds ih =>
      rw [transfert] at h
      cases hround : round tv with
      | again =>
          rw [hround] at h
          obtain ⟨hrest, hmoved⟩ := ih h
          exact ⟨(unstopped_again hround).append hrest, by rw [movedIn, hround, hmoved]⟩
      | _ =>
          rw [hround] at h
          cases h

/-- A call that returns has used up a round. -/
theorem length_ahead_lt {next len : ℕ} {rounds : Rounds α} {rc : ℤ} {t : Transfer α}
    (h : transfert move next len tv rounds = some (rc, t)) :
    t.ahead.length < rounds.length := by
  induction rounds with
  | nil => cases h
  | cons round rounds ih =>
      rw [transfert] at h
      cases hround : round tv with
      | again =>
          rw [hround] at h
          exact (ih h).trans (Nat.lt_succ_self _)
      | _ =>
          rw [hround] at h
          cases h
          exact Nat.lt_succ_self _

end Call

/-! ## The loop -/

/-- The state of the loop: the rounds used up so far have not stopped it, and the bytes
that the system has moved in them are those in front of `next`. -/
structure Sofar (move : α → ℕ → ℕ → List UInt8) (nothing : α → Prop) (tv : Timeval) (len : ℤ)
    (rounds : Rounds α) (rest : ℤ) (next : ℕ) (s : Transfer α) : Prop where
  rest : rest + s.count = len ∧ 0 ≤ rest
  next : next = s.moved.length
  count : s.count = s.moved.length
  trace : s.trace = stores 0 s.moved
  used : ∃ used, rounds = used ++ s.ahead ∧ s.moved = movedIn move tv used 0 len.toNat ∧
    Unstopped nothing tv used

/-- What a call of the loop leaves when it returns. -/
structure Exact (move : α → ℕ → ℕ → List UInt8) (nothing : α → Prop) (tv : Timeval) (len : ℤ)
    (rounds : Rounds α) (rc : ℤ) (t : Transfer α) : Prop where
  /-- the count is the number of bytes moved, each at its place in the buffer -/
  count : t.count = t.moved.length ∧ t.count ≤ len
  trace : t.trace = stores 0 t.moved
  /-- these are the bytes that the system has moved in the rounds used up; no round
  stops the loop when the count is `len`, else the last of them does -/
  used : ∃ used, rounds = used ++ t.ahead ∧ t.moved = movedIn move tv used 0 len.toNat ∧
    (t.count = len ∧ Unstopped nothing tv used ∨ t.count ≠ len ∧ StoppedBy nothing tv used rc)
  result : rc = len ↔ t.count = len

section Loop

variable {move : α → ℕ → ℕ → List UInt8} {nothing : α → Prop} {tv : Timeval} {len : ℤ}
  {rounds : Rounds α} {rest : ℤ} {next : ℕ} {s : Transfer α} {rc : ℤ} {t : Transfer α}

/-- The rounds before a call and those of the call, together. -/
theorem Sofar.movedIn_append (hs : Sofar move nothing tv len rounds rest next s)
    {used used' : Rounds α} (hmoved : s.moved = movedIn move tv used 0 len.toNat)
    {bytes : List UInt8} (hbytes : bytes = movedIn move tv used' next rest.toNat) :
    s.moved ++ bytes = movedIn move tv (used ++ used') 0 len.toNat := by
  have hrest : rest.toNat = len.toNat - s.moved.length := by
    have hlen := hs.rest
    have hcount := hs.count
    omega
  rw [Tcp.movedIn_append, ← hmoved, Nat.zero_add, ← hs.next, hbytes, hrest, hs.next]

/-- One call that makes progress keeps the state of the loop. -/
theorem Sofar.then (hmove : Moves move nothing) (hs : Sofar move nothing tv len rounds rest next s)
    (h : Called move nothing tv next rest.toNat s.ahead rc t) (hrc : rc > 0) :
    Sofar move nothing tv len rounds (rest - t.count) (next + t.count.toNat) (s.then t) := by
  obtain ⟨used, hrounds, hmoved, hunstopped⟩ := hs.used
  obtain ⟨used', hahead, hmoved', hrc'⟩ := h.used
  have hon : Unstopped nothing tv used' := by
    rcases hrc' with ⟨-, hon⟩ | ⟨-, -, last, -, -, hstops⟩
    · exact hon
    · exact absurd hstops.nonpos (not_le.mpr hrc)
  have hle : (movedIn move tv used' next rest.toNat).length ≤ rest.toNat :=
    length_movedIn_le hmove used' next rest.toNat
  rw [← hmoved'] at hle
  have hcount := h.count
  have hrest := hs.rest
  have hscount := hs.count
  refine ⟨⟨?_, by omega⟩, ?_, ?_, ?_, used ++ used', ?_, hs.movedIn_append hmoved hmoved',
    hunstopped.append hon⟩
  · show rest - t.count + (s.count + t.count) = len
    omega
  · show next + t.count.toNat = (s.moved ++ t.moved).length
    rw [List.length_append, hs.next, hcount, Int.toNat_natCast]
  · show s.count + t.count = (s.moved ++ t.moved).length
    rw [List.length_append]
    omega
  · show s.trace ++ t.trace = stores 0 (s.moved ++ t.moved)
    rw [hs.trace, h.trace, hs.next, stores_append, Nat.zero_add]
  · show rounds = used ++ used' ++ t.ahead
    rw [hrounds, hahead, List.append_assoc]

/-- A call without progress ends the loop. -/
theorem Sofar.stop (hs : Sofar move nothing tv len rounds rest next s) (hrest : rest > 0)
    (h : Called move nothing tv next rest.toNat s.ahead rc t) (hrc : ¬ rc > 0) :
    Exact move nothing tv len rounds rc { s.then t with count := s.count } := by
  obtain ⟨used, hrounds, hmoved, hunstopped⟩ := hs.used
  obtain ⟨used', hahead, hmoved', hrc'⟩ := h.used
  obtain ⟨hnil, hstopped⟩ := hrc'.resolve_left fun hon => hrc hon.1
  have hsame : s.moved ++ t.moved = s.moved := by rw [hnil, List.append_nil]
  have hlen := hs.rest
  have hcount := hs.count
  refine ⟨⟨?_, by show s.count ≤ len; omega⟩, ?_, ⟨used ++ used', ?_,
    hs.movedIn_append hmoved hmoved', .inr ⟨?_, .append hunstopped hstopped⟩⟩, ?_⟩
  · show s.count = (s.moved ++ t.moved).length
    rw [hsame, hcount]
  · show s.trace ++ t.trace = stores 0 (s.moved ++ t.moved)
    rw [hsame, h.trace, hnil, hs.trace]
    exact List.append_nil _
  · show rounds = used ++ used' ++ t.ahead
    rw [hrounds, hahead, List.append_assoc]
  · show s.count ≠ len
    omega
  · show rc = len ↔ s.count = len
    omega

/-- The loop is over when nothing is left to move. -/
theorem Sofar.done (hs : Sofar move nothing tv len rounds rest next s) (hrest : ¬ rest > 0) :
    Exact move nothing tv len rounds len s := by
  obtain ⟨used, hrounds, hmoved, hunstopped⟩ := hs.used
  have hlen := hs.rest
  have hcount : s.count = len := by omega
  exact ⟨⟨hs.count, hcount.le⟩, hs.trace, ⟨used, hrounds, hmoved, .inl ⟨hcount, hunstopped⟩⟩,
    iff_of_true rfl hcount⟩

theorem exact_of_transferLoop (hmove : Moves move nothing) {fuel : ℕ}
    (hs : Sofar move nothing tv len rounds rest next s)
    (h : transferLoop (transfert move · · tv) len fuel rest next s = some (rc, t)) :
    Exact move nothing tv len rounds rc t := by
  induction fuel generalizing rest next s with
  | zero =>
      rw [transferLoop] at h
      by_cases hrest : rest > 0
      · rw [if_pos hrest] at h
        cases h
      · rw [if_neg hrest] at h
        cases h
        exact hs.done hrest
  | succ fuel ih =>
      rw [transferLoop] at h
      by_cases hrest : rest > 0
      · rw [if_pos hrest] at h
        obtain ⟨⟨rc', t'⟩, hone, h⟩ := Option.bind_eq_some_iff.mp h
        have hcalled := called_of_transfert hmove (Int.pos_iff_toNat_pos.mp hrest) hone
        dsimp only at h
        by_cases hrc : rc' > 0
        · rw [if_pos hrc] at h
          exact ih (hs.then hmove hcalled hrc) h
        · rw [if_neg hrc] at h
          cases h
          exact hs.stop hrest hcalled hrc
      · rw [if_neg hrest] at h
        cases h
        exact hs.done hrest

/-- The loop ends unless it comes to the end of the rounds with bytes left. -/
theorem none_of_transferLoop (hmove : Moves move nothing) {fuel : ℕ}
    (hs : Sofar move nothing tv len rounds rest next s) (hfuel : s.ahead.length ≤ fuel)
    (h : transferLoop (transfert move · · tv) len fuel rest next s = none) :
    Unstopped nothing tv rounds ∧ (movedIn move tv rounds 0 len.toNat).length < len := by
  -- a loop that finds no further round leaves what it has moved so far
  have hleft : ∀ {rest next s}, Sofar move nothing tv len rounds rest next s → rest > 0 →
      Unstopped nothing tv s.ahead → movedIn move tv s.ahead next rest.toNat = [] →
      Unstopped nothing tv rounds ∧ (movedIn move tv rounds 0 len.toNat).length < len := by
    intro rest next s hs hrest hahead hnil
    obtain ⟨used, hrounds, hmoved, hunstopped⟩ := hs.used
    have hall := hs.movedIn_append hmoved hnil.symm
    rw [List.append_nil, ← hrounds] at hall
    have hlen := hs.rest
    have hcount := hs.count
    rw [← hall, hrounds]
    exact ⟨hunstopped.append hahead, by omega⟩
  induction fuel generalizing rest next s with
  | zero =>
      have hnone : s.ahead = [] := List.eq_nil_of_length_eq_zero (Nat.le_zero.mp hfuel)
      rw [transferLoop] at h
      by_cases hrest : rest > 0
      · refine hleft hs hrest ?_ ?_
        · rw [hnone]
          exact unstopped_nil
        · rw [hnone]
          rfl
      · rw [if_neg hrest] at h
        cases h
  | succ fuel ih =>
      rw [transferLoop] at h
      by_cases hrest : rest > 0
      · rw [if_pos hrest] at h
        cases hone : transfert move next rest.toNat tv s.ahead with
        | none =>
            obtain ⟨hahead, hnil⟩ := none_of_transfert hone
            exact hleft hs hrest hahead hnil
        | some r =>
            obtain ⟨rc', t'⟩ := r
            have hcalled := called_of_transfert hmove (Int.pos_iff_toNat_pos.mp hrest) hone
            simp only [hone, Option.bind_eq_bind, Option.bind_some] at h
            by_cases hrc : rc' > 0
            · rw [if_pos hrc] at h
              have hshorter := length_ahead_lt hone
              exact ih (hs.then hmove hcalled hrc) (by show t'.ahead.length ≤ fuel; omega) h
            · rw [if_neg hrc] at h
              cases h
      · rw [if_neg hrest] at h
        cases h

theorem sofar_start (hlen : 0 ≤ len) (rounds : Rounds α) :
    Sofar move nothing tv len rounds len 0 ⟨0, [], [], rounds⟩ :=
  ⟨⟨add_zero len, hlen⟩, rfl, rfl, rfl, [], rfl, rfl, unstopped_nil⟩

/-- `simple_tcpclient_sendnt` and `simple_tcpclient_recvnt` in general. -/
theorem exact_of_transfernt (hmove : Moves move nothing) (hlen : 0 ≤ len)
    (h : transfernt (transfert move · · tv) len rounds = some (rc, t)) :
    Exact move nothing tv len rounds rc t :=
  exact_of_transferLoop hmove (sofar_start hlen rounds) h

theorem isSome_transfernt_iff (hmove : Moves move nothing) (hlen : 0 ≤ len) :
    (transfernt (transfert move · · tv) len rounds).isSome ↔
      Suffice move nothing tv len rounds := by
  constructor
  · intro h
    obtain ⟨⟨rc, t⟩, hsome⟩ := Option.isSome_iff_exists.mp h
    have hexact := exact_of_transfernt hmove hlen hsome
    obtain ⟨used, hrounds, hmoved, ⟨hall, -⟩ | ⟨-, front, last, hused, -, hstops⟩⟩ := hexact.used
    · -- all bytes have been moved, so the rounds ahead move none
      left
      have hle : (movedIn move tv rounds 0 len.toNat).length ≤ len.toNat :=
        length_movedIn_le hmove rounds 0 len.toNat
      have hcount := hexact.count.1
      rw [hrounds, movedIn_append, ← hmoved, List.length_append] at hle ⊢
      omega
    · right
      refine ⟨last, ?_, rc, hstops⟩
      rw [hrounds, hused]
      simp
  · intro h
    by_contra hnone
    rw [Option.not_isSome_iff_eq_none] at hnone
    obtain ⟨hunstopped, hlt⟩ :=
      none_of_transferLoop hmove (sofar_start hlen rounds) le_rfl hnone
    rcases h with hall | ⟨round, hround, rc, hstops⟩
    · exact hlt.ne hall
    · exact hunstopped round hround rc hstops

end Loop

/-! ## Sending and receiving -/

/-- The bytes are those of the buffer from its start on, each of them once and in
order. -/
def FromStart (data : ℕ → UInt8) (bytes : List UInt8) : Prop :=
  bytes = (List.range bytes.length).map data

/-- What `simple_tcpclient_sendnt` has done when it returns. -/
def SentExactly (data : ℕ → UInt8) (timeout len : ℤ) (rounds : Rounds ℕ) (rc : ℤ)
    (t : Transfer ℕ) : Prop :=
  Exact (send data) (· = 0) (timevalOf timeout) len rounds rc t ∧ FromStart data t.moved

/-- The bytes that are received stand in the buffer from its start on, and nothing has
been stored behind them. -/
def ReceivedExactly (timeout len : ℤ) (rounds : Rounds (List UInt8)) (rc : ℤ)
    (t : Transfer (List UInt8)) : Prop :=
  Exact recv (· = []) (timevalOf timeout) len rounds rc t ∧
    ∀ i, contents i t.trace = t.moved[i]?

theorem moves_send (data : ℕ → UInt8) : Moves (send data) (· = 0) where
  length_le room next len := by simp [send]
  nothing_iff room next len hlen := by
    rw [send, List.map_eq_nil_iff, List.range'_eq_nil_iff]
    omega

theorem moves_recv : Moves recv (· = []) where
  length_le bytes next len := by simp [recv]
  nothing_iff bytes next len hlen := by
    rw [recv, List.take_eq_nil_iff]
    exact or_iff_right hlen.ne'

/-- What is sent stands in the buffer one behind another. -/
theorem movedIn_send (data : ℕ → UInt8) (tv : Timeval) (rounds : Rounds ℕ) (next rest : ℕ) :
    movedIn (send data) tv rounds next rest =
      (List.range' next (movedIn (send data) tv rounds next rest).length).map data := by
  induction rounds generalizing next rest with
  | nil => rfl
  | cons round rounds ih =>
      rw [movedIn]
      cases round tv with
      | moved room =>
          have hfirst : send data room next rest =
              (List.range' next (send data room next rest).length).map data := by simp [send]
          rw [List.length_append, ← List.range'_append_1, List.map_append, ← hfirst, ← ih]
      | _ => exact ih next rest

theorem sentExactly_of_sendnt {data : ℕ → UInt8} {timeout len : ℤ} (hlen : 0 ≤ len)
    {rounds : Rounds ℕ} {rc : ℤ} {t : Transfer ℕ}
    (h : simpleTcpclientSendnt data len timeout rounds = some (rc, t)) :
    SentExactly data timeout len rounds rc t := by
  have hexact := exact_of_transfernt (moves_send data) hlen h
  obtain ⟨used, -, hmoved, -⟩ := hexact.used
  refine ⟨hexact, ?_⟩
  rw [FromStart, List.range_eq_range', hmoved]
  exact movedIn_send data _ used 0 _

theorem receivedExactly_of_recvnt {timeout len : ℤ} (hlen : 0 ≤ len)
    {rounds : Rounds (List UInt8)} {rc : ℤ} {t : Transfer (List UInt8)}
    (h : simpleTcpclientRecvnt len timeout rounds = some (rc, t)) :
    ReceivedExactly timeout len rounds rc t := by
  have hexact := exact_of_transfernt moves_recv hlen h
  refine ⟨hexact, fun i => ?_⟩
  rw [hexact.trace, contents_stores, if_pos (Nat.zero_le i), Nat.sub_zero]

/-- However the system cuts a transfer into pieces, a call returns when there are rounds
enough, has then moved the bytes that it counts, exactly those that the system has moved
and in order, and returns `len` only for all of them. -/
theorem exact_transfers {len : ℤ} (hlen : 0 ≤ len) (timeout : ℤ) (data : ℕ → UInt8) :
    (∀ rounds, ((simpleTcpclientSendnt data len timeout rounds).isSome ↔
        Suffice (send data) (· = 0) (timevalOf timeout) len rounds) ∧
      ∀ rc t, simpleTcpclientSendnt data len timeout rounds = some (rc, t) →
        SentExactly data timeout len rounds rc t) ∧
    (∀ rounds, ((simpleTcpclientRecvnt len timeout rounds).isSome ↔
        Suffice recv (· = []) (timevalOf timeout) len rounds) ∧
      ∀ rc t, simpleTcpclientRecvnt len timeout rounds = some (rc, t) →
        ReceivedExactly timeout len rounds rc t) ∧
    (∀ rounds, ((simpleTcpclientSendn data len rounds).isSome ↔
        Suffice (send data) (· = 0) (timevalOf 0x7fffffff) len rounds) ∧
      ∀ rc t, simpleTcpclientSendn data len rounds = some (rc, t) →
        SentExactly data 0x7fffffff len rounds rc t) ∧
    ∀ rounds, ((simpleTcpclientRecvn len rounds).isSome ↔
        Suffice recv (· = []) (timevalOf 0x7fffffff) len rounds) ∧
      ∀ rc t, simpleTcpclientRecvn len rounds = some (rc, t) →
        ReceivedExactly 0x7fffffff len rounds rc t := by
  refine ⟨fun rounds => ⟨?_, ?_⟩, fun rounds => ⟨?_, ?_⟩, fun rounds => ⟨?_, ?_⟩,
    fun rounds => ⟨?_, ?_⟩⟩
  · exact isSome_transfernt_iff (moves_send data) hlen
  · exact fun _ _ h => sentExactly_of_sendnt hlen h
  · exact isSome_transfernt_iff moves_recv hlen
  · exact fun _ _ h => receivedExactly_of_recvnt hlen h
  · exact isSome_transfernt_iff (moves_send data) hlen
  · exact fun _ _ h => sentExactly_of_sendnt hlen h
  · exact isSome_transfernt_iff moves_recv hlen
  · exact fun _ _ h => receivedExactly_of_recvnt hlen h

/-- Five bytes in two pieces, with a retry in between. -/
theorem exact_transfers_five :
    let data : ℕ → UInt8 := fun i => i.toUInt8
    let rounds : Rounds ℕ := [fun _ => .moved 2, fun _ => .again, fun _ => .moved 9]
    ∃ t, simpleTcpclientSendnt data 5 1000 rounds = some (5, t) ∧ t.moved = [0, 1, 2, 3, 4] ∧
      SentExactly data 1000 5 rounds 5 t := by
  intro data rounds
  exact ⟨_, rfl, by decide, ((exact_transfers (by decide) 1000 data).1 rounds).2 5 _ rfl⟩

end LibSimple.Tcp
