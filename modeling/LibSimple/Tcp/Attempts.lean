import LibSimple.Tcp.Ownership

/-!
# Which connection is returned

`simple_tcpclient_open` goes through the addresses of the resolver until one
accepts the connection.  A socket that `select` reports writable counts as
connected there, although it is reported so as well when the connection has been
refused.
-/

namespace LibSimple.Tcp

open Handles

/-! ## Attempts -/

/-- What comes of one address: no socket; a connection at once, or none; or one in
progress, on which `select` times out, fails, or reports the socket writable, and
then `SO_ERROR` says whether the connection has been made. -/
inductive Attempt
  | noSocket
  | connected (sock : ℕ)
  | failed (sock : ℕ)
  | timedOut (sock : ℕ)
  | selectFailed (sock : ℕ)
  | writable (sock : ℕ) (soError : ℤ)
  deriving DecidableEq

namespace Attempt

/-- The results of the system calls. -/
def outcome : Attempt → Outcome
  | noSocket => ⟨none, 0, false, 0, false⟩
  | connected sock => ⟨some sock, 0, false, 0, false⟩
  | failed sock => ⟨some sock, -1, false, 0, false⟩
  | timedOut sock => ⟨some sock, -1, true, 0, false⟩
  | selectFailed sock => ⟨some sock, -1, true, -1, false⟩
  | writable sock _ => ⟨some sock, -1, true, 1, true⟩

/-- The TCP connection has been made. -/
def Connected : Attempt → Prop
  | connected _ => True
  | writable _ soError => soError = 0
  | _ => False

/-- The connection has been refused while the socket is reported writable. -/
def RefusedWritable : Attempt → Prop
  | writable _ soError => soError ≠ 0
  | _ => False

/-- `_connect` takes the attempt for a connection. -/
def Accepted : Attempt → Prop
  | connected _ | writable _ _ => True
  | _ => False

theorem accepted_iff {a : Attempt} : a.Accepted ↔ a.Connected ∨ a.RefusedWritable := by
  cases a with
  | writable sock soError => exact (iff_true_intro trivial).trans (iff_true_intro (em _)).symm
  | _ => simp [Accepted, Connected, RefusedWritable]

theorem Connected.not_refused {a : Attempt} (h : a.Connected) : ¬ a.RefusedWritable := by
  cases a with
  | writable sock soError => exact fun hrefused => hrefused h
  | _ => exact id

end Attempt

/-- What `getaddrinfo` comes to: addresses, or an error code and no list. -/
inductive Resolved
  | addrs (attempts : List Attempt)
  | error (code : ℤ) (h : code ≠ 0)

/-- How many sockets the attempts make. -/
def sockets (attempts : List Attempt) : ℕ :=
  attempts.countP fun a => (a.outcome.socket).isSome

/-- `a` is the first attempt with the property, behind those of `pre`. -/
structure FirstWith (P : Attempt → Prop) (attempts pre : List Attempt) (a : Attempt) : Prop where
  before : ∀ b ∈ pre, ¬ P b
  here : P a
  split : ∃ post, attempts = pre ++ a :: post

/-- The client, if there is one, has the socket of the first attempt that made a
connection, the last socket that was made; there is none if none made one. -/
structure ReturnsFirst (attempts : List Attempt) (tc : Option TcpClient)
    (d : Ledger Handle) : Prop where
  client : ∀ c, tc = some c → ∃ pre a sock, FirstWith Attempt.Connected attempts pre a ∧
    a.outcome.socket = some sock ∧ c.sock = sock ∧ d.created = sockets (pre ++ [a])
  null : tc = none → ∀ a ∈ attempts, ¬ a.Connected

/-- `simple_tcpclient_open` returns the right client, and null on a resolver error,
without reading the list that is not set then. -/
def OpensFirst : Resolved → Prop
  | .addrs attempts => ∃ tc d,
      simpleTcpclientOpen 0 (some (attempts.map Attempt.outcome)) .start = some (tc, d) ∧
        ReturnsFirst attempts tc d
  | .error code _ => ∃ d, simpleTcpclientOpen code none .start = some (none, d)

/-- The resolver error is the one that the code compares with; and no connection
that was refused is reported writable before another one has been made. -/
def Unmistakable : Resolved → Prop
  | .addrs attempts => ∀ pre a post, attempts = pre ++ a :: post →
      (∀ b ∈ pre, ¬ b.Connected) → ¬ a.RefusedWritable
  | .error code _ => code = -1

/-! ## The loop over the attempts -/

/-- `_connect` fails on the attempts that it does not accept. -/
theorem connect_neg_iff {a : Attempt} {sock : ℕ} (h : a.outcome.socket = some sock)
    (d : Ledger Handle) : (connect sock a.outcome d).1 < 0 ↔ ¬ a.Accepted := by
  cases a with
  | noSocket => cases h
  | connected n | writable n e => simp [connect, Attempt.outcome, Attempt.Accepted]
  | failed n | timedOut n | selectFailed n =>
      simp [connect, Attempt.outcome, Attempt.Accepted]

theorem tryConnectLoop_of_rejected {a : Attempt} (ha : ¬ a.Accepted) (d : Ledger Handle)
    (rest : List Outcome) :
    ∃ d', d'.created = d.created + sockets [a] ∧
      tryConnectLoop (-1) (a.outcome :: rest) d = tryConnectLoop (-1) rest d' := by
  cases hsock : a.outcome.socket with
  | none =>
      refine ⟨d, ?_, tryConnectLoop_none hsock⟩
      simp [sockets, hsock]
  | some n =>
      have hrc := (connect_neg_iff hsock (d.create (.socket n))).mpr ha
      refine ⟨((connect n a.outcome (d.create (.socket n))).2).close (.socket n), ?_, ?_⟩
      · rw [connect_snd]
        simp [sockets, hsock, Ledger.create, Ledger.close]
      · rw [tryConnectLoop, hsock]
        exact if_pos hrc

theorem tryConnectLoop_of_accepted {a : Attempt} (ha : a.Accepted) (d : Ledger Handle)
    (rest : List Outcome) :
    ∃ sock d', a.outcome.socket = some sock ∧ d'.created = d.created + sockets [a] ∧
      tryConnectLoop (-1) (a.outcome :: rest) d = ((sock : ℤ), d') := by
  cases hsock : a.outcome.socket with
  | none =>
      cases a with
      | noSocket => exact absurd ha id
      | _ => cases hsock
  | some n =>
      have hrc : ¬ (connect n a.outcome (d.create (.socket n))).1 < 0 := by
        rw [connect_neg_iff hsock]
        exact not_not_intro ha
      refine ⟨n, (connect n a.outcome (d.create (.socket n))).2, rfl, ?_, ?_⟩
      · rw [connect_snd]
        simp [sockets, hsock, Ledger.create, Ledger.close]
      · rw [tryConnectLoop, hsock]
        exact if_neg hrc

/-- The loop ends with the first attempt that `_connect` accepts, or without a
socket. -/
theorem tryConnectLoop_spec (attempts : List Attempt) (d : Ledger Handle) :
    (∃ pre a sock, FirstWith Attempt.Accepted attempts pre a ∧ a.outcome.socket = some sock ∧
      (tryConnectLoop (-1) (attempts.map Attempt.outcome) d).1 = sock ∧
      (tryConnectLoop (-1) (attempts.map Attempt.outcome) d).2.created =
        d.created + sockets (pre ++ [a])) ∨
    (∀ a ∈ attempts, ¬ a.Accepted) ∧
      (tryConnectLoop (-1) (attempts.map Attempt.outcome) d).1 = -1 := by
  induction attempts generalizing d with
  | nil => exact Or.inr ⟨by simp, rfl⟩
  | cons a attempts ih =>
      rw [List.map_cons]
      by_cases ha : a.Accepted
      · obtain ⟨sock, d', hsock, hcreated, hloop⟩ :=
          tryConnectLoop_of_accepted ha d (attempts.map Attempt.outcome)
        rw [hloop]
        exact Or.inl ⟨[], a, sock, ⟨by simp, ha, attempts, rfl⟩, hsock, rfl, hcreated⟩
      · obtain ⟨d', hcreated, hloop⟩ :=
          tryConnectLoop_of_rejected ha d (attempts.map Attempt.outcome)
        rw [hloop]
        rcases ih d' with ⟨pre, b, sock, hfirst, hsock, hrc, hd⟩ | ⟨hall, hrc⟩
        · left
          obtain ⟨post, hpost⟩ := hfirst.split
          refine ⟨a :: pre, b, sock, ⟨?_, hfirst.here, post, by rw [hpost]; rfl⟩, hsock, hrc, ?_⟩
          · rw [List.forall_mem_cons]
            exact ⟨ha, hfirst.before⟩
          · rw [hd, hcreated, Nat.add_assoc]
            congr 1
            simp only [sockets, ← List.countP_append]
            rfl
        · right
          rw [List.forall_mem_cons]
          exact ⟨⟨ha, hall⟩, hrc⟩

/-! ## The client -/

/-- A place in the list lies before the first attempt with the property, is it, or
lies behind it. -/
theorem FirstWith.cases_place {P : Attempt → Prop} {attempts pre pre' post' : List Attempt}
    {a b : Attempt} (h : FirstWith P attempts pre a) (hplace : attempts = pre' ++ b :: post') :
    b ∈ pre ∨ (pre' = pre ∧ b = a) ∨ ∃ between, pre' = pre ++ a :: between := by
  obtain ⟨post, hpost⟩ := h.split
  rw [hpost] at hplace
  rcases List.append_eq_append_iff.mp hplace with ⟨more, hmore, heq⟩ | ⟨more, hmore, heq⟩
  · cases more with
    | nil => exact Or.inr (Or.inl ⟨by simpa using hmore, (List.cons.inj heq).1.symm⟩)
    | cons c more =>
        obtain rfl : a = c := (List.cons.inj heq).1
        exact Or.inr (Or.inr ⟨more, hmore⟩)
  · cases more with
    | nil => exact Or.inr (Or.inl ⟨by simpa using hmore.symm, (List.cons.inj heq).1⟩)
    | cons c more =>
        obtain rfl : b = c := (List.cons.inj heq).1
        left
        rw [hmore]
        simp

theorem sockets_append (xs ys : List Attempt) : sockets (xs ++ ys) = sockets xs + sockets ys :=
  List.countP_append

theorem sockets_of_connected {a : Attempt} (h : a.Connected) : sockets [a] = 1 := by
  cases a with
  | connected n | writable n e => rfl
  | _ => exact absurd h id

/-- When the first attempt that the loop accepts has not made a connection, its
client is the wrong one. -/
theorem not_returnsFirst_of_refused {attempts pre : List Attempt} {a : Attempt}
    {d : Ledger Handle} {c : TcpClient} (hfirst : FirstWith Attempt.Accepted attempts pre a)
    (ha : ¬ a.Connected) (hd : d.created = sockets (pre ++ [a])) :
    ¬ ReturnsFirst attempts (some c) d := by
  intro h
  obtain ⟨pre', b, n, hconnected, -, -, hd'⟩ := h.client c rfl
  obtain ⟨post, hpost⟩ := hconnected.split
  rcases hfirst.cases_place hpost with hmem | ⟨-, rfl⟩ | ⟨between, rfl⟩
  · exact hfirst.before b hmem (Attempt.accepted_iff.mpr (Or.inl hconnected.here))
  · exact ha hconnected.here
  · have hlast := sockets_of_connected hconnected.here
    have hsplit : pre ++ a :: between ++ [b] = pre ++ [a] ++ between ++ [b] := by simp
    rw [hd', hsplit, sockets_append, sockets_append (pre ++ [a])] at hd
    omega

theorem opensFirst_addrs_iff (attempts : List Attempt) :
    OpensFirst (.addrs attempts) ↔ Unmistakable (.addrs attempts) := by
  have hopen := simpleTcpclientOpen_eq (d := .start) (attempts.map Attempt.outcome)
  have hnot : ∀ {a : Attempt}, ¬ a.Accepted → ¬ a.Connected :=
    fun h hconnected => h (Attempt.accepted_iff.mpr (Or.inl hconnected))
  rcases tryConnectLoop_spec attempts .start with
    ⟨pre, a, sock, hfirst, hsock, hrc, hd⟩ | ⟨hall, hrc⟩
  · have hne : ¬ (tryConnectLoop (-1) (attempts.map Attempt.outcome) .start).1 = -1 := by
      rw [hrc]
      omega
    rw [show (Ledger.start : Ledger Handle).created = 0 from rfl, Nat.zero_add] at hd
    simp only [if_neg hne] at hopen
    constructor
    · rintro ⟨tc, d, htc, hreturns⟩ pre' b post hplace hbefore hrefused
      rw [hopen, Option.some.injEq, Prod.mk.injEq] at htc
      obtain ⟨rfl, rfl⟩ := htc
      have ha : a.Connected := by
        by_contra ha
        exact not_returnsFirst_of_refused hfirst ha hd hreturns
      rcases hfirst.cases_place hplace with hmem | ⟨-, rfl⟩ | ⟨between, rfl⟩
      · exact hfirst.before b hmem (Attempt.accepted_iff.mpr (Or.inr hrefused))
      · exact ha.not_refused hrefused
      · exact hbefore a (by simp) ha
    · intro hclear
      obtain ⟨post, hpost⟩ := hfirst.split
      have hbefore : ∀ b ∈ pre, ¬ b.Connected := fun b hb => hnot (hfirst.before b hb)
      have ha : a.Connected :=
        (Attempt.accepted_iff.mp hfirst.here).resolve_right (hclear pre a post hpost hbefore)
      refine ⟨_, _, hopen, ?_, nofun⟩
      rintro c ⟨⟩
      exact ⟨pre, a, sock, ⟨hbefore, ha, post, hpost⟩, hsock, hrc, hd⟩
  · simp only [if_pos hrc] at hopen
    apply iff_of_true
    · exact ⟨none, _, hopen, nofun, fun _ a ha => hnot (hall a ha)⟩
    · intro pre b post hplace _ hrefused
      apply hall b
      · rw [hplace]
        simp
      · exact Attempt.accepted_iff.mpr (Or.inr hrefused)

/-- The list is read on every error code but the one that the code compares with. -/
theorem opensFirst_error_iff (code : ℤ) (h : code ≠ 0) :
    OpensFirst (.error code h) ↔ Unmistakable (.error code h) := by
  constructor
  · rintro ⟨d, hd⟩
    by_contra hcode
    have hcode' : ¬ code = -1 := hcode
    rw [simpleTcpclientOpen, tryConnect, if_neg hcode'] at hd
    cases hd
  · rintro (rfl : code = -1)
    exact ⟨.start, rfl⟩

/-- The first address that accepts the connection is returned, or null, exactly
when no refused connection is taken for one before and a resolver error has the
code -1. -/
theorem opensFirst_iff (r : Resolved) : OpensFirst r ↔ Unmistakable r := by
  cases r with
  | addrs attempts => exact opensFirst_addrs_iff attempts
  | error code h => exact opensFirst_error_iff code h

/-- A refused connection gives a client, and a resolver error other than -1 makes
the code read a list that is not set. -/
theorem not_opensFirst :
    (∃ d, simpleTcpclientOpen 0 (some [(Attempt.writable 3 111).outcome]) .start =
        some (some ⟨3, simpleFdOpenFromSocket 3⟩, d)) ∧
      ¬ OpensFirst (.addrs [.writable 3 111]) ∧
      simpleTcpclientOpen (-2) none .start = none ∧
      ¬ OpensFirst (.error (-2) (by decide)) := by
  refine ⟨⟨_, rfl⟩, ?_, rfl, ?_⟩
  · rintro ⟨tc, d, htc, hreturns⟩
    obtain ⟨c, rfl⟩ : ∃ c, tc = some c := by
      cases tc with
      | none => cases htc
      | some c => exact ⟨c, rfl⟩
    obtain ⟨pre, a, n, hconnected, -⟩ := hreturns.client c rfl
    obtain ⟨post, hpost⟩ := hconnected.split
    obtain rfl : a = .writable 3 111 := by
      have hmem : a ∈ [Attempt.writable 3 111] := by
        rw [hpost]
        simp
      exact List.mem_singleton.mp hmem
    have hzero : (111 : ℤ) = 0 := hconnected.here
    exact absurd hzero (by decide)
  · rintro ⟨d, hd⟩
    cases hd

end LibSimple.Tcp
