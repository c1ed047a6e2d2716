import LibSimple.Tcp.Model

/-!
# Who owns a socket

The `fd_t` that `_connect` makes for a while is closed together with its socket,
not detached from it, so every socket is closed before its connection is used,
and closed again by whoever owns it afterwards.
-/

namespace LibSimple.Tcp

open Handles

variable {d : Ledger Handle} {o : Outcome} {addrs : List Outcome}

/-- What the caller of `simple_tcpclient_open` relies on.  The socket of a client
is open and closed once by `simple_tcpclient_close`, every other socket has been
closed once, and nothing is closed that is not open. -/
structure OwnsSockets (tc : Option TcpClient) (d : Ledger Handle) : Prop where
  client : ∀ c, tc = some c → ∃ id < d.created, d.Holds (.socket c.sock) id ∧
    d.closes.count (some id) = 0 ∧ (simpleTcpclientClose c d).closes.count (some id) = 1
  others : ∀ id < d.created, (∀ c, tc = some c → ¬ d.Holds (.socket c.sock) id) →
    d.closes.count (some id) = 1
  once : none ∉ d.closes ∧ ∀ c, tc = some c → none ∉ (simpleTcpclientClose c d).closes

/-- A detached `fd_t` is closed without its socket or file. -/
theorem simpleFdClose_simpleFdDetach (fd : Fd) : simpleFdClose (simpleFdDetach fd) d = d := by
  obtain ⟨handle, err⟩ := fd
  cases handle <;> rfl

/-- `simple_fd_close` closes the original socket or file. -/
theorem simpleFdClose_openFromSocket (n : ℕ) :
    simpleFdClose (simpleFdOpenFromSocket n) d = d.close (.socket n) := by
  have hn : (n : ℤ) ≠ -1 := by omega
  rw [simpleFdClose, simpleFdOpenFromSocket]
  exact if_pos hn

theorem simpleFdClose_openFromFile (fp : ℕ) :
    simpleFdClose (simpleFdOpenFromFile (some fp)) d = d.close (.file (some fp)) :=
  rfl

/-- `_connect` closes the socket whatever comes of the connection. -/
theorem connect_snd (n : ℕ) : (connect n o d).2 = d.close (.socket n) :=
  simpleFdClose_openFromSocket n

/-! ## The loop over the addresses -/

theorem tryConnectLoop_none {sock : ℤ} {rest : List Outcome} (h : o.socket = none) :
    tryConnectLoop sock (o :: rest) d = tryConnectLoop (-1) rest d := by
  rw [tryConnectLoop, h]

/-- A socket is made and closed by `_connect`; then either it is returned, or it is
closed once more. -/
theorem tryConnectLoop_some (d : Ledger Handle) (sock : ℤ) (rest : List Outcome) {n : ℕ}
    (h : o.socket = some n) :
    let d' := (d.create (.socket n)).close (.socket n)
    tryConnectLoop sock (o :: rest) d = ((n : ℤ), d') ∨
      tryConnectLoop sock (o :: rest) d = tryConnectLoop (-1) rest (d'.close (.socket n)) := by
  intro d'
  have hconnect : (connect n o (d.create (.socket n))).2 = d' := connect_snd n
  rw [tryConnectLoop, h]
  simp only [hconnect]
  by_cases hrc : (connect n o (d.create (.socket n))).1 < 0
  · exact Or.inr (if_pos hrc)
  · exact Or.inl (if_neg hrc)

theorem tryConnectLoop_of_forall_none (h : ∀ o ∈ addrs, o.socket = none) :
    tryConnectLoop (-1) addrs d = (-1, d) := by
  induction addrs with
  | nil => rfl
  | cons o rest ih =>
      rw [tryConnectLoop_none (h o List.mem_cons_self)]
      exact ih fun o' ho' => h o' (List.mem_cons_of_mem o ho')

/-- Whatever is returned, no socket is open any more. -/
theorem spent_tryConnectLoop (hd : d.Spent) : (tryConnectLoop (-1) addrs d).2.Spent := by
  induction addrs generalizing d with
  | nil => exact hd
  | cons o rest ih =>
      cases ho : o.socket with
      | none =>
          rw [tryConnectLoop_none ho]
          exact ih hd
      | some n =>
          have hd' : ((d.create (.socket n)).close (.socket n)).Spent := hd.create_close
          obtain heq | heq := tryConnectLoop_some d (-1) rest ho
          · rw [heq]
            exact hd'
          · rw [heq]
            exact ih hd'.close

/-- A wrong close is not undone. -/
theorem none_mem_tryConnectLoop (h : none ∈ d.closes) :
    none ∈ (tryConnectLoop (-1) addrs d).2.closes := by
  induction addrs generalizing d with
  | nil => exact h
  | cons o rest ih =>
      cases ho : o.socket with
      | none =>
          rw [tryConnectLoop_none ho]
          exact ih h
      | some n =>
          have h' : none ∈ ((d.create (.socket n)).close (.socket n)).closes :=
            Ledger.mem_closes_close (d := d.create (.socket n)) h
          obtain heq | heq := tryConnectLoop_some d (-1) rest ho
          · rw [heq]
            exact h'
          · rw [heq]
            exact ih (Ledger.mem_closes_close h')

/-- When no socket is returned but one was made, it has been closed twice. -/
theorem none_mem_of_null (hd : d.Spent) (hsock : (tryConnectLoop (-1) addrs d).1 = -1)
    (ho : ∃ o ∈ addrs, o.socket ≠ none) : none ∈ (tryConnectLoop (-1) addrs d).2.closes := by
  induction addrs with
  | nil => simp at ho
  | cons o rest ih =>
      cases hs : o.socket with
      | none =>
          rw [tryConnectLoop_none hs] at hsock ⊢
          refine ih hsock ?_
          obtain ⟨o', hmem, ho'⟩ := ho
          obtain rfl | hmem := List.mem_cons.mp hmem
          · exact absurd hs ho'
          · exact ⟨o', hmem, ho'⟩
      | some n =>
          obtain heq | heq := tryConnectLoop_some d (-1) rest hs
          · rw [heq] at hsock
            have hn : (n : ℤ) = -1 := hsock
            omega
          · rw [heq, hd.create_close.close_eq]
            exact none_mem_tryConnectLoop (List.mem_append_right _ (List.mem_singleton.mpr rfl))

/-! ## The client -/

/-- The sockets of a call of `simple_tcpclient_open` are owned as they should be. -/
def OpenOwnsSockets (addrs : List Outcome) : Prop :=
  ∃ tc d, simpleTcpclientOpen 0 (some addrs) .start = some (tc, d) ∧ OwnsSockets tc d

theorem simpleTcpclientOpen_eq (addrs : List Outcome) :
    simpleTcpclientOpen 0 (some addrs) d =
      let r := tryConnectLoop (-1) addrs d
      some (if r.1 = -1 then none else some ⟨r.1, simpleFdOpenFromSocket r.1⟩, r.2) :=
  rfl

theorem openOwnsSockets_iff (addrs : List Outcome) :
    OpenOwnsSockets addrs ↔ ∀ o ∈ addrs, o.socket = none := by
  constructor
  · rintro ⟨tc, d, hopen, howns⟩
    rw [simpleTcpclientOpen_eq, Option.some.injEq, Prod.mk.injEq] at hopen
    obtain ⟨htc, hd⟩ := hopen
    have hspent : d.Spent := by
      rw [← hd]
      exact spent_tryConnectLoop .start
    by_cases hsock : (tryConnectLoop (-1) addrs .start).1 = -1
    · by_contra hsome
      simp only [not_forall] at hsome
      obtain ⟨o, hmem, ho⟩ := hsome
      refine howns.once.1 ?_
      rw [← hd]
      exact none_mem_of_null .start hsock ⟨o, hmem, ho⟩
    · rw [if_neg hsock] at htc
      obtain ⟨id, -, hholds, -⟩ := howns.client _ htc.symm
      exact absurd hholds hspent.not_holds
  · intro h
    refine ⟨none, .start, ?_, nofun, nofun, nofun, nofun⟩
    rw [simpleTcpclientOpen_eq, tryConnectLoop_of_forall_none h]
    rfl

/-- The connection succeeds at once, and the client has a closed socket. -/
theorem not_openOwnsSockets_connected : ¬ OpenOwnsSockets [⟨some 3, 0, false, 0, false⟩] := by
  rintro ⟨tc, d, hopen, howns⟩
  obtain ⟨rfl, rfl⟩ : tc = some ⟨3, simpleFdOpenFromSocket 3⟩ ∧ d = ⟨[], 1, [some 0]⟩ := by
    have heq : simpleTcpclientOpen 0 (some [⟨some 3, 0, false, 0, false⟩]) .start =
        some (some ⟨3, simpleFdOpenFromSocket 3⟩, ⟨[], 1, [some 0]⟩) := by decide
    rw [heq] at hopen
    simpa [eq_comm] using hopen
  obtain ⟨id, -, hholds, -⟩ := howns.client _ rfl
  exact absurd hholds nofun

end LibSimple.Tcp
