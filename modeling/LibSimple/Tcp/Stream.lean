import LibSimple.Support.Pieces
import LibSimple.Tcp.Transfer

/-!
# Messages over a connection

One side sends messages with `simple_tcpclient_sendnt`, the other one receives as many
bytes with `simple_tcpclient_recvnt`, each of them one call after another until a call does
not get through.
-/

namespace LibSimple.Tcp

open Pieces StoreTrace

/-- A call for each of these, on one socket, up to the first one that does not return its
length; the results and the transfers. -/
def callEach {ι α : Type} (call : ι → Rounds α → Option (ℤ × Transfer α)) (len : ι → ℕ) :
    List ι → Rounds α → Option (List (ℤ × Transfer α))
  | [], _ => some []
  | i :: rest, rounds => do
      let r ← call i rounds
      if r.1 = len i then
        let results ← callEach call len rest r.2.ahead
        some (r :: results)
      else some [r]

/-- The bytes of a message in memory. -/
def buffer (message : List UInt8) (i : ℕ) : UInt8 := message.getD i 0

def sendEach (timeout : ℤ) (messages : List (List UInt8)) (rounds : Rounds ℕ) :
    Option (List (ℤ × Transfer ℕ)) :=
  callEach (fun message => simpleTcpclientSendnt (buffer message) message.length timeout)
    List.length messages rounds

def recvEach (timeout : ℤ) (lengths : List ℕ) (rounds : Rounds (List UInt8)) :
    Option (List (ℤ × Transfer (List UInt8))) :=
  callEach (fun n : ℕ => simpleTcpclientRecvnt n timeout) id lengths rounds

/-- What the calls have moved, one by one. -/
def moved {α : Type} (results : List (ℤ × Transfer α)) : List (List UInt8) :=
  results.map fun r => r.2.moved

/-! ## The calls of one side -/

variable {ι α : Type} {call : ι → Rounds α → Option (ℤ × Transfer α)} {len : ι → ℕ}
  {is : List ι} {rounds : Rounds α} {results : List (ℤ × Transfer α)}

/-- Every result is that of a call. -/
theorem called_of_callEach (h : callEach call len is rounds = some results) {k : ℕ}
    {r : ℤ × Transfer α} (hr : results[k]? = some r) :
    ∃ i rounds', is[k]? = some i ∧ call i rounds' = some r := by
  induction is generalizing rounds results k with
  | nil =>
      cases h
      cases hr
  | cons i is ih =>
      obtain ⟨first, hfirst, h⟩ := Option.bind_eq_some_iff.mp h
      split_ifs at h with hlen
      · obtain ⟨rest, hrest, h⟩ := Option.bind_eq_some_iff.mp h
        cases h
        cases k with
        | zero =>
            cases hr
            exact ⟨i, rounds, rfl, hfirst⟩
        | succ k => exact ih hrest hr
      · cases h
        cases k with
        | zero =>
            cases hr
            exact ⟨i, rounds, rfl, hfirst⟩
        | succ k => cases hr

/-- The calls cut the stream at the lengths that they are made for. -/
theorem fills_of_callEach
    (hcall : ∀ i rounds r, call i rounds = some r →
      r.2.moved.length ≤ len i ∧ (r.1 = len i ↔ r.2.moved.length = len i))
    (h : callEach call len is rounds = some results) : Fills (moved results) (is.map len) := by
  induction is generalizing rounds results with
  | nil =>
      cases h
      exact .nil
  | cons i is ih =>
      obtain ⟨first, hfirst, h⟩ := Option.bind_eq_some_iff.mp h
      obtain ⟨hle, hfull⟩ := hcall i rounds first hfirst
      split_ifs at h with hlen
      · obtain ⟨rest, hrest, h⟩ := Option.bind_eq_some_iff.mp h
        cases h
        exact .full (hfull.mp hlen) (ih hrest)
      · cases h
        exact .short (hle.lt_of_ne fun heq => hlen (hfull.mpr heq))

theorem moved_of_exact {move : α → ℕ → ℕ → List UInt8} {nothing : α → Prop} {tv : Timeval}
    {n : ℕ} {r : ℤ × Transfer α} (h : Exact move nothing tv n rounds r.1 r.2) :
    r.2.moved.length ≤ n ∧ (r.1 = n ↔ r.2.moved.length = n) := by
  obtain ⟨hcount, hle⟩ := h.count
  refine ⟨by omega, h.result.trans ?_⟩
  omega

theorem moved_getElem? {k : ℕ} {p : List UInt8} (h : (moved results)[k]? = some p) :
    ∃ r, results[k]? = some r ∧ r.2.moved = p := by
  rw [moved, List.getElem?_map, Option.map_eq_some_iff] at h
  exact h

/-! ## Both sides -/

variable {timeout timeout' : ℤ} {messages : List (List UInt8)}
  {outgoing : Rounds ℕ} {incoming : Rounds (List UInt8)}
  {sent : List (ℤ × Transfer ℕ)} {received : List (ℤ × Transfer (List UInt8))}

theorem map_buffer (message : List UInt8) {n : ℕ} (hn : n ≤ message.length) :
    (List.range n).map (buffer message) = message.take n := by
  refine List.ext_getElem (by simp [hn]) fun k hk hk' => ?_
  have hlt : k < message.length := by
    rw [List.length_take] at hk'
    omega
  simp [buffer, hlt]

theorem isPrefix_of_fromStart {message bytes : List UInt8} (h : FromStart (buffer message) bytes)
    (hle : bytes.length ≤ message.length) : bytes <+: message := by
  have htake : bytes = message.take bytes.length := h.trans (map_buffer message hle)
  rw [htake]
  exact List.take_prefix _ _

theorem sendnt_exact {message : List UInt8} {rounds : Rounds ℕ} {r : ℤ × Transfer ℕ}
    (h : simpleTcpclientSendnt (buffer message) message.length timeout rounds = some r) :
    SentExactly (buffer message) timeout message.length rounds r.1 r.2 :=
  sentExactly_of_sendnt (Int.natCast_nonneg _) h

theorem recvnt_exact {n : ℕ} {rounds : Rounds (List UInt8)} {r : ℤ × Transfer (List UInt8)}
    (h : simpleTcpclientRecvnt n timeout rounds = some r) :
    ReceivedExactly timeout n rounds r.1 r.2 :=
  receivedExactly_of_recvnt (Int.natCast_nonneg _) h

theorem fills_sent (h : sendEach timeout messages outgoing = some sent) :
    Fills (moved sent) (messages.map List.length) :=
  fills_of_callEach (fun _ _ _ hr => moved_of_exact (sendnt_exact hr).1) h

theorem fills_received {lengths : List ℕ} (h : recvEach timeout lengths incoming = some received) :
    Fills (moved received) lengths := by
  have hcall : ∀ (n : ℕ) rounds r, simpleTcpclientRecvnt n timeout rounds = some r →
      r.2.moved.length ≤ n ∧ (r.1 = n ↔ r.2.moved.length = n) :=
    fun _ _ _ hr => moved_of_exact (recvnt_exact hr).1
  have hfills := fills_of_callEach hcall h
  rwa [List.map_id'] at hfills

theorem sent_exact (h : sendEach timeout messages outgoing = some sent) {k : ℕ}
    {message : List UInt8} {r : ℤ × Transfer ℕ} (hmessage : messages[k]? = some message)
    (hr : sent[k]? = some r) :
    ∃ rounds, SentExactly (buffer message) timeout message.length rounds r.1 r.2 := by
  obtain ⟨message', rounds, hsame, hcall⟩ := called_of_callEach h hr
  obtain rfl := Option.some.inj (hmessage.symm.trans hsame)
  exact ⟨rounds, sendnt_exact hcall⟩

theorem received_exact {lengths : List ℕ} (h : recvEach timeout lengths incoming = some received)
    {k n : ℕ} {r : ℤ × Transfer (List UInt8)} (hn : lengths[k]? = some n)
    (hr : received[k]? = some r) : ∃ rounds, ReceivedExactly timeout n rounds r.1 r.2 := by
  obtain ⟨n', rounds, hsame, hcall⟩ := called_of_callEach h hr
  obtain rfl := Option.some.inj (hn.symm.trans hsame)
  exact ⟨rounds, recvnt_exact hcall⟩

/-- Whatever a call sends is the start of its message. -/
theorem starts_sent (h : sendEach timeout messages outgoing = some sent) :
    Starts (moved sent) messages := by
  intro k p message hp hmessage
  obtain ⟨r, hr, rfl⟩ := moved_getElem? hp
  obtain ⟨rounds, hexact⟩ := sent_exact h hmessage hr
  exact isPrefix_of_fromStart hexact.2 (moved_of_exact hexact.1).1

/-- The two sides cut two messages at different places, and the receiver gives up inside
the second one. -/
def outgoingTwo : Rounds ℕ :=
  [fun _ => .moved 9, fun _ => .again, fun _ => .moved 1, fun _ => .moved 9]

def incomingTwo : Rounds (List UInt8) :=
  [fun _ => .moved [1], fun _ => .moved [2, 3], fun _ => .moved [3, 4], fun _ => .timeout]

theorem isSome_outgoingTwo : (sendEach 1000 [[1, 2], [3, 4, 5]] outgoingTwo).isSome := by
  decide +kernel

theorem isSome_incomingTwo : (recvEach 1000 [2, 3] incomingTwo).isSome := by decide +kernel

end LibSimple.Tcp
