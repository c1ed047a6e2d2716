import LibSimple.Support.Handles
import LibSimple.Support.StoreTrace
import Mathlib.Data.Int.Notation

/-!
# The TCP client

The functions of `fd.c` that make and close an `fd_t`, and the functions of
`tcpclient.c` that open and close a connection and send and receive over it, with
the outcome of every system call as an argument.
-/

namespace LibSimple.Tcp

open Handles StoreTrace

/-- The `type` of an `fd_t` and the member of its union that goes with it; a null
`FILE *` is `none`. -/
inductive Handle
  | socket (sock : ℤ)
  | file (fp : Option ℕ)
  deriving DecidableEq

structure Fd where
  handle : Handle
  err : ℤ
  deriving DecidableEq

/-- `simple_fd_open_from_socket` -/
def simpleFdOpenFromSocket (sock : ℤ) : Fd := ⟨.socket sock, 0⟩

/-- `simple_fd_open_from_file` -/
def simpleFdOpenFromFile (fp : Option ℕ) : Fd := ⟨.file fp, 0⟩

/-- `simple_fd_detach` -/
def simpleFdDetach (fd : Fd) : Fd :=
  match fd.handle with
  | .socket _ => { fd with handle := .socket (-1) }
  | .file _ => { fd with handle := .file none }

/-- `simple_fd_close` -/
def simpleFdClose (fd : Fd) (d : Ledger Handle) : Ledger Handle :=
  match fd.handle with
  | .socket sock => if sock ≠ -1 then d.close (.socket sock) else d
  | .file none => d
  | .file (some fp) => d.close (.file (some fp))

/-- What the system calls for one address come to: the descriptor that `socket`
returns, if it does not fail, the result of `connect` and whether `errno` is then
`EINPROGRESS`, the result of `select` and of `FD_ISSET`. -/
structure Outcome where
  socket : Option ℕ
  connect : ℤ
  inProgress : Bool
  select : ℤ
  isSet : Bool
  deriving DecidableEq

/-- `_connect` -/
def connect (sock : ℤ) (o : Outcome) (d : Ledger Handle) : ℤ × Ledger Handle :=
  let fd := simpleFdOpenFromSocket sock
  let rc := o.connect
  let wait := rc = -1 ∧ o.inProgress
  let rc := if wait then (if o.select ≤ 0 then -1 else if o.isSet then 0 else -1) else rc
  (rc, simpleFdClose fd d)

/-- The loop of `_try_connect` over the addresses. -/
def tryConnectLoop (sock : ℤ) : List Outcome → Ledger Handle → ℤ × Ledger Handle
  | [], d => (sock, d)
  | o :: rest, d =>
      match o.socket with
      | none => tryConnectLoop (-1) rest d
      | some n =>
          let (rc, d) := connect n o (d.create (.socket n))
          if rc < 0 then tryConnectLoop (-1) rest (d.close (.socket n)) else (n, d)

/-- `_try_connect`: `rc` and `addr` are what `getaddrinfo` returns and stores, and
the result is `none` when `addr` is read although it has not been set. -/
def tryConnect (rc : ℤ) (addr : Option (List Outcome)) (d : Ledger Handle) :
    Option (ℤ × Ledger Handle) :=
  if rc = -1 then some (-1, d) else addr.map (tryConnectLoop (-1) · d)

structure TcpClient where
  sock : ℤ
  fd : Fd
  deriving DecidableEq

/-- `simple_tcpclient_open`; the client is `none` for a null pointer. -/
def simpleTcpclientOpen (rc : ℤ) (addr : Option (List Outcome)) (d : Ledger Handle) :
    Option (Option TcpClient × Ledger Handle) := do
  let (sock, d) ← tryConnect rc addr d
  return (if sock = -1 then none else some ⟨sock, simpleFdOpenFromSocket sock⟩, d)

/-- `simple_tcpclient_close` -/
def simpleTcpclientClose (tc : TcpClient) (d : Ledger Handle) : Ledger Handle :=
  simpleFdClose tc.fd d

/-! ## Sending and receiving -/

/-- `struct timeval` -/
structure Timeval where
  tvSec : ℤ
  tvUsec : ℤ
  deriving DecidableEq

/-- `{ timeout / 1000, (timeout % 1000) * 1000 }` -/
def timevalOf (timeout : ℤ) : Timeval := ⟨timeout.tdiv 1000, timeout.tmod 1000 * 1000⟩

/-- One round of `retry`: what `select` comes to, and when the socket is ready, the
`send` or `recv` behind it, which fails with `EAGAIN` or another error or moves
bytes. -/
inductive Round (α : Type)
  | timeout
  | selectError
  | again
  | error
  | moved (x : α)
  deriving DecidableEq

/-- The rounds to come, each as it goes for the `timeval` of the call. -/
abbrev Rounds (α : Type) := List (Timeval → Round α)

/-- How far a transfer has come: `*sent` or `*recved`, the bytes that the system has
taken or delivered, the places of the caller's buffer that it has read them from
or stored them at, and the rounds to come. -/
structure Transfer (α : Type) where
  count : ℤ
  moved : List UInt8
  trace : List (ℕ × UInt8)
  ahead : Rounds α

/-- The transfer `t` behind `s`. -/
def Transfer.then {α : Type} (s t : Transfer α) : Transfer α :=
  ⟨s.count + t.count, s.moved ++ t.moved, s.trace ++ t.trace, t.ahead⟩

/-- `simple_tcpclient_sendt` and `simple_tcpclient_recvt` from `retry` on, with the
bytes that the system moves when it is asked for `len` bytes at index `next`; the
result and the transfer, `none` when the rounds do not suffice. -/
def transfert {α : Type} (move : α → ℕ → ℕ → List UInt8) (next len : ℕ) (tv : Timeval) :
    Rounds α → Option (ℤ × Transfer α)
  | [] => none
  | round :: ahead =>
      match round tv with
      | .timeout => some (-2, ⟨0, [], [], ahead⟩)
      | .selectError => some (-1, ⟨0, [], [], ahead⟩)
      | .again => transfert move next len tv ahead
      | .error => some (-1, ⟨0, [], [], ahead⟩)
      | .moved x =>
          let bytes := move x next len
          some (bytes.length, ⟨bytes.length, bytes, stores next bytes, ahead⟩)

/-- The loop of `simple_tcpclient_sendnt` and `simple_tcpclient_recvnt` around the
call of the function for one transfer; `fuel` bounds the number of calls. -/
def transferLoop {α : Type} (call : ℕ → ℕ → Rounds α → Option (ℤ × Transfer α)) (len : ℤ) :
    ℕ → ℤ → ℕ → Transfer α → Option (ℤ × Transfer α)
  | fuel, rest, next, s =>
      if rest > 0 then
        match fuel with
        | 0 => none
        | fuel + 1 => do
            let (rc, t) ← call next rest.toNat s.ahead
            if rc > 0 then
              transferLoop call len fuel (rest - t.count) (next + t.count.toNat) (s.then t)
            else return (rc, { s.then t with count := s.count })
      else some (len, s)

/-- `simple_tcpclient_sendnt` and `simple_tcpclient_recvnt`: a call that returns has
used up a round. -/
def transfernt {α : Type} (call : ℕ → ℕ → Rounds α → Option (ℤ × Transfer α)) (len : ℤ)
    (rounds : Rounds α) : Option (ℤ × Transfer α) :=
  transferLoop call len rounds.length len 0 ⟨0, [], [], rounds⟩

/-- `send(sock, data + next, len, 0)` when the system has room for `room` bytes. -/
def send (data : ℕ → UInt8) (room next len : ℕ) : List UInt8 :=
  (List.range' next (min room len)).map data

/-- `recv(sock, buf + next, len, 0)` when `bytes` have arrived. -/
def recv (bytes : List UInt8) (_next len : ℕ) : List UInt8 := bytes.take len

/-- `simple_tcpclient_sendt` -/
def simpleTcpclientSendt (data : ℕ → UInt8) (next len : ℕ) (timeout : ℤ) (rounds : Rounds ℕ) :
    Option (ℤ × Transfer ℕ) :=
  transfert (send data) next len (timevalOf timeout) rounds

/-- `simple_tcpclient_recvt` -/
def simpleTcpclientRecvt (next len : ℕ) (timeout : ℤ) (rounds : Rounds (List UInt8)) :
    Option (ℤ × Transfer (List UInt8)) :=
  transfert recv next len (timevalOf timeout) rounds

/-- `simple_tcpclient_sendnt` -/
def simpleTcpclientSendnt (data : ℕ → UInt8) (len timeout : ℤ) (rounds : Rounds ℕ) :
    Option (ℤ × Transfer ℕ) :=
  transfernt (simpleTcpclientSendt data · · timeout) len rounds

/-- `simple_tcpclient_recvnt` -/
def simpleTcpclientRecvnt (len timeout : ℤ) (rounds : Rounds (List UInt8)) :
    Option (ℤ × Transfer (List UInt8)) :=
  transfernt (simpleTcpclientRecvt · · timeout) len rounds

/-- `simple_tcpclient_sendn` -/
def simpleTcpclientSendn (data : ℕ → UInt8) (len : ℤ) (rounds : Rounds ℕ) :
    Option (ℤ × Transfer ℕ) :=
  simpleTcpclientSendnt data len 0x7fffffff rounds

/-- `simple_tcpclient_recvn` -/
def simpleTcpclientRecvn (len : ℤ) (rounds : Rounds (List UInt8)) :
    Option (ℤ × Transfer (List UInt8)) :=
  simpleTcpclientRecvnt len 0x7fffffff rounds

end LibSimple.Tcp
