import LibSimple.Httpsrv.Response
import Mathlib.Data.Stream.Init

/-!
# Sending a file from `httpsrv`

`send_local_file` with its two loops: `send_data` around `send`, and the loop that
copies the file to the socket.  What `send` and `fread` come to is given by streams.
-/

namespace LibSimple.Httpsrv

open CLang Http

/-! ## The response so far -/

/-- `make_default_response` -/
def makeDefaultResponse : HttpMessage :=
  let res := httpcMessageCreate
  let res := httpcMessageSetStartLine res (.ofString "HTTP/1.0") (.ofString "200")
    (.ofString "OK")
  let res := httpcMessageSetValue res (.ofString "Server") (.ofString "test_http_srv 1.0")
  httpcMessageSetValue res (.ofString "Connection") (.ofString "Close")

/-! ## The two loops -/

/-- How sending has gone: the result, the bytes that the socket has taken, and the
room that it has in the calls of `send` to come; no room or less makes a call fail. -/
structure Sent where
  rc : ℤ
  bytes : List UInt8
  ahead : Stream' ℤ

/-- Sending `t` behind `s`. -/
def Sent.then (s t : Sent) : Sent := ⟨t.rc, s.bytes ++ t.bytes, t.ahead⟩

/-- `send_data` -/
def sendData (data : List UInt8) (sends : Stream' ℤ) : Sent :=
  if data = [] then ⟨0, [], sends⟩
  else
    let rc := min sends.head data.length
    if 0 < rc then
      Sent.then ⟨rc, data.take rc.toNat, sends.tail⟩ (sendData (data.drop rc.toNat) sends.tail)
    else ⟨-1, [], sends.tail⟩
termination_by data.length
decreasing_by
  have hdata : data.length ≠ 0 := fun h => ‹data ≠ []› (List.length_eq_zero_iff.mp h)
  rw [List.length_drop]
  omega

/-- `fread(buf, 1, sizeof(buf), fp)` with the bytes that it reads, and `feof(fp)`
behind it. -/
structure Fread where
  bytes : List UInt8
  fits : bytes.length ≤ 4096
  eof : Bool

/-- The loop of `send_local_file`, `feof(fp)` being `eof` in front of it. -/
def copyLoop : Bool → Stream' Fread → Stream' ℤ → ℕ → Option Sent
  | _, _, _, 0 => none
  | eof, reads, sends, fuel + 1 =>
      if eof then some ⟨1, [], sends⟩
      else
        let buf := reads.head
        if 0 < buf.bytes.length then
          let sent := sendData buf.bytes sends
          if sent.rc < 0 then some { sent with rc := -1 }
          else (copyLoop buf.eof reads.tail sent.ahead fuel).map sent.then
        else copyLoop buf.eof reads.tail sends fuel

/-- `send_local_file` on the socket, with the size that `stat` gives and the stream that
`fopen` opens: `none` when it is undefined or does not end with the given fuel. -/
def sendLocalFileTo (res : HttpMessage) (filename : CStr) (stSize : ℕ)
    (fopen : Option (Stream' Fread)) (sends : Stream' ℤ) (fuel : ℕ) : Option Sent := do
  let res ← sendLocalFile res filename stSize
  let abuf ← encodedBuffer res false
  let head := sendData abuf sends
  if head.rc < 0 then some { head with rc := -1 }
  else
    match fopen with
    | none => some { head with rc := -1 }
    | some reads => (copyLoop false reads head.ahead fuel).map head.then

/-! ## What `fread` can come to -/

/-- The file is read in these blocks: each but the last with something in it, and the
last one, which may be empty, sets the end-of-file indicator. -/
inductive Delivers : Stream' Fread → List (List UInt8) → Prop
  | last {reads : Stream' Fread} (heof : reads.head.eof = true) :
      Delivers reads [reads.head.bytes]
  | more {reads : Stream' Fread} {blocks : List (List UInt8)} (heof : reads.head.eof = false)
      (hne : reads.head.bytes ≠ []) (hrest : Delivers reads.tail blocks) :
      Delivers reads (reads.head.bytes :: blocks)

/-- Only these blocks are read, each with something in it, and then nothing any more,
with the end-of-file indicator never set. -/
inductive Breaks : Stream' Fread → List (List UInt8) → Prop
  | error {reads : Stream' Fread}
      (hnone : ∀ n, (reads.get n).bytes = [] ∧ (reads.get n).eof = false) : Breaks reads []
  | more {reads : Stream' Fread} {blocks : List (List UInt8)} (heof : reads.head.eof = false)
      (hne : reads.head.bytes ≠ []) (hrest : Breaks reads.tail blocks) :
      Breaks reads (reads.head.bytes :: blocks)

/-- Every file can be read to its end. -/
theorem exists_delivers (file : List UInt8) :
    ∃ reads blocks, Delivers reads blocks ∧ blocks.flatten = file := by
  by_cases hlast : file.length ≤ 4096
  · refine ⟨Stream'.const ⟨file, hlast, true⟩, [file], .last rfl, ?_⟩
    rw [List.flatten_singleton]
  · obtain ⟨reads, blocks, hreads, hblocks⟩ := exists_delivers (file.drop 4096)
    have htake : (file.take 4096).length = 4096 := by
      rw [List.length_take]
      omega
    have hne : file.take 4096 ≠ [] := fun h => by simp [h] at htake
    refine ⟨Stream'.cons ⟨file.take 4096, htake.le, false⟩ reads, _ :: blocks,
      .more rfl hne hreads, ?_⟩
    rw [List.flatten_cons, hblocks]
    exact List.take_append_drop 4096 file
termination_by file.length
decreasing_by
  rw [List.length_drop]
  omega

/-! ## What the loops do -/

/-- Every call of `send` takes something. -/
def Accepts (sends : Stream' ℤ) : Prop := ∀ n, 0 < sends.get n

theorem Accepts.tail {sends : Stream' ℤ} (h : Accepts sends) : Accepts sends.tail :=
  fun n => h (n + 1)

/-- `send_data` sends all of the data when every call of `send` takes something. -/
theorem sendData_accepts (data : List UInt8) {sends : Stream' ℤ} (h : Accepts sends) :
    ∃ ahead, Accepts ahead ∧ sendData data sends = ⟨0, data, ahead⟩ := by
  fun_induction sendData data sends with
  | case1 sends => exact ⟨sends, h, rfl⟩
  | case2 data sends hdata rc hrc ih =>
      obtain ⟨ahead, hahead, hrest⟩ := ih h.tail
      refine ⟨ahead, hahead, ?_⟩
      rw [hrest, Sent.then, List.take_append_drop]
  | case3 data sends hdata rc hrc =>
      have hhead : 0 < sends.head := h 0
      have hlength : data.length ≠ 0 := fun heq => hdata (List.length_eq_zero_iff.mp heq)
      omega

theorem copyLoop_true (fuel : ℕ) (reads : Stream' Fread) (sends : Stream' ℤ) :
    copyLoop true reads sends (fuel + 1) = some ⟨1, [], sends⟩ := rfl

/-- One round of the copy loop: the block is sent, and the loop goes on unless that
fails. -/
theorem copyLoop_block {reads : Stream' Fread} (hne : reads.head.bytes ≠ []) (fuel : ℕ)
    (sends : Stream' ℤ) :
    copyLoop false reads sends (fuel + 1) =
      if (sendData reads.head.bytes sends).rc < 0 then
        some { sendData reads.head.bytes sends with rc := -1 }
      else (copyLoop reads.head.eof reads.tail (sendData reads.head.bytes sends).ahead fuel).map
        (sendData reads.head.bytes sends).then := by
  rw [copyLoop, if_neg (by decide)]
  exact if_pos (List.length_pos_of_ne_nil hne)

theorem copyLoop_none {reads : Stream' Fread} (hnone : reads.head.bytes = []) (fuel : ℕ)
    (sends : Stream' ℤ) :
    copyLoop false reads sends (fuel + 1) = copyLoop reads.head.eof reads.tail sends fuel := by
  rw [copyLoop, if_neg (by decide)]
  exact if_neg (by rw [hnone]; decide)

/-- A round whose block is taken. -/
theorem copyLoop_sent {reads : Stream' Fread} (hne : reads.head.bytes ≠ [])
    {sends ahead : Stream' ℤ} (hsent : sendData reads.head.bytes sends =
      ⟨0, reads.head.bytes, ahead⟩) (fuel : ℕ) :
    copyLoop false reads sends (fuel + 1) =
      (copyLoop reads.head.eof reads.tail ahead fuel).map
        (Sent.then ⟨0, reads.head.bytes, ahead⟩) := by
  rw [copyLoop_block hne, hsent]
  exact if_neg (lt_irrefl 0)

/-- A file that is read to its end is copied as it is, however it is read and sent. -/
theorem copyLoop_delivers {reads : Stream' Fread} {blocks : List (List UInt8)}
    (hreads : Delivers reads blocks) {sends : Stream' ℤ} (hsends : Accepts sends) :
    ∃ ahead, Returns (copyLoop false reads sends) ⟨1, blocks.flatten, ahead⟩ := by
  induction hreads generalizing sends with
  | @last reads heof =>
      have hend : ∀ ahead, Returns (copyLoop reads.head.eof reads.tail ahead)
          ⟨1, [], ahead⟩ := by
        intro ahead
        refine ⟨1, fun fuel hfuel => ?_⟩
        obtain ⟨fuel, rfl⟩ : ∃ n, fuel = n + 1 := ⟨fuel - 1, by omega⟩
        show copyLoop reads.head.eof reads.tail ahead (fuel + 1) = _
        rw [heof, copyLoop_true]
      rw [List.flatten_singleton]
      by_cases hne : reads.head.bytes = []
      · refine ⟨sends, ?_⟩
        rw [hne]
        refine (hend sends).map_succ (f := id) fun fuel => ?_
        rw [copyLoop_none hne, Option.map_id, id]
      · obtain ⟨ahead, -, hsent⟩ := sendData_accepts reads.head.bytes hsends
        refine ⟨ahead, ?_⟩
        have h := (hend ahead).map_succ (copyLoop_sent hne hsent)
        rwa [Sent.then, List.append_nil] at h
  | @more reads blocks heof hne hrest ih =>
      obtain ⟨ahead, hahead, hsent⟩ := sendData_accepts reads.head.bytes hsends
      obtain ⟨last, hlast⟩ := ih hahead
      refine ⟨last, ?_⟩
      rw [← heof] at hlast
      exact hlast.map_succ (copyLoop_sent hne hsent)

/-! ## The end of the copy loop -/

/-- The copy loop ends. -/
def Ends (eof : Bool) (reads : Stream' Fread) (sends : Stream' ℤ) : Prop :=
  ∃ fuel, (copyLoop eof reads sends fuel).isSome = true

/-- Sending one of the blocks fails. -/
def sendFails : List (List UInt8) → Stream' ℤ → Bool
  | [], _ => false
  | block :: blocks, sends =>
      let sent := sendData block sends
      sent.rc < 0 || sendFails blocks sent.ahead

theorem sendFails_cons {block : List UInt8} {blocks : List (List UInt8)} {sends : Stream' ℤ} :
    sendFails (block :: blocks) sends = true ↔
      (sendData block sends).rc < 0 ∨ sendFails blocks (sendData block sends).ahead = true := by
  rw [sendFails, Bool.or_eq_true, decide_eq_true_eq]

theorem ends_true (reads : Stream' Fread) (sends : Stream' ℤ) : Ends true reads sends :=
  ⟨1, rfl⟩

theorem ends_block_iff {reads : Stream' Fread} (hne : reads.head.bytes ≠ [])
    {sends : Stream' ℤ} :
    Ends false reads sends ↔ (sendData reads.head.bytes sends).rc < 0 ∨
      Ends reads.head.eof reads.tail (sendData reads.head.bytes sends).ahead := by
  by_cases hfail : (sendData reads.head.bytes sends).rc < 0
  · refine iff_of_true ⟨1, ?_⟩ (Or.inl hfail)
    rw [copyLoop_block hne, if_pos hfail]
    rfl
  · rw [or_iff_right hfail]
    constructor
    · rintro ⟨fuel, hfuel⟩
      cases fuel with
      | zero => exact Bool.noConfusion hfuel
      | succ fuel =>
          rw [copyLoop_block hne, if_neg hfail, Option.isSome_map] at hfuel
          exact ⟨fuel, hfuel⟩
    · rintro ⟨fuel, hfuel⟩
      refine ⟨fuel + 1, ?_⟩
      rwa [copyLoop_block hne, if_neg hfail, Option.isSome_map]

/-- A file that is read to its end is not copied forever, whatever becomes of the
sending. -/
theorem ends_of_delivers {reads : Stream' Fread} {blocks : List (List UInt8)}
    (hreads : Delivers reads blocks) (sends : Stream' ℤ) : Ends false reads sends := by
  induction hreads generalizing sends with
  | @last reads heof =>
      by_cases hne : reads.head.bytes = []
      · refine ⟨2, ?_⟩
        rw [copyLoop_none hne, heof, copyLoop_true]
        rfl
      · rw [ends_block_iff hne, heof]
        exact Or.inr (ends_true _ _)
  | @more reads blocks heof hne hrest ih =>
      rw [ends_block_iff hne, heof]
      exact Or.inr (ih _)

/-- When nothing can be read any more and the end-of-file indicator is not set, the loop
goes round for ever: `ferror` is never asked. -/
theorem copyLoop_error {reads : Stream' Fread}
    (hnone : ∀ n, (reads.get n).bytes = [] ∧ (reads.get n).eof = false) (sends : Stream' ℤ)
    (fuel : ℕ) : copyLoop false reads sends fuel = none := by
  induction fuel generalizing reads with
  | zero => rfl
  | succ fuel ih =>
      obtain ⟨hbytes, heof⟩ : reads.head.bytes = [] ∧ reads.head.eof = false := hnone 0
      rw [copyLoop_none hbytes, heof]
      exact ih fun n => hnone (n + 1)

/-- Behind a read error only a failed `send` ends the loop. -/
theorem ends_iff_of_breaks {reads : Stream' Fread} {blocks : List (List UInt8)}
    (hreads : Breaks reads blocks) (sends : Stream' ℤ) :
    Ends false reads sends ↔ sendFails blocks sends = true := by
  induction hreads generalizing sends with
  | @error reads hnone =>
      refine iff_of_false ?_ Bool.false_ne_true
      rintro ⟨fuel, hfuel⟩
      rw [copyLoop_error hnone] at hfuel
      exact Bool.noConfusion hfuel
  | @more reads blocks heof hne hrest ih =>
      rw [ends_block_iff hne, heof, ih, sendFails_cons]

/-- The copy loop ends exactly when the end of the file is reached, or sending a block
that is read in front of the error fails. -/
theorem copyLoop_ends_iff {reads : Stream' Fread} {blocks : List (List UInt8)}
    (hreads : Delivers reads blocks ∨ Breaks reads blocks) (sends : Stream' ℤ) :
    Ends false reads sends ↔ Delivers reads blocks ∨ sendFails blocks sends = true := by
  constructor
  · intro hends
    rcases hreads with hdelivers | hbreaks
    · exact Or.inl hdelivers
    · exact Or.inr ((ends_iff_of_breaks hbreaks sends).mp hends)
  · rintro (hdelivers | hfails)
    · exact ends_of_delivers hdelivers sends
    · rcases hreads with hdelivers | hbreaks
      · exact ends_of_delivers hdelivers sends
      · exact (ends_iff_of_breaks hbreaks sends).mpr hfails

/-- What `fread` gives on a device that fails at once. -/
def readError : Stream' Fread := Stream'.const ⟨[], Nat.zero_le _, false⟩

theorem breaks_readError : Breaks readError [] := .error fun _ => ⟨rfl, rfl⟩

/-- What `fread` gives on a device that fails behind a first block. -/
def blockThenError : Stream' Fread :=
  Stream'.cons ⟨bytes ['h', 'i'], by decide, false⟩ readError

theorem breaks_blockThenError : Breaks blockThenError [bytes ['h', 'i']] :=
  @Breaks.more blockThenError [] rfl (by decide) breaks_readError

theorem copyLoop_ends_iff_readError :
    Ends false blockThenError (Stream'.const 1) ↔
      Delivers blockThenError [bytes ['h', 'i']] ∨
        sendFails [bytes ['h', 'i']] (Stream'.const 1) = true :=
  copyLoop_ends_iff (Or.inr breaks_blockThenError) (Stream'.const 1)

/-- On a device that fails at once the loop never ends. -/
theorem not_copyLoop_ends :
    ¬ ∀ (reads : Stream' Fread) (blocks : List (List UInt8)) (sends : Stream' ℤ),
      Delivers reads blocks ∨ Breaks reads blocks → Ends false reads sends := by
  intro h
  have hends := h readError [] (Stream'.const 1) (Or.inr breaks_readError)
  rw [ends_iff_of_breaks breaks_readError] at hends
  exact Bool.noConfusion hends

end LibSimple.Httpsrv
