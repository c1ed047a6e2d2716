import LibSimple.CircBuf.Model
import LibSimple.Support.RingWindow

/-!
# The circular buffer is a bounded queue

The buffer holds the queued bytes in a window of its ring.  One slot stays
free, so `head = tail` always means an empty queue.
-/

namespace LibSimple.CircBuf

open CLang BoundedQueue RingWindow

/-- The buffer holds the queue `q` in the window that starts at slot `t`. -/
structure Represents (c : CircBufImpl) (t : ℕ) (q : List UInt8) : Prop where
  tail : c.tail = t
  head : c.head = (slot c.buf.length (t + q.length) : ℕ)
  size : c.size = c.buf.length
  window : Window c.buf t q
  room : q.length < c.buf.length
  small : c.buf.length ≤ 1073741824

theorem tmod_natCast {i n : ℕ} (h : i < 2 * n) : Int.tmod i n = (slot n i : ℕ) := by
  rw [← Int.ofNat_tmod, mod_eq_slot h]

variable {c : CircBufImpl} {t : ℕ} {q : List UInt8}

theorem represents_create {N : ℕ} (hlo : 1 ≤ N) (hhi : N ≤ 1073741824) {mem : List UInt8}
    (hmem : mem.length = N) : Represents (simpleCircBufCreate N mem) 0 [] where
  tail := rfl
  head := by
    rw [slot_of_lt (by rw [simpleCircBufCreate, hmem]; exact hlo)]
    rfl
  size := by rw [simpleCircBufCreate, hmem]
  window := window_nil (by rw [simpleCircBufCreate, hmem]; exact hlo)
  room := by
    rw [simpleCircBufCreate, hmem]
    exact hlo
  small := by rwa [simpleCircBufCreate, hmem]

/-! ## The index arithmetic -/

/-- The head of a queue of `n` bytes that starts at slot `t` of `N`. -/
theorem head_cases (t n N : ℕ) :
    (t + n < N ∧ slot N (t + n) = t + n) ∨
      (N ≤ t + n ∧ slot N (t + n) + N = t + n) := by
  by_cases h : t + n < N
  · exact Or.inl ⟨h, slot_of_lt h⟩
  · refine Or.inr ⟨by omega, ?_⟩
    rw [slot_of_ge (by omega)]
    omega

/-- From the tail to the head there are the queued bytes. -/
theorem slot_head_sub_tail {t n N : ℕ} (ht : t < N) (hn : n < N) :
    slot N (slot N (t + n) + (N - t)) = n := by
  rcases head_cases t n N with ⟨hlt, hhead⟩ | ⟨hge, hhead⟩
  · rw [slot_of_ge (by omega)]
    omega
  · rw [slot_of_lt (by omega)]
    omega

/-- From the slot behind the head to the tail there are the free ones. -/
theorem slot_tail_sub_head {t n N : ℕ} (ht : t < N) (hn : n < N) :
    slot N (N - 1 - slot N (t + n) + t) = N - 1 - n := by
  rcases head_cases t n N with ⟨hlt, hhead⟩ | ⟨hge, hhead⟩
  · rw [slot_of_lt (by omega)]
    omega
  · rw [slot_of_ge (by omega)]
    omega

theorem Represents.head_lt (hc : Represents c t q) :
    slot c.buf.length (t + q.length) < c.buf.length := by
  have hstart := hc.window.start
  have hroom := hc.room
  exact slot_lt (by omega)

theorem getDataCnt_eq (hc : Represents c t q) : simpleCircBufGetDataCnt c = q.length := by
  have hint := intMax_eq
  have hstart := hc.window.start
  have hsmall := hc.small
  have hhead := hc.head_lt
  rw [simpleCircBufGetDataCnt, cnt, hc.tail, hc.head, hc.size, addInt_natCast (by omega),
    subInt_natCast (by omega) (by omega), tmod_natCast (by omega), Nat.add_sub_assoc hstart.le,
    slot_head_sub_tail hstart hc.room]

theorem getSpaceCnt_eq (hc : Represents c t q) :
    simpleCircBufGetSpaceCnt c = ((c.buf.length - 1 - q.length : ℕ) : ℤ) := by
  have hint := intMax_eq
  have hstart := hc.window.start
  have hsmall := hc.small
  have hhead := hc.head_lt
  have hback : t + c.buf.length - (slot c.buf.length (t + q.length) + 1) =
      c.buf.length - 1 - slot c.buf.length (t + q.length) + t := by omega
  rw [simpleCircBufGetSpaceCnt, space, hc.tail, hc.head, hc.size, ← Nat.cast_one,
    cnt, addInt_natCast (by omega), addInt_natCast (by omega), subInt_natCast (by omega) (by omega),
    tmod_natCast (by omega), hback, slot_tail_sub_head hstart hc.room]

theorem circCntToEnd_eq (hc : Represents c t q) :
    circCntToEnd c.head c.tail c.size = ((min q.length (c.buf.length - t) : ℕ) : ℤ) := by
  have hint := intMax_eq
  have hstart := hc.window.start
  have hsmall := hc.small
  have hhead := hc.head_lt
  rw [circCntToEnd, hc.tail, hc.head, hc.size, subInt_natCast (by omega) (by omega),
    addInt_natCast (by omega), tmod_natCast (by omega), slot_head_sub_tail hstart hc.room]
  split_ifs with h <;> omega

theorem circSpaceToEnd_eq (hc : Represents c t q) :
    circSpaceToEnd c.head c.tail c.size =
      ((min (c.buf.length - 1 - q.length)
        (c.buf.length - slot c.buf.length (t + q.length)) : ℕ) : ℤ) := by
  have hint := intMax_eq
  have hstart := hc.window.start
  have hroom := hc.room
  have hsmall := hc.small
  have hhead := hc.head_lt
  rw [circSpaceToEnd, hc.tail, hc.head, hc.size, ← Nat.cast_one,
    subInt_natCast (by omega) (by omega), subInt_natCast (by omega) (by omega),
    addInt_natCast (by omega), tmod_natCast (by omega), slot_tail_sub_head hstart hroom,
    addInt_natCast (by omega)]
  split_ifs with h <;> omega

/-! ## One copy -/

/-- A copy out of the buffer hands out a prefix of the queue. -/
theorem takeOut_eq (hc : Represents c t q) (dst : List UInt8) (pos n : ℕ)
    (hn : n ≤ q.length) (hfit : t + n ≤ c.buf.length) (hdst : pos + n ≤ dst.length) :
    ∃ c', takeOut c dst pos n =
        some (c', dst.take pos ++ (q.take n ++ dst.drop (pos + n))) ∧
      c'.buf.length = c.buf.length ∧
      Represents c' (slot c.buf.length (t + n)) (q.drop n) := by
  have hint := intMax_eq
  have hstart := hc.window.start
  have hroom := hc.room
  have hsmall := hc.small
  have hcopy : memcpy dst pos c.buf c.tail n =
      some (dst.take pos ++ (q.take n ++ dst.drop (pos + n))) := by
    rw [hc.tail, memcpy_natCast hdst hfit, hc.window.read hn hfit]
  have htail : Int.tmod (addInt c.tail n) c.size = (slot c.buf.length (t + n) : ℕ) := by
    rw [hc.tail, hc.size, addInt_natCast (by omega), tmod_natCast (by omega)]
  have hhead : slot c.buf.length (slot c.buf.length (t + n) + (q.drop n).length) =
      slot c.buf.length (t + q.length) := by
    rw [List.length_drop, slot_slot_add (by omega), Nat.add_assoc, Nat.add_sub_cancel' hn]
  refine ⟨{ c with tail := (slot c.buf.length (t + n) : ℕ) }, ?_, rfl,
    ⟨rfl, ?_, hc.size, hc.window.drop hn, ?_, hsmall⟩⟩
  · simp only [takeOut, hcopy, htail, Option.bind_eq_bind, Option.bind_some, Option.pure_def]
  · rw [hhead]
    exact hc.head
  · rw [List.length_drop]
    exact lt_of_le_of_lt (Nat.sub_le _ _) hroom

/-- A copy into the buffer appends to the queue. -/
theorem putIn_eq (hc : Represents c t q) (data : List UInt8) (start n : ℕ)
    (hn : q.length + n < c.buf.length)
    (hfit : slot c.buf.length (t + q.length) + n ≤ c.buf.length)
    (hdata : start + n ≤ data.length) :
    ∃ c', putIn c data start n = some c' ∧ c'.buf.length = c.buf.length ∧
      Represents c' t (q ++ (data.drop start).take n) := by
  have hint := intMax_eq
  have hstart := hc.window.start
  have hroom := hc.room
  have hsmall := hc.small
  have hlen : ((data.drop start).take n).length = n := by
    rw [List.length_take, List.length_drop]
    omega
  have hcopy : memcpy c.buf c.head data start n =
      some (overwrite c.buf (slot c.buf.length (t + q.length)) ((data.drop start).take n)) := by
    rw [hc.head, memcpy_natCast hfit hdata, overwrite, hlen]
  have hfit' : slot c.buf.length (t + q.length) + ((data.drop start).take n).length ≤
      c.buf.length := by
    rw [hlen]
    exact hfit
  have hlength := length_overwrite hfit'
  have hhead : Int.tmod (addInt c.head n) c.size =
      (slot c.buf.length (t + (q ++ (data.drop start).take n).length) : ℕ) := by
    rw [hc.head, hc.size, addInt_natCast (by omega), tmod_natCast (by omega), Nat.cast_inj,
      List.length_append, hlen, slot_slot_add (by omega), Nat.add_assoc]
  refine ⟨{ c with
    buf := overwrite c.buf (slot c.buf.length (t + q.length)) ((data.drop start).take n)
    head := (slot c.buf.length (t + (q ++ (data.drop start).take n).length) : ℕ) },
    ?_, hlength, ⟨hc.tail, ?_, ?_, hc.window.append ?_ hfit', ?_, ?_⟩⟩
  · simp only [putIn, hcopy, hhead, Option.bind_eq_bind, Option.bind_some, Option.pure_def]
  · rw [hlength]
  · rw [hlength]
    exact hc.size
  · rw [hlen]
    omega
  · rw [hlength, List.length_append, hlen]
    exact hn
  · rw [hlength]
    exact hsmall

/-! ## The operations -/

theorem cast_ite_min {m n : ℕ} :
    (if n ≤ m then (n : ℤ) else (m : ℤ)) = ((min m n : ℕ) : ℤ) := by
  split_ifs <;> omega

/-- A read hands out as much of the queue as the destination has room for. -/
theorem simpleCircBufRead_eq (hc : Represents c t q) {dst : List UInt8}
    (hdst : dst.length ≤ intMax) :
    ∃ c' t', simpleCircBufRead c dst dst.length =
        some (c', q.take (min dst.length q.length) ++ dst.drop (min dst.length q.length),
          ((min dst.length q.length : ℕ) : ℤ)) ∧
      c'.buf.length = c.buf.length ∧ Represents c' t' (q.drop (min dst.length q.length)) := by
  have hstart := hc.window.start
  have hroom := hc.room
  rw [simpleCircBufRead, circCntToEnd_eq hc]
  by_cases hone : dst.length ≤ min q.length (c.buf.length - t)
  · obtain ⟨c', htake, hlen, hc'⟩ := takeOut_eq hc dst 0 dst.length (by omega) (by omega)
      (by omega)
    have hmin : min dst.length q.length = dst.length := by omega
    refine ⟨c', slot c.buf.length (t + dst.length), ?_, hlen, by rw [hmin]; exact hc'⟩
    rw [List.take_zero, List.nil_append, Nat.zero_add, Nat.cast_zero] at htake
    simp only [Nat.cast_le, if_pos hone, hmin, htake, Option.bind_eq_bind, Option.bind_some,
      Option.pure_def]
  · obtain ⟨n, hn⟩ : ∃ n, n = min q.length (c.buf.length - t) := ⟨_, rfl⟩
    obtain ⟨c₁, htake₁, hlen₁, hc₁⟩ := takeOut_eq hc dst 0 n (by omega) (by omega) (by omega)
    obtain ⟨m, hm⟩ : ∃ m, m = min (dst.length - n) (q.length - n) := ⟨_, rfl⟩
    have hslot : slot c.buf.length (t + n) < c.buf.length := slot_lt (by omega)
    -- after the first copy the rest of the queue is contiguous
    have hrest : min (q.drop n).length (c₁.buf.length - slot c.buf.length (t + n)) =
        q.length - n := by
      rw [List.length_drop, hlen₁]
      unfold slot
      split_ifs <;> omega
    have hfront : (q.take n).length = n := List.length_take_of_le (by omega)
    obtain ⟨c₂, htake₂, hlen₂, hc₂⟩ := takeOut_eq hc₁ (q.take n ++ dst.drop n) n m
      (by rw [List.length_drop]; omega) (by omega)
      (by rw [List.length_append, hfront, List.length_drop]; omega)
    have hmin : min dst.length q.length = n + m := by omega
    have hback : (q.take n ++ dst.drop n).drop (n + m) = dst.drop (n + m) := by
      rw [List.drop_append, hfront, Nat.add_sub_cancel_left, List.drop_drop,
        List.drop_eq_nil_of_le (show (q.take n).length ≤ n + m by omega), List.nil_append]
    have hbytes : (q.take n ++ dst.drop n).take n ++
        ((q.drop n).take m ++ (q.take n ++ dst.drop n).drop (n + m)) =
          q.take (n + m) ++ dst.drop (n + m) := by
      rw [List.take_left' hfront, hback, ← List.append_assoc, ← List.take_add]
    rw [List.take_zero, List.nil_append, Nat.zero_add, Nat.cast_zero] at htake₁
    rw [hbytes] at htake₂
    refine ⟨c₂, slot c₁.buf.length (slot c.buf.length (t + n) + m), ?_, hlen₂.trans hlen₁, ?_⟩
    · rw [← hn] at hone
      simp only [Nat.cast_le, ge_iff_le, if_neg hone, ← hn, htake₁, Option.bind_eq_bind,
        Option.bind_some,
        subInt_natCast (show n ≤ dst.length by omega) hdst, circCntToEnd_eq hc₁, hrest,
        cast_ite_min, ← hm, htake₂, Option.pure_def, hmin,
        addInt_natCast (show n + m ≤ intMax by omega)]
    · rw [hmin, ← List.drop_drop]
      exact hc₂

/-- A write takes as much of the block as there is room for. -/
theorem simpleCircBufWrite_eq (hc : Represents c t q) {data : List UInt8}
    (hdata : data.length ≤ intMax) :
    ∃ c' t', simpleCircBufWrite c data data.length =
        some (c', ((min data.length (c.buf.length - 1 - q.length) : ℕ) : ℤ)) ∧
      c'.buf.length = c.buf.length ∧
      Represents c' t' (q ++ data.take (min data.length (c.buf.length - 1 - q.length))) := by
  have hstart := hc.window.start
  have hroom := hc.room
  have hhead := hc.head_lt
  rw [simpleCircBufWrite, circSpaceToEnd_eq hc]
  by_cases hone : data.length ≤ min (c.buf.length - 1 - q.length)
      (c.buf.length - slot c.buf.length (t + q.length))
  · obtain ⟨c', hput, hlen, hc'⟩ := putIn_eq hc data 0 data.length (by omega) (by omega)
      (by omega)
    have hmin : min data.length (c.buf.length - 1 - q.length) = data.length := by omega
    rw [List.drop_zero] at hc'
    rw [Nat.cast_zero] at hput
    refine ⟨c', t, ?_, hlen, by rw [hmin]; exact hc'⟩
    simp only [Nat.cast_le, if_pos hone, hmin, hput, Option.bind_eq_bind, Option.bind_some,
      Option.pure_def]
  · obtain ⟨n, hn⟩ : ∃ n, n = min (c.buf.length - 1 - q.length)
        (c.buf.length - slot c.buf.length (t + q.length)) := ⟨_, rfl⟩
    obtain ⟨c₁, hput₁, hlen₁, hc₁⟩ := putIn_eq hc data 0 n (by omega) (by omega) (by omega)
    rw [List.drop_zero] at hc₁
    rw [Nat.cast_zero] at hput₁
    obtain ⟨m, hm⟩ : ∃ m, m = min (data.length - n) (c.buf.length - 1 - q.length - n) :=
      ⟨_, rfl⟩
    have hqueue : (q ++ data.take n).length = q.length + n := by
      rw [List.length_append, List.length_take_of_le (by omega)]
    have hhead₁ := hc₁.head_lt
    -- after the first copy the rest of the free space is contiguous
    have hrest : min (c₁.buf.length - 1 - (q ++ data.take n).length)
        (c₁.buf.length - slot c₁.buf.length (t + (q ++ data.take n).length)) =
          c.buf.length - 1 - q.length - n := by
      rw [hqueue, hlen₁]
      unfold slot at *
      split_ifs at * <;> omega
    obtain ⟨c₂, hput₂, hlen₂, hc₂⟩ := putIn_eq hc₁ data n m (by omega) (by omega) (by omega)
    have hmin : min data.length (c.buf.length - 1 - q.length) = n + m := by omega
    refine ⟨c₂, t, ?_, hlen₂.trans hlen₁, ?_⟩
    · rw [← hn] at hone
      simp only [Nat.cast_le, ge_iff_le, if_neg hone, ← hn, hput₁, Option.bind_eq_bind,
        Option.bind_some,
        subInt_natCast (show n ≤ data.length by omega) hdata, circSpaceToEnd_eq hc₁, hrest,
        cast_ite_min, ← hm, hput₂, Option.pure_def, hmin,
        addInt_natCast (show n + m ≤ intMax by omega)]
    · rw [hmin, List.take_add, ← List.append_assoc]
      exact hc₂

/-! ## Runs of calls -/

/-- An operation whose size fits the `int` parameter. -/
def OpOk : Op UInt8 → Prop
  | .write data => data.length ≤ intMax
  | .read dst => dst.length ≤ intMax

instance : DecidablePred OpOk
  | .write data => inferInstanceAs (Decidable (data.length ≤ intMax))
  | .read dst => inferInstanceAs (Decidable (dst.length ≤ intMax))

/-- A call does what the queue of capacity `size - 1` does. -/
theorem call_eq (hc : Represents c t q) {op : Op UInt8} (hop : OpOk op) :
    ∃ c' t', call c op =
        some (c', (step (c.buf.length - 1) q op).2.map ((↑) : ℕ → ℤ)) ∧
      c'.buf.length = c.buf.length ∧
      Represents c' t' (step (c.buf.length - 1) q op).1 := by
  cases op with
  | write data =>
      obtain ⟨c', t', hwrite, hlen, hc'⟩ := simpleCircBufWrite_eq hc hop
      refine ⟨c', t', ?_, hlen, hc'⟩
      simp only [call, hwrite, Option.bind_eq_bind, Option.bind_some, Option.pure_def]
      rfl
  | read dst =>
      obtain ⟨c', t', hread, hlen, hc'⟩ := simpleCircBufRead_eq hc hop
      refine ⟨c', t', ?_, hlen, hc'⟩
      simp only [call, hread, Option.bind_eq_bind, Option.bind_some, Option.pure_def]
      rfl

theorem calls_eq (hc : Represents c t q) {ops : List (Op UInt8)} (hops : ∀ op ∈ ops, OpOk op) :
    ∃ c' t', calls c ops =
        some (c', (run (c.buf.length - 1) q ops).2.map (Result.map ((↑) : ℕ → ℤ))) ∧
      c'.buf.length = c.buf.length ∧
      Represents c' t' (run (c.buf.length - 1) q ops).1 := by
  induction ops generalizing c t q with
  | nil => exact ⟨c, t, rfl, rfl, hc⟩
  | cons op ops ih =>
      rw [List.forall_mem_cons] at hops
      obtain ⟨c₁, t₁, hcall, hlen₁, hc₁⟩ := call_eq hc hops.1
      obtain ⟨c₂, t₂, hcalls, hlen₂, hc₂⟩ := ih hc₁ hops.2
      rw [hlen₁] at hcalls hc₂
      refine ⟨c₂, t₂, ?_, hlen₂.trans hlen₁, hc₂⟩
      simp only [calls, hcall, hcalls, Option.bind_eq_bind, Option.bind_some, Option.pure_def]
      rfl

/-- After any sequence of calls the buffer is a first-in first-out queue of
`size - 1` bytes: all results are those of the queue, every access stays below
`size`, and the counts are those of the queue. -/
theorem circBuf_refines_boundedQueue {N : ℕ} (hlo : 1 ≤ N) (hhi : N ≤ 1073741824)
    {mem : List UInt8} (hmem : mem.length = N) {ops : List (Op UInt8)}
    (hops : ∀ op ∈ ops, OpOk op) :
    let q := (run (N - 1) [] ops).1
    let rs := (run (N - 1) [] ops).2
    (List.zipWith accepted ops rs).flatten = (List.zipWith delivered ops rs).flatten ++ q ∧
      ∃ c, calls (simpleCircBufCreate N mem) ops =
          some (c, rs.map (Result.map ((↑) : ℕ → ℤ))) ∧
        (0 ≤ c.head ∧ c.head < N) ∧ (0 ≤ c.tail ∧ c.tail < N) ∧
        simpleCircBufGetDataCnt c = q.length ∧
        simpleCircBufGetSpaceCnt c = (N : ℤ) - 1 - q.length := by
  have hcreate := represents_create hlo hhi hmem
  obtain ⟨c, t, hcalls, hlen, hc⟩ := calls_eq hcreate hops
  have hbuf : (simpleCircBufCreate N mem).buf.length = N := hmem
  rw [hbuf] at hcalls hlen hc
  have hstart := hc.window.start
  have hroom := hc.room
  have hhead := hc.head_lt
  refine ⟨run_fifo (N - 1) [] ops, c, hcalls, ?_, ?_, getDataCnt_eq hc, ?_⟩
  · rw [hc.head]
    omega
  · rw [hc.tail]
    omega
  · rw [getSpaceCnt_eq hc]
    omega

/-- A buffer of two usable bytes, written beyond its room and read back. -/
theorem circBuf_refines_boundedQueue_wrap :
    let ops := [.write [1, 2, 3], .read [0], .write [4], .read [0, 0, 0]]
    let q := (run 2 [] ops).1
    let rs := (run 2 [] ops).2
    (List.zipWith accepted ops rs).flatten = (List.zipWith delivered ops rs).flatten ++ q ∧
      ∃ c, calls (simpleCircBufCreate 3 [0, 0, 0]) ops =
          some (c, rs.map (Result.map ((↑) : ℕ → ℤ))) ∧
        (0 ≤ c.head ∧ c.head < 3) ∧ (0 ≤ c.tail ∧ c.tail < 3) ∧
        simpleCircBufGetDataCnt c = q.length ∧
        simpleCircBufGetSpaceCnt c = 3 - 1 - q.length :=
  circBuf_refines_boundedQueue (N := 3) (by decide) (by decide) rfl (by decide)

end LibSimple.CircBuf
