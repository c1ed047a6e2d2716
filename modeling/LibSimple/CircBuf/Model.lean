import LibSimple.Support.BoundedQueue
import LibSimple.Support.CLang

/-!
# The circular buffer

`circ_buf.c`.  Both operations hold the mutex from beginning to end, so a run
is a sequence of whole operations.

`buf` is the first `size` of the `size + 1` allocated bytes: an access to the
last one would be an error of the model, as would one outside the allocation.
-/

namespace LibSimple.CircBuf

open CLang BoundedQueue

structure CircBufImpl where
  buf : List UInt8
  head : ℤ
  tail : ℤ
  size : ℤ

/-- `simple_circ_buf_create`; `mem` is what the allocation happens to hold. -/
def simpleCircBufCreate (size : ℤ) (mem : List UInt8) : CircBufImpl where
  buf := mem
  head := 0
  tail := 0
  size := size

/-- `_cnt` -/
def cnt (head tail size : ℤ) : ℤ := Int.tmod (subInt (addInt head size) tail) size

/-- `_space` -/
def space (head tail size : ℤ) : ℤ := cnt tail (addInt head 1) size

/-- `simple_circ_buf_get_data_cnt` -/
def simpleCircBufGetDataCnt (c : CircBufImpl) : ℤ := cnt c.head c.tail c.size

/-- `simple_circ_buf_get_space_cnt` -/
def simpleCircBufGetSpaceCnt (c : CircBufImpl) : ℤ := space c.head c.tail c.size

/-- `_circ_cnt_to_end` -/
def circCntToEnd (head tail size : ℤ) : ℤ :=
  let toEnd := subInt size tail
  let n := Int.tmod (addInt head toEnd) size
  if n < toEnd then n else toEnd

/-- `_circ_space_to_end` -/
def circSpaceToEnd (head tail size : ℤ) : ℤ :=
  let toEnd := subInt (subInt size 1) head
  let n := Int.tmod (addInt toEnd tail) size
  if n ≤ toEnd then n else addInt toEnd 1

/-- `memcpy(dst+pos, c->buf+c->tail, n)`, and `tail` moved by `n`. -/
def takeOut (c : CircBufImpl) (dst : List UInt8) (pos n : ℤ) :
    Option (CircBufImpl × List UInt8) := do
  let dst ← memcpy dst pos c.buf c.tail n
  return ({ c with tail := Int.tmod (addInt c.tail n) c.size }, dst)

/-- `memcpy(c->buf+c->head, from, n)`, and `head` moved by `n`. -/
def putIn (c : CircBufImpl) (data : List UInt8) (start n : ℤ) : Option CircBufImpl := do
  let buf ← memcpy c.buf c.head data start n
  return { c with buf := buf, head := Int.tmod (addInt c.head n) c.size }

/-- `simple_circ_buf_read`: the destination afterwards and the return value. -/
def simpleCircBufRead (c : CircBufImpl) (dst : List UInt8) (size : ℤ) :
    Option (CircBufImpl × List UInt8 × ℤ) :=
  let n := circCntToEnd c.head c.tail c.size
  if size ≤ n then do
    let (c, dst) ← takeOut c dst 0 size
    return (c, dst, size)
  else do
    let total := n
    let (c, dst) ← takeOut c dst 0 n
    let size := subInt size n
    let n := circCntToEnd c.head c.tail c.size
    let n := if size ≥ n then n else size
    let (c, dst) ← takeOut c dst total n
    return (c, dst, addInt total n)

/-- `simple_circ_buf_write`, with its return value. -/
def simpleCircBufWrite (c : CircBufImpl) (data : List UInt8) (size : ℤ) :
    Option (CircBufImpl × ℤ) :=
  let n := circSpaceToEnd c.head c.tail c.size
  if size ≤ n then do
    let c ← putIn c data 0 size
    return (c, size)
  else do
    let total := n
    let c ← putIn c data 0 n
    let size := subInt size n
    let n := circSpaceToEnd c.head c.tail c.size
    let n := if size ≥ n then n else size
    let c ← putIn c data total n
    return (c, addInt total n)

/-- One call, on a block or a destination of the given size. -/
def call (c : CircBufImpl) : Op UInt8 → Option (CircBufImpl × Result ℤ UInt8)
  | .write data => do
      let (c, n) ← simpleCircBufWrite c data data.length
      return (c, .wrote n)
  | .read dst => do
      let (c, dst, n) ← simpleCircBufRead c dst dst.length
      return (c, .got n dst)

def calls (c : CircBufImpl) : List (Op UInt8) → Option (CircBufImpl × List (Result ℤ UInt8))
  | [] => some (c, [])
  | op :: ops => do
      let (c, r) ← call c op
      let (c, rs) ← calls c ops
      return (c, r :: rs)

end LibSimple.CircBuf
