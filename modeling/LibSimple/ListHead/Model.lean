import LibSimple.Support.LinkedRing

/-!
# The intrusive list of `list.h`

The macros of `list.h` on a heap of `list_head`s.  A read or a write at an
address that is not alive is undefined, which `none` stands for.  A loop takes
the number of times that its condition may be evaluated as fuel, and is `none`
also when it runs out of it.
-/

namespace LibSimple.ListHead

open LinkedRing

variable {A : Type} [DecidableEq A]

/-- `____list_add` -/
def listAddBetween (heap : Heap A) (n prev next : A) : Option (Heap A) := do
  let heap ← heap.setPrev next n
  let heap ← heap.setNext n next
  let heap ← heap.setPrev n prev
  heap.setNext prev n

/-- `list_init` -/
def listInit (heap : Heap A) (head : A) : Option (Heap A) := do
  let heap ← heap.setPrev head head
  heap.setNext head head

/-- `list_add` -/
def listAdd (heap : Heap A) (node head : A) : Option (Heap A) := do
  let next ← heap.next head
  listAddBetween heap node head next

/-- `list_del`: the links of the node itself stay as they are. -/
def listDel (heap : Heap A) (node : A) : Option (Heap A) := do
  let next ← heap.next node
  let prev ← heap.prev node
  let before ← heap.prev node
  let heap ← heap.setNext before next
  let after ← heap.next node
  heap.setPrev after prev

/-- `list_add_tail` -/
def listAddTail (heap : Heap A) (node head : A) : Option (Heap A) := do
  let prev ← heap.prev head
  listAddBetween heap node prev head

/-- `list_empty` -/
def listEmpty (heap : Heap A) (head : A) : Option Bool := do
  let next ← heap.next head
  return decide (head = next)

/-- `____list_splice` -/
def listSpliceBetween (heap : Heap A) (l prev next : A) : Option (Heap A) := do
  let first ← heap.next l
  let last ← heap.prev l
  let heap ← heap.setPrev first prev
  let heap ← heap.setNext prev first
  let heap ← heap.setNext last next
  heap.setPrev next last

/-- `list_splice` -/
def listSplice (heap : Heap A) (list head : A) : Option (Heap A) := do
  if ← listEmpty heap list then return heap
  else
    let next ← heap.next head
    listSpliceBetween heap list head next

/-- `list_splice_tail` -/
def listSpliceTail (heap : Heap A) (list head : A) : Option (Heap A) := do
  if ← listEmpty heap list then return heap
  else
    let prev ← heap.prev head
    listSpliceBetween heap list prev head

/-- `____list_exchange` -/
def listExchangeBetween (heap : Heap A) (n1 n1prev n1next n2 n2prev n2next : A) :
    Option (Heap A) := do
  let heap ← heap.setPrev n1 n2prev
  let heap ← heap.setNext n2prev n1
  let heap ← heap.setNext n1 n2next
  let heap ← heap.setPrev n2next n1
  let heap ← heap.setPrev n2 n1prev
  let heap ← heap.setNext n1prev n2
  let heap ← heap.setNext n2 n1next
  heap.setPrev n1next n2

/-- `list_exchange` -/
def listExchange (heap : Heap A) (node1 node2 : A) : Option (Heap A) := do
  let prev1 ← heap.prev node1
  let next1 ← heap.next node1
  let prev2 ← heap.prev node2
  let next2 ← heap.next node2
  listExchangeBetween heap node1 prev1 next1 node2 prev2 next2

/-! ## Loops -/

/-- The rounds of `list_for_each` from `pos` on; a body that answers `some`
returns from the function around the loop. -/
def listForEachFrom {R : Type} (heap : Heap A) (head : A) (body : A → Option (Option R)) :
    ℕ → A → Option (Option R)
  | 0, _ => none
  | fuel + 1, pos =>
      if pos = head then some none
      else do
        match ← body pos with
        | some r => some (some r)
        | none => listForEachFrom heap head body fuel (← heap.next pos)

/-- `list_for_each` -/
def listForEach {R : Type} (heap : Heap A) (head : A) (body : A → Option (Option R))
    (fuel : ℕ) : Option (Option R) := do
  listForEachFrom heap head body fuel (← heap.next head)

/-- The rounds of `list_for_each_safe` from `pos` on, in a state that holds the
heap; `n` has been read before the body runs. -/
def listForEachSafeFrom {S : Type} (heads : S → Heap A) (head : A) (body : A → S → Option S) :
    ℕ → A → A → S → Option S
  | 0, _, _, _ => none
  | fuel + 1, pos, n, s =>
      if pos = head then some s
      else do
        let s ← body pos s
        listForEachSafeFrom heads head body fuel n (← (heads s).next n) s

/-- `list_for_each_safe` -/
def listForEachSafe {S : Type} (heads : S → Heap A) (head : A) (body : A → S → Option S)
    (s : S) (fuel : ℕ) : Option S := do
  let pos ← (heads s).next head
  let n ← (heads s).next pos
  listForEachSafeFrom heads head body fuel pos n s

end LibSimple.ListHead
