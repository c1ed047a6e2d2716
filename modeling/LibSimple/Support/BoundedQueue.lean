import Mathlib.Data.List.Basic

/-!
# Bounded queues

A first-in first-out queue of bounded length whose clients write and read
blocks.  A write takes as long a prefix of its block as there is room for, a
read stores as many elements into the destination as there are.
-/

namespace BoundedQueue

variable {α : Type*}

inductive Op (α : Type*)
  | write (data : List α)
  | read (dst : List α)

/-- What an operation returns: a count, and for a read the destination
afterwards. -/
inductive Result (ι α : Type*)
  | wrote (n : ι)
  | got (n : ι) (dst : List α)

def Result.map {ι κ : Type*} (f : ι → κ) : Result ι α → Result κ α
  | wrote n => wrote (f n)
  | got n dst => got (f n) dst

/-- One operation on a queue of at most `cap` elements. -/
def step (cap : ℕ) (q : List α) : Op α → List α × Result ℕ α
  | .write data =>
      let n := min data.length (cap - q.length)
      (q ++ data.take n, .wrote n)
  | .read dst =>
      let n := min dst.length q.length
      (q.drop n, .got n (q.take n ++ dst.drop n))

def run (cap : ℕ) (q : List α) : List (Op α) → List α × List (Result ℕ α)
  | [] => (q, [])
  | op :: ops =>
      let (q, r) := step cap q op
      let (q, rs) := run cap q ops
      (q, r :: rs)

/-- The elements that an operation has put into the queue. -/
def accepted : Op α → Result ℕ α → List α
  | .write data, .wrote n => data.take n
  | _, _ => []

/-- The elements that an operation has handed out. -/
def delivered : Op α → Result ℕ α → List α
  | .read _, .got n dst => dst.take n
  | _, _ => []

theorem step_fifo (cap : ℕ) (q : List α) (op : Op α) :
    q ++ accepted op (step cap q op).2 =
      delivered op (step cap q op).2 ++ (step cap q op).1 := by
  cases op with
  | write data => simp [step, accepted, delivered]
  | read dst =>
      have htake : (q.take (min dst.length q.length) ++
          dst.drop (min dst.length q.length)).take (min dst.length q.length) =
            q.take (min dst.length q.length) :=
        List.take_left' (by rw [List.length_take]; omega)
      simp only [step, accepted, delivered, List.append_nil, htake, List.take_append_drop]

/-- First in, first out: what has been accepted is what has been delivered,
followed by what is still in the queue. -/
theorem run_fifo (cap : ℕ) (q : List α) (ops : List (Op α)) :
    q ++ (List.zipWith accepted ops (run cap q ops).2).flatten =
      (List.zipWith delivered ops (run cap q ops).2).flatten ++ (run cap q ops).1 := by
  induction ops generalizing q with
  | nil => simp [run]
  | cons op ops ih =>
      have hstep := step_fifo cap q op
      have hrest := ih (step cap q op).1
      simp only [run, List.zipWith_cons_cons, List.flatten_cons]
      rw [← List.append_assoc, hstep, List.append_assoc, hrest, List.append_assoc]

end BoundedQueue
