import Mathlib.Data.List.Induction

/-!
# Walks in a directory tree

A place in a tree is the list of names that lead to it from the root.  A walk
is a list of moves that stay, go up or go down.  Whatever a walk does, its
effect is that of going up some number of times and then down some names; this
decides where it ends, and whether it ends below the place where it began.
-/

namespace PathWalk

variable {N : Type*}

inductive Move (N : Type*)
  | stay
  | up
  | down (name : N)
  deriving DecidableEq

/-- One move; above the root there is the root itself. -/
def move (place : List N) : Move N → List N
  | .stay => place
  | .up => place.dropLast
  | .down name => place ++ [name]

def walk (place : List N) (moves : List (Move N)) : List N := moves.foldl move place

theorem walk_append (place : List N) (moves moves' : List (Move N)) :
    walk place (moves ++ moves') = walk (walk place moves) moves' :=
  List.foldl_append

/-- The moves of a walk, with every way up cancelled against an earlier way
down: how often it goes up and the names it then goes down. -/
def net (moves : List (Move N)) : ℕ × List N :=
  moves.foldl (fun n m =>
    match m with
    | .stay => n
    | .up => if n.2 = [] then (n.1 + 1, []) else (n.1, n.2.dropLast)
    | .down name => (n.1, n.2 ++ [name])) (0, [])

theorem net_snoc (moves : List (Move N)) (m : Move N) :
    net (moves ++ [m]) =
      match m with
      | .stay => net moves
      | .up => if (net moves).2 = [] then ((net moves).1 + 1, [])
          else ((net moves).1, (net moves).2.dropLast)
      | .down name => ((net moves).1, (net moves).2 ++ [name]) := by
  rw [net, List.foldl_append]
  rfl

/-- A walk goes up and then down. -/
theorem walk_eq_net (place : List N) (moves : List (Move N)) :
    walk place moves = place.take (place.length - (net moves).1) ++ (net moves).2 := by
  induction moves using List.reverseRecOn with
  | nil => simp [walk, net]
  | append_singleton moves m ih =>
      rw [walk_append, ih, net_snoc]
      cases m with
      | stay => rfl
      | up =>
          show (place.take (place.length - (net moves).1) ++ (net moves).2).dropLast = _
          by_cases hnil : (net moves).2 = []
          · simp only [hnil, List.append_nil, if_true, List.dropLast_eq_take, List.take_take,
              List.length_take]
            congr 1
            omega
          · simp only [hnil, if_false]
            exact List.dropLast_append_of_ne_nil hnil
      | down name => exact List.append_assoc _ _ _

/-- A walk ends at or below its start exactly when it goes down again by the
names by which it went up. -/
theorem prefix_walk_iff (place : List N) (moves : List (Move N)) :
    place <+: walk place moves ↔
      place.drop (place.length - (net moves).1) <+: (net moves).2 := by
  rw [walk_eq_net]
  conv =>
    lhs
    lhs
    rw [← List.take_append_drop (place.length - (net moves).1) place]
  exact List.prefix_append_right_inj _

end PathWalk
