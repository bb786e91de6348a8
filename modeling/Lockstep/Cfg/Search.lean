/-!
# Depth-first search

A depth-first search over nodes given by numbers. It records the nodes in the order in which
they are entered and in the order in which they are left; the latter, newest first, is the
reverse post-order.
-/

namespace Lockstep

/-- The state of a depth-first search. -/
structure Search where
  /-- The nodes that are not entered again. -/
  seen : List Nat
  /-- The nodes entered, newest first. -/
  entered : List Nat := []
  /-- The nodes left, newest first. -/
  left : List Nat := []
  deriving DecidableEq, Repr, Inhabited

namespace Search

def empty : Search := { seen := [] }

def enter (s : Search) (b : Nat) : Search :=
  { s with seen := b :: s.seen, entered := b :: s.entered }

def leave (s : Search) (b : Nat) : Search := { s with left := b :: s.left }

/-- Searches from `b` along `next`, at most `fuel` nodes deep. -/
def visit (next : Nat → List Nat) : (fuel : Nat) → (b : Nat) → Search → Search
  | 0, _, s => s
  | fuel + 1, b, s =>
    if s.seen.contains b then s
    else ((next b).foldl (fun s c => visit next fuel c s) (s.enter b)).leave b

/-- Searches from several nodes, one after the other. -/
def visitAll (next : Nat → List Nat) (fuel : Nat) (bs : List Nat) (s : Search) : Search :=
  bs.foldl (fun s b => visit next fuel b s) s

end Search

end Lockstep
