import Lockstep.Cfg.Loop

/-!
# Regions

A region is the part of a function that is vectorized: an entry, and the blocks that it reaches
before any of the exits of the region.
-/

namespace Lockstep

/-- A part of a function. -/
structure Region where
  entry : BlockId
  /-- The blocks of the region, each once. -/
  blocks : List BlockId
  deriving DecidableEq, Repr, Inhabited

namespace Region

/-- Collects blocks from a stack: a block that is no exit and has not been collected is taken,
and its targets are put on the stack. -/
def collect (f : Func) (exits : List BlockId) :
    (fuel : Nat) → (stack blocks : List BlockId) → List BlockId
  | 0, _, blocks => blocks
  | _ + 1, [], blocks => blocks
  | fuel + 1, b :: stack, blocks =>
    if exits.contains b || blocks.contains b then collect f exits fuel stack blocks
    else collect f exits fuel ((f.term b).targets ++ stack) (blocks ++ [b])

/-- The region that starts at a block and ends before the exits. -/
def between (f : Func) (entry : BlockId) (exits : List BlockId) : Region where
  entry
  blocks := collect f exits (3 * f.blocks.size + 2) [entry] []

def wholeFunction (f : Func) : Region := between f f.entry []

/-- The blocks of a loop. -/
def ofLoop (l : Loop) : Region where
  entry := l.header
  blocks := l.blocks

def contains (r : Region) (b : BlockId) : Bool := r.blocks.contains b

/-- Adds a block that was made inside the region. -/
def addBlock (r : Region) (b : BlockId) : Region :=
  if r.contains b then r else { r with blocks := r.blocks ++ [b] }

theorem contains_addBlock (r : Region) (b c : BlockId) :
    (r.addBlock b).contains c = (r.contains c || c == b) := by
  unfold addBlock
  split
  · rename_i h
    by_cases hc : c = b
    · rw [hc, h, Bool.true_or]
    · have hf : (c == b) = false := beq_eq_false_iff_ne.mpr hc
      rw [hf, Bool.or_false]
  · show (r.blocks ++ [b]).contains c = _
    rw [List.contains_append, List.contains_cons, List.contains_nil, Bool.or_false, contains]

end Region

end Lockstep
