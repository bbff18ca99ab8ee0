/-!
# Counters

Consecutive numbers, handed out one at a time.
-/

namespace Lowering

/-- Numbers are not bounded here: a counter neither runs out nor wraps around. -/
structure Counter where
  /-- The number handed out next. -/
  next : Nat := 0
  deriving DecidableEq, Repr, Inhabited

namespace Counter

def draw (c : Counter) : Nat × Counter := (c.next, ⟨c.next + 1⟩)

/-- Starts over at zero. -/
def reset (_ : Counter) : Counter := {}

end Counter

end Lowering
