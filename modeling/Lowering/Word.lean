/-!
# Words and their operators

A word is narrow (32 bits) or wide (64 bits). An operation on two narrow words wraps at
32 bits. As soon as one operand is wide, the result is wide and wraps at 64 bits.
-/

namespace Lowering

/-! ## Operators -/

inductive BinOp where
  | plus
  | minus
  | mul
  deriving DecidableEq, Repr, Inhabited

namespace BinOp

def all : List BinOp := [.plus, .minus, .mul]

def text : BinOp → String
  | .plus => "PLUS"
  | .minus => "MINUS"
  | .mul => "MUL"

/-- Wraps at 64 bits. -/
def apply : BinOp → Int64 → Int64 → Int64
  | .plus, a, b => a + b
  | .minus, a, b => a - b
  | .mul, a, b => a * b

end BinOp

inductive RelOp where
  | eq
  | ne
  | lt
  | le
  | gt
  | ge
  deriving DecidableEq, Repr, Inhabited

namespace RelOp

def all : List RelOp := [.eq, .ne, .lt, .le, .gt, .ge]

def text : RelOp → String
  | .eq => "EQ"
  | .ne => "NE"
  | .lt => "LT"
  | .le => "LE"
  | .gt => "GT"
  | .ge => "GE"

def holds : RelOp → Int64 → Int64 → Bool
  | .eq, a, b => a == b
  | .ne, a, b => a != b
  | .lt, a, b => a < b
  | .le, a, b => a ≤ b
  | .gt, a, b => b < a
  | .ge, a, b => b ≤ a

end RelOp

/-! ## Words -/

inductive Word where
  | narrow (value : Int32)
  | wide (value : Int64)
  deriving DecidableEq, Repr, Inhabited

namespace Word

def value : Word → Int64
  | .narrow v => v.toInt64
  | .wide v => v

/-- A value from outside is narrow when 32 bits hold it. -/
def ofValue (v : Int64) : Word :=
  if v.toInt32.toInt64 = v then .narrow v.toInt32 else .wide v

/-- The low 32 bits of a 64-bit sum, difference or product are the 32-bit one. -/
def combine (op : BinOp) : Word → Word → Word
  | .narrow a, .narrow b => .narrow (op.apply a.toInt64 b.toInt64).toInt32
  | a, b => .wide (op.apply a.value b.value)

def text : Word → String
  | .narrow v => s!"Narrow({v.toInt})"
  | .wide v => s!"Wide({v.toInt})"

end Word

end Lowering
