import Lowering.Table.Method
import Lowering.Tree.Basic

/-!
# What a piece of source lowers to

A piece of source lowers to a value, to a statement or to a two-way branch, and whoever uses it
decides which of the three it needs. A construct that has no lowering stands for itself until
someone needs it.
-/

namespace Lowering

open Lowering.Tree (Expr Stm)

/-- A construct without a lowering. -/
inductive Construct where
  | and
  | or
  | invocation (method : String)
  | arrayAccess
  | arrayLength
  | newObject (cls : String)
  | newArray
  | this
  | fieldAccess (name : String)
  deriving DecidableEq, Repr, Inhabited

def Construct.text : Construct → String
  | .and => "'&&'"
  | .or => "'||'"
  | .invocation method => s!"invocation of method '{method}'"
  | .arrayAccess => "array access"
  | .arrayLength => "array length"
  | .newObject cls => s!"instantiation of class '{cls}'"
  | .newArray => "array allocation"
  | .this => "'this'"
  | .fieldAccess name => s!"access to field '{name}'"

inductive LowerError where
  | unresolved (name method : String)
  | unknownClass (name : String)
  | unknownMethod (cls name : String)
  | openBlocks (method : String) (depth : Nat)
  | scope (error : ScopeError)
  | unlowered (construct : Construct)
  | unbound (name : String)
  | notACondition
  | invalidLiteral (spelling : String)
  deriving DecidableEq, Repr

def LowerError.message : LowerError → String
  | .unresolved name method => s!"identifier '{name}' in method '{method}' resolves to nothing"
  | .unknownClass name => s!"class '{name}' is not in the symbol table"
  | .unknownMethod cls name => s!"method '{name}' of class '{cls}' is not in the symbol table"
  | .openBlocks method depth => s!"method '{method}' has {depth} open blocks, expected none"
  | .scope error => error.message
  | .unlowered construct => s!"{construct.text} is not lowered yet"
  | .unbound name => s!"variable '{name}' has no storage in its frame"
  | .notACondition => "a statement cannot be used as a condition"
  | .invalidLiteral spelling => s!"invalid integer literal '{spelling}'"

inductive Lowered where
  | value (e : Expr)
  | effect (s : Stm)
  /-- Labels and jumps come only when a statement is asked for. -/
  | ifThen (cond body : Lowered)
  | ifElse (cond body otherwise : Lowered)
  /-- A comparison that is not tied to labels yet. -/
  | relation (op : RelOp) (left right : Expr)
  | missing (construct : Construct)
  deriving Inhabited

/-- The coarse sort of a lowered piece. -/
inductive Form where
  | expression
  | statement
  | conditional
  | unlowered
  deriving DecidableEq, Repr, Inhabited

def Form.text : Form → String
  | .expression => "Expression"
  | .statement => "Statement"
  | .conditional => "Conditional"
  | .unlowered => "Unlowered"

def Lowered.form : Lowered → Form
  | .value _ => .expression
  | .effect _ | .ifThen .. | .ifElse .. => .statement
  | .relation .. => .conditional
  | .missing _ => .unlowered

end Lowering
