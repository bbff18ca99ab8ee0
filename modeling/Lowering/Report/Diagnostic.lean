import Lowering.Source.Site

/-!
# Diagnostics

A diagnostic is a kind, a position and arguments. The kind's template has holes, and the message
is the template with the arguments in the holes.
-/

namespace Lowering

open Lowering.Source (Site)

namespace Diagnostic

inductive Kind where
  | duplicateClass
  | duplicateField
  | duplicateMethod
  | duplicateParameter
  | duplicateVariable
  | undefinedClass
  | undefinedSymbol
  | undefinedMethod
  | cyclicInheritance
  | invalidAssignment
  | invalidOperands
  | invalidCondition
  | invalidReturnType
  | wrongArgumentCount
  | internal
  deriving DecidableEq, Repr, Inhabited

namespace Kind

def all : List Kind :=
  [.duplicateClass, .duplicateField, .duplicateMethod, .duplicateParameter, .duplicateVariable,
    .undefinedClass, .undefinedSymbol, .undefinedMethod, .cyclicInheritance, .invalidAssignment,
    .invalidOperands, .invalidCondition, .invalidReturnType, .wrongArgumentCount, .internal]

def name : Kind → String
  | .duplicateClass => "DuplicateClass"
  | .duplicateField => "DuplicateField"
  | .duplicateMethod => "DuplicateMethod"
  | .duplicateParameter => "DuplicateParameter"
  | .duplicateVariable => "DuplicateVariable"
  | .undefinedClass => "UndefinedClass"
  | .undefinedSymbol => "UndefinedSymbol"
  | .undefinedMethod => "UndefinedMethod"
  | .cyclicInheritance => "CyclicInheritance"
  | .invalidAssignment => "InvalidAssignment"
  | .invalidOperands => "InvalidOperands"
  | .invalidCondition => "InvalidCondition"
  | .invalidReturnType => "InvalidReturnType"
  | .wrongArgumentCount => "WrongArgumentCount"
  | .internal => "Internal"

/-- The text around the holes of the template. -/
def pieces : Kind → List String
  | .duplicateClass => ["duplicate class '", "'"]
  | .duplicateField => ["duplicate field '", "' in class '", "'"]
  | .duplicateMethod => ["duplicate method '", "' in class '", "'"]
  | .duplicateParameter => ["duplicate parameter '", "' in method '", "'"]
  | .duplicateVariable => ["variable '", "' is already defined in this block"]
  | .undefinedClass => ["cannot find class '", "'"]
  | .undefinedSymbol => ["cannot find symbol '", "'"]
  | .undefinedMethod => ["cannot find method '", "' in class '", "'"]
  | .cyclicInheritance => ["cyclic inheritance involving '", "'"]
  | .invalidAssignment => ["incompatible types: '", "' cannot be assigned to '", "'"]
  | .invalidOperands => ["bad operand types '", "' and '", "' for operator '", "'"]
  | .invalidCondition => ["condition must be of type boolean, found '", "'"]
  | .invalidReturnType => ["incompatible return type '", "', expected '", "'"]
  | .wrongArgumentCount => ["method '", "' expects ", " arguments, found ", ""]
  | .internal => ["internal compiler error: ", ""]

end Kind

/-- How a hole is written. -/
def hole : String := "\x7b\x7d"

def Kind.template (k : Kind) : String := hole.intercalate k.pieces

/-- Puts arguments between pieces. A hole without an argument stays, an argument without a hole
is left out. -/
def fill : (pieces args : List String) → String
  | [], _ => ""
  | [last], _ => last
  | piece :: rest, [] => piece ++ hole ++ fill rest []
  | piece :: rest, arg :: args => piece ++ arg ++ fill rest args

end Diagnostic

structure Diagnostic where
  kind : Diagnostic.Kind
  site : Site
  args : List String
  deriving DecidableEq, Repr, Inhabited

namespace Diagnostic

def message (d : Diagnostic) : String := fill d.kind.pieces d.args

def text (d : Diagnostic) : String := s!"[{d.site.line},{d.site.column}] error: {d.message}"

/-- Two diagnostics are alike when they have the same kind. -/
def alike (a b : Diagnostic) : Bool := a.kind == b.kind

end Diagnostic

end Lowering
