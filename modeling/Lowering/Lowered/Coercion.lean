import Lowering.Lowered.Basic
import Lowering.Supply

/-!
# Values, statements and branches on demand

Each coercion draws the temps and labels that it needs. What was drawn before an error stays
drawn.
-/

namespace Lowering

open Lowering.Tree (Label Expr Stm)

/-- Work that draws from a supply and may fail. -/
abbrev Draw := ExceptT LowerError Fresh

namespace Lowered

/-- A branch to one of two labels. A value branches on being non-zero. -/
def toBranch (ifTrue ifFalse : Label) : Lowered → Except LowerError Stm
  | .value e => .ok (.cjump .ne e (.const 0) ifTrue ifFalse)
  | .relation op l r => .ok (.cjump op l r ifTrue ifFalse)
  | .effect _ | .ifThen .. | .ifElse .. => .error .notACondition
  | .missing c => .error (.unlowered c)

/-- A statement. A value is evaluated for its effects only. -/
def toStm : Lowered → Draw Stm
  | .value e => pure (.exp e)
  | .effect s => pure s
  | .ifThen cond body => do
    let t ← Fresh.label
    let f ← Fresh.label
    let test ← cond.toBranch t f
    let body ← body.toStm
    return .ofList [test, .label t, body, .label f]
  | .ifElse cond body otherwise => do
    let t ← Fresh.label
    let f ← Fresh.label
    let join ← Fresh.label
    let test ← cond.toBranch t f
    let body ← body.toStm
    let otherwise ← otherwise.toStm
    return .ofList [test, .label t, body, .jumpTo join, .label f, otherwise, .label join]
  | .relation op l r => do
    let join ← Fresh.label
    return .ofList [.cjump op l r join join, .label join]
  | .missing c => throw (.unlowered c)

/-- A value. A branch leaves 0 or 1 in a fresh temp, a statement yields 0 after it has run. -/
def toExpr : Lowered → Draw Expr
  | .value e => pure e
  | .relation op l r => do
    let result ← Fresh.temp
    let t ← Fresh.label
    let f ← Fresh.label
    return .eseq
      (.ofList [.move (.temp result) (.const 1), .cjump op l r t f, .label f,
        .move (.temp result) (.const 0), .label t])
      (.temp result)
  | .missing c => throw (.unlowered c)
  | statement => do
    let s ← statement.toStm
    return .eseq s (.const 0)

def zero : Lowered := .value (.const 0)

/-- One minus the value. -/
def negate (l : Lowered) : Draw Lowered := do
  let e ← l.toExpr
  return .value (.binOp .minus (.const 1) e)

/-- One piece after the other. No piece is zero, and a single piece stays what it is. -/
def fold : List Lowered → Draw Lowered
  | [] => pure zero
  | [l] => pure l
  | ls => do
    let stms ← ls.mapM toStm
    return .effect (.ofList stms)

end Lowered

end Lowering
