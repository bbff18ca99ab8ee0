import Lowering.Procedure

/-!
# Sources that can be lowered

Whether a procedure can be lowered is told by its source alone: its literals are numbers that fit, its
names are those of locals around them or of formals, and none of its constructs is without a lowering.
-/

namespace Lowering

namespace Source

/-- The operator need not look at its right operand. -/
def Op.isLazy : Op → Bool
  | .and | .or => true
  | .equals | .notEquals | .less | .lessEquals | .greater | .greaterEquals | .add | .sub | .mul => false

/-- The expression can be lowered where these names are visible. -/
def Expr.isLowerable (visible : List String) : Expr → Bool
  | .literal spelling => (Literal.parse? spelling).isSome
  | .bool _ => true
  | .ident x => visible.contains x
  | .binary op l r => !op.isLazy && (l.isLowerable visible && r.isLowerable visible)
  | .not e => e.isLowerable visible
  | .invoke .. | .index .. | .length _ | .new _ | .newArray _ | .this => false

/-- The names of declarations. -/
def namesOf (ds : List VarDecl) : List String := ds.map (·.name.val)

mutual
/-- The statement can be lowered where these names are visible. A block makes those of its locals
visible. -/
def Stmt.isLowerable (visible : List String) : Stmt → Bool
  | .block _ locals body => Stmt.areLowerable (namesOf locals ++ visible) body
  | .ifThen _ cond body => cond.isLowerable visible && body.isLowerable visible
  | .ifElse _ cond body otherwise =>
    cond.isLowerable visible && (body.isLowerable visible && otherwise.isLowerable visible)
  | .while _ cond body => cond.isLowerable visible && body.isLowerable visible
  | .println _ value => value.isLowerable visible
  | .assign _ x value => visible.contains x && value.isLowerable visible
  | .assignAt _ x index value =>
    visible.contains x && (index.isLowerable visible && value.isLowerable visible)

def Stmt.areLowerable (visible : List String) : List Stmt → Bool
  | [] => true
  | st :: rest => st.isLowerable visible && Stmt.areLowerable visible rest
end

end Source

namespace Lower.Body

/-- The names that are visible in all of the body. -/
def visible (b : Body) : List String := Source.namesOf b.locals ++ Source.namesOf b.formals

def isLowerable (b : Body) : Bool :=
  Source.Stmt.areLowerable b.visible b.stmts && b.result.all (·.isLowerable b.visible)

end Lower.Body

end Lowering
