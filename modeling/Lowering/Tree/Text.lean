import Lowering.Tree.Basic

/-!
# The text of tree code

Every node is written as its name and its parts in parentheses, `MOVE(TEMP(t1), CONST(2))`. A
jump shows its target and not the labels it may go to.
-/

namespace Lowering.Tree

def Temp.text (t : Temp) : String := "t" ++ toString t.index

mutual
def Expr.text : Expr → String
  | .const v => "CONST(" ++ toString v.toInt ++ ")"
  | .longConst v => "LCONST(" ++ toString v.toInt ++ ")"
  | .name l => "NAME(" ++ l.name ++ ")"
  | .temp t => "TEMP(" ++ t.text ++ ")"
  | .binOp op l r => "BINOP(" ++ op.text ++ ", " ++ l.text ++ ", " ++ r.text ++ ")"
  | .mem a => "MEM(" ++ a.text ++ ")"
  | .call f args => "CALL(" ++ f.text ++ Expr.textAll args ++ ")"
  | .eseq s e => "ESEQ(" ++ s.text ++ ", " ++ e.text ++ ")"

/-- Each expression after a comma. -/
def Expr.textAll : List Expr → String
  | [] => ""
  | e :: rest => ", " ++ e.text ++ Expr.textAll rest

def Stm.text : Stm → String
  | .move d s => "MOVE(" ++ d.text ++ ", " ++ s.text ++ ")"
  | .exp e => "EXP(" ++ e.text ++ ")"
  | .jump e _ => "JUMP(" ++ e.text ++ ")"
  | .cjump op l r t f =>
    "CJUMP(" ++ op.text ++ ", " ++ l.text ++ ", " ++ r.text ++ ", " ++ t.name ++ ", " ++ f.name ++ ")"
  | .seq a b => "SEQ(" ++ a.text ++ ", " ++ b.text ++ ")"
  | .label l => "LABEL(" ++ l.name ++ ")"
end

end Lowering.Tree
