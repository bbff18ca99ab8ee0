import Lowering.Json.Basic
import Lowering.Tree.Basic

/-!
# Tree code as JSON

A node is an object with one member: its kind, and its parts. Temps are numbers, labels are
strings.
-/

namespace Lowering

def BinOp.tag : BinOp → String
  | .plus => "Plus"
  | .minus => "Minus"
  | .mul => "Mul"

def RelOp.tag : RelOp → String
  | .eq => "Eq"
  | .ne => "Ne"
  | .lt => "Lt"
  | .le => "Le"
  | .gt => "Gt"
  | .ge => "Ge"

namespace Tree

def Temp.toJson (t : Temp) : Json := .num t.index

def Label.toJson (l : Label) : Json := .str l.name

mutual
def Expr.toJson : Expr → Json
  | .const v => .tagged "Const" (.num v.toInt)
  | .longConst v => .tagged "LongConst" (.num v.toInt)
  | .name l => .tagged "Name" l.toJson
  | .temp t => .tagged "Temp" t.toJson
  | .binOp op l r => .tagged "BinOp" (.arr [.str op.tag, l.toJson, r.toJson])
  | .mem a => .tagged "Mem" a.toJson
  | .call f args => .tagged "Call" (.arr [f.toJson, .arr (Expr.toJsonAll args)])
  | .eseq s e => .tagged "ESeq" (.arr [s.toJson, e.toJson])

def Expr.toJsonAll : List Expr → List Json
  | [] => []
  | e :: rest => e.toJson :: Expr.toJsonAll rest

def Stm.toJson : Stm → Json
  | .move d s => .tagged "Move" (.arr [d.toJson, s.toJson])
  | .exp e => .tagged "Exp" e.toJson
  | .jump e labels => .tagged "Jump" (.arr [e.toJson, .arr (labels.map Label.toJson)])
  | .cjump op l r t f =>
    .tagged "CJump" (.obj [("op", .str op.tag), ("left", l.toJson), ("right", r.toJson),
      ("if_true", t.toJson), ("if_false", f.toJson)])
  | .seq a b => .tagged "Seq" (.arr [a.toJson, b.toJson])
  | .label l => .tagged "Label" l.toJson
end

end Tree

end Lowering
