import Lowering.Word

/-!
# Tree code

Expressions yield a value, statements are run for their effect. The two nest in each other: a
statement holds expressions, and `eseq` puts a statement inside an expression.
-/

namespace Lowering.Tree

/-- An abstract register. Numbers are not bounded here. -/
structure Temp where
  index : Nat
  deriving DecidableEq, Repr, Inhabited

/-- A symbolic code address. -/
structure Label where
  name : String
  deriving DecidableEq, Repr, Inhabited

/-! ## Orders

Temps are ordered by index and labels by name, so that both can be keys of a map. -/

instance : Ord Temp := ⟨compareOn Temp.index⟩

instance : Std.TransOrd Temp := inferInstanceAs (Std.TransCmp (compareOn Temp.index))

instance : Std.LawfulEqOrd Temp where
  eq_of_compare {a b} h := by
    cases a
    cases b
    exact congrArg Temp.mk (Std.LawfulEqOrd.eq_of_compare h)

instance : Ord Label := ⟨compareOn Label.name⟩

instance : Std.TransOrd Label := inferInstanceAs (Std.TransCmp (compareOn Label.name))

instance : Std.LawfulEqOrd Label where
  eq_of_compare {a b} h := by
    cases a
    cases b
    exact congrArg Label.mk (Std.LawfulEqOrd.eq_of_compare h)

/-! ## Trees -/

mutual
inductive Expr where
  | const (value : Int32)
  | longConst (value : Int64)
  | name (label : Label)
  | temp (temp : Temp)
  | binOp (op : BinOp) (left right : Expr)
  /-- The word at an address. -/
  | mem (address : Expr)
  | call (target : Expr) (args : List Expr)
  /-- Run the statement, then evaluate the expression. -/
  | eseq (first : Stm) (value : Expr)

inductive Stm where
  | move (target source : Expr)
  | exp (value : Expr)
  /-- Goes where `target` says, which is one of `labels`. -/
  | jump (target : Expr) (labels : List Label)
  | cjump (op : RelOp) (left right : Expr) (ifTrue ifFalse : Label)
  | seq (first rest : Stm)
  | label (label : Label)
end

instance : Inhabited Expr := ⟨.const 0⟩
instance : Inhabited Stm := ⟨.exp (.const 0)⟩

/-! ## Building statements -/

namespace Expr

def ofWord : Word → Expr
  | .narrow v => .const v
  | .wide v => .longConst v

end Expr

namespace Stm

/-- The statement without effect. -/
def nop : Stm := .exp (.const 0)

def jumpTo (l : Label) : Stm := .jump (.name l) [l]

/-- A right-leaning chain. A single statement stands for itself. -/
def ofList : List Stm → Stm
  | [] => nop
  | [s] => s
  | s :: rest => .seq s (ofList rest)

/-! ## Looking at statements -/

/-- Evaluating a constant, a name or a temp has no effect. -/
def isNop : Stm → Bool
  | .exp (.const _) | .exp (.longConst _) | .exp (.name _) | .exp (.temp _) => true
  | _ => false

/-- The number of `seq` nodes along the right spine. -/
def spineLength : Stm → Nat
  | .seq _ rest => rest.spineLength + 1
  | _ => 0

end Stm

mutual
/-- The least number above the index of every temp that occurs. -/
def Expr.tempBound : Expr → Nat
  | .const _ | .longConst _ | .name _ => 0
  | .temp t => t.index + 1
  | .binOp _ l r => max l.tempBound r.tempBound
  | .mem a => a.tempBound
  | .call f args => max f.tempBound (Expr.tempBoundAll args)
  | .eseq s e => max s.tempBound e.tempBound

def Expr.tempBoundAll : List Expr → Nat
  | [] => 0
  | e :: rest => max e.tempBound (Expr.tempBoundAll rest)

@[inherit_doc Expr.tempBound]
def Stm.tempBound : Stm → Nat
  | .move d s => max d.tempBound s.tempBound
  | .exp e | .jump e _ => e.tempBound
  | .cjump _ l r _ _ => max l.tempBound r.tempBound
  | .seq a b => max a.tempBound b.tempBound
  | .label _ => 0
end

/-! ## Equality -/

mutual
def Expr.beq : Expr → Expr → Bool
  | .const a, .const b => a == b
  | .longConst a, .longConst b => a == b
  | .name a, .name b => a == b
  | .temp a, .temp b => a == b
  | .binOp o a b, .binOp o' a' b' => o == o' && a.beq a' && b.beq b'
  | .mem a, .mem b => a.beq b
  | .call f as, .call g bs => f.beq g && Expr.beqAll as bs
  | .eseq s a, .eseq t b => s.beq t && a.beq b
  | _, _ => false

def Expr.beqAll : List Expr → List Expr → Bool
  | [], [] => true
  | a :: as, b :: bs => a.beq b && Expr.beqAll as bs
  | _, _ => false

def Stm.beq : Stm → Stm → Bool
  | .move a b, .move a' b' => a.beq a' && b.beq b'
  | .exp a, .exp b => a.beq b
  | .jump a ls, .jump b ms => a.beq b && ls == ms
  | .cjump o a b t f, .cjump o' a' b' t' f' =>
    o == o' && a.beq a' && b.beq b' && t == t' && f == f'
  | .seq a b, .seq a' b' => a.beq a' && b.beq b'
  | .label a, .label b => a == b
  | _, _ => false
end

mutual
theorem Expr.beq_iff (a b : Expr) : a.beq b = true ↔ a = b := by
  cases a with
  | const _ | longConst _ | name _ | temp _ => cases b <;> simp [Expr.beq]
  | binOp _ l r =>
    cases b with
    | binOp _ l' r' => simp [Expr.beq, Expr.beq_iff l l', Expr.beq_iff r r', and_assoc]
    | _ => simp [Expr.beq]
  | mem e =>
    cases b with
    | mem e' => simp [Expr.beq, Expr.beq_iff e e']
    | _ => simp [Expr.beq]
  | call f args =>
    cases b with
    | call f' args' => simp [Expr.beq, Expr.beq_iff f f', Expr.beqAll_iff args args']
    | _ => simp [Expr.beq]
  | eseq s e =>
    cases b with
    | eseq s' e' => simp [Expr.beq, Stm.beq_iff s s', Expr.beq_iff e e']
    | _ => simp [Expr.beq]

theorem Expr.beqAll_iff (as bs : List Expr) : Expr.beqAll as bs = true ↔ as = bs := by
  cases as with
  | nil => cases bs <;> simp [Expr.beqAll]
  | cons a as =>
    cases bs with
    | nil => simp [Expr.beqAll]
    | cons b bs => simp [Expr.beqAll, Expr.beq_iff a b, Expr.beqAll_iff as bs]

theorem Stm.beq_iff (a b : Stm) : a.beq b = true ↔ a = b := by
  cases a with
  | move d s =>
    cases b with
    | move d' s' => simp [Stm.beq, Expr.beq_iff d d', Expr.beq_iff s s']
    | _ => simp [Stm.beq]
  | exp e =>
    cases b with
    | exp e' => simp [Stm.beq, Expr.beq_iff e e']
    | _ => simp [Stm.beq]
  | jump e _ =>
    cases b with
    | jump e' _ => simp [Stm.beq, Expr.beq_iff e e']
    | _ => simp [Stm.beq]
  | cjump _ l r _ _ =>
    cases b with
    | cjump _ l' r' _ _ => simp [Stm.beq, Expr.beq_iff l l', Expr.beq_iff r r', and_assoc]
    | _ => simp [Stm.beq]
  | seq s t =>
    cases b with
    | seq s' t' => simp [Stm.beq, Stm.beq_iff s s', Stm.beq_iff t t']
    | _ => simp [Stm.beq]
  | label _ => cases b <;> simp [Stm.beq]
end

instance : DecidableEq Expr := fun a b => decidable_of_iff _ (Expr.beq_iff a b)
instance : DecidableEq Stm := fun a b => decidable_of_iff _ (Stm.beq_iff a b)

end Lowering.Tree
