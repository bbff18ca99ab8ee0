import Lowering.Supply

/-!
# Linear code

Linear code is a list of statements with no `seq`, no `eseq` and no statement without effect.
Statements nested in an expression are hoisted in front of the statement that holds it. A value
that was computed before a hoisted statement runs is first saved in a fresh temp, unless nothing
can change it.
-/

namespace Lowering.Tree

/-- An expression after hoisting: the statements to run before it, and what is left of it. -/
structure Hoisted where
  before : List Stm
  value : Expr

/-- No statement changes the value. -/
def Expr.isSteady : Expr → Bool
  | .const _ | .longConst _ | .name _ => true
  | _ => false

namespace Hoisted

/-- Keeps the value while `later` runs. -/
def saveFrom (h : Hoisted) (later : List Stm) : Fresh Hoisted :=
  if later.isEmpty || h.value.isSteady then pure h
  else do
    let t ← Fresh.temp
    return ⟨h.before ++ [.move (.temp t) h.value], .temp t⟩

/-- Two operands, the left one first. -/
structure Pair where
  before : List Stm
  left : Expr
  right : Expr

def pair (left right : Fresh Hoisted) : Fresh Pair := do
  let l ← left
  let r ← right
  let l ← l.saveFrom r.before
  return ⟨l.before ++ r.before, l.value, r.value⟩

/-- Any number of operands, in order. The last of them is saved first. -/
def join : List Hoisted → Fresh (List Stm × List Expr)
  | [] => pure ([], [])
  | h :: rest => do
    let (later, values) ← join rest
    let h ← h.saveFrom later
    return (h.before ++ later, h.value :: values)

def binOp (op : BinOp) (left right : Fresh Hoisted) : Fresh Hoisted := do
  let p ← pair left right
  return ⟨p.before, .binOp op p.left p.right⟩

def call (target : Fresh Hoisted) (args : Fresh (List Hoisted)) : Fresh Hoisted := do
  let f ← target
  let as ← args
  let (later, values) ← join as
  let f ← f.saveFrom later
  return ⟨f.before ++ later, .call f.value values⟩

/-- A move into the location that `target` computes. -/
def store (target source : Fresh Hoisted) : Fresh (List Stm) := do
  let p ← pair target source
  return p.before ++ [.move p.left p.right]

end Hoisted

mutual
def Expr.hoist : Expr → Fresh Hoisted
  | .const v => pure ⟨[], .const v⟩
  | .longConst v => pure ⟨[], .longConst v⟩
  | .name l => pure ⟨[], .name l⟩
  | .temp t => pure ⟨[], .temp t⟩
  | .binOp op l r => Hoisted.binOp op l.hoist r.hoist
  | .mem a => do
    let a ← a.hoist
    return ⟨a.before, .mem a.value⟩
  | .call f args => Hoisted.call f.hoist (Expr.hoistAll args)
  | .eseq s e => do
    let first ← s.straighten
    let e ← e.hoist
    return ⟨first ++ e.before, e.value⟩

def Expr.hoistAll : List Expr → Fresh (List Hoisted)
  | [] => pure []
  | e :: rest => do
    let h ← e.hoist
    let hs ← Expr.hoistAll rest
    return h :: hs

/-- The statements that put `source` where the expression says. Whatever is neither a temp nor a
memory word computes an address. -/
def Expr.receive : Expr → Fresh Hoisted → Fresh (List Stm)
  | .temp t, source => do
    let s ← source
    return s.before ++ [.move (.temp t) s.value]
  | .mem a, source => do
    let p ← Hoisted.pair a.hoist source
    return p.before ++ [.move (.mem p.left) p.right]
  | .eseq s target, source => do
    let first ← s.straighten
    let rest ← target.receive source
    return first ++ rest
  | .binOp op l r, source => Hoisted.store (Hoisted.binOp op l.hoist r.hoist) source
  | .call f args, source => Hoisted.store (Hoisted.call f.hoist (Expr.hoistAll args)) source
  | .const v, source => Hoisted.store (pure ⟨[], .const v⟩) source
  | .longConst v, source => Hoisted.store (pure ⟨[], .longConst v⟩) source
  | .name l, source => Hoisted.store (pure ⟨[], .name l⟩) source

/-- The statement as linear code. -/
def Stm.straighten : Stm → Fresh (List Stm)
  | .move target source => target.receive source.hoist
  | .exp e => do
    let e ← e.hoist
    return if (Stm.exp e.value).isNop then e.before else e.before ++ [.exp e.value]
  | .jump target labels => do
    let t ← target.hoist
    return t.before ++ [.jump t.value labels]
  | .cjump op l r ifTrue ifFalse => do
    let p ← Hoisted.pair l.hoist r.hoist
    return p.before ++ [.cjump op p.left p.right ifTrue ifFalse]
  | .seq a b => do
    let first ← a.straighten
    let rest ← b.straighten
    return first ++ rest
  | .label l => pure [.label l]
end

/-- Linear code for a statement. Saved values go to temps above all those of the statement. -/
def Stm.linearize (s : Stm) : List Stm :=
  (s.straighten.run (Supply.startingAt s.tempBound)).1

end Lowering.Tree
