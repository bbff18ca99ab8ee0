import Lowering.Machine.Run
import Lowering.Proofs.Outcome
import Lowering.Proofs.Tree.Marks

/-!
# What trees mean

A machine runs linear code only. Here the same machine runs any tree. A chain of statements runs
in order, and a jump goes to a label of the same chain. A statement inside an expression runs to
its end where it stands, operands are evaluated from left to right, and the address of a move
into memory comes before its source. A move into anything but a temp or a memory word has no
meaning.
-/

namespace Lowering.Tree

/-- The statements of a chain, in order. -/
def Stm.parts : Stm → List Stm
  | .seq a b => a.parts ++ b.parts
  | s => [s]

mutual
/-- On `m` the expression has the value `w`, and evaluating it leaves `m'`. -/
inductive Eval : (m : Machine) → Expr → (w : Word) → (m' : Machine) → Prop
  | const {m v} : Eval m (.const v) (.narrow v) m
  | longConst {m v} : Eval m (.longConst v) (.wide v) m
  | temp {m t w} : m.temps[t]? = some w → Eval m (.temp t) w m
  | binOp {m m₁ m₂ op l r a b} :
    Eval m l a m₁ → Eval m₁ r b m₂ → Eval m (.binOp op l r) (Word.combine op a b) m₂
  | mem {m m₁ a address} :
    Eval m a address m₁ → Eval m (.mem a) (m₁.loadWord address.value) m₁
  | call {m m₁ m₂ m₃ f l args values v} :
    Target m f l m₁ → EvalAll m₁ args values m₂ → m₂.answer l.name values = (.ok v, m₃) →
      Eval m (.call f args) (Word.ofValue v) m₃
  | eseq {m m₁ m₂ s e w} :
    Runs s.parts s.parts m m₁ → Eval m₁ e w m₂ → Eval m (.eseq s e) w m₂

inductive EvalAll : (m : Machine) → List Expr → List Int64 → (m' : Machine) → Prop
  | nil {m} : EvalAll m [] [] m
  | cons {m m₁ m₂ e w rest values} :
    Eval m e w m₁ → EvalAll m₁ rest values m₂ → EvalAll m (e :: rest) (w.value :: values) m₂

/-- The label that a jump or a call goes to. -/
inductive Target : (m : Machine) → Expr → Label → (m' : Machine) → Prop
  | name {m l} : Target m (.name l) l m
  | eseq {m m₁ m₂ s e l} :
    Runs s.parts s.parts m m₁ → Target m₁ e l m₂ → Target m (.eseq s e) l m₂

/-- Puts the value of `source` where `target` says. -/
inductive Assigns : (m : Machine) → (target source : Expr) → (m' : Machine) → Prop
  | temp {m m₁ t source w} :
    Eval m source w m₁ → Assigns m (.temp t) source { m₁ with temps := m₁.temps.insert t w }
  | mem {m m₁ m₂ a address source w} :
    Eval m a address m₁ → Eval m₁ source w m₂ →
      Assigns m (.mem a) source { m₂ with memory := m₂.memory.insert address.value w }
  | eseq {m m₁ m₂ s target source} :
    Runs s.parts s.parts m m₁ → Assigns m₁ target source m₂ →
      Assigns m (.eseq s target) source m₂

/-- One statement that is no chain, and the label to go on from if that is not the next one. -/
inductive Step : (m : Machine) → Stm → Option Label → (m' : Machine) → Prop
  | label {m l} : Step m (.label l) none m
  | move {m m' target source} : Assigns m target source m' → Step m (.move target source) none m'
  | exp {m m' e w} : Eval m e w m' → Step m (.exp e) none m'
  | jump {m m' target l labels} :
    Target m target l m' → Step m (.jump target labels) (some l) m'
  | cjump {m m₁ m₂ op l r a b ifTrue ifFalse} :
    Eval m l a m₁ → Eval m₁ r b m₂ →
      Step m (.cjump op l r ifTrue ifFalse)
        (some (if op.holds a.value b.value then ifTrue else ifFalse)) m₂

/-- With `rest` of the statements of a chain to go, control leaves its end. -/
inductive Runs : (parts rest : List Stm) → (m m' : Machine) → Prop
  | done {parts m} : Runs parts [] m m
  | next {parts s rest m m₁ m₂} :
    Step m s none m₁ → Runs parts rest m₁ m₂ → Runs parts (s :: rest) m m₂
  | goto {parts s rest l before after m m₁ m₂} :
    Step m s (some l) m₁ → parts = before ++ .label l :: after →
      Runs parts (.label l :: after) m₁ m₂ → Runs parts (s :: rest) m m₂
end

/-- Executing the statement on `m` ends normally and leaves `m'`. -/
def Stm.Ends (s : Stm) (m m' : Machine) : Prop := Runs s.parts s.parts m m'

end Lowering.Tree
