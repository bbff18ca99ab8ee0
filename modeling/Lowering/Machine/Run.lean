import Lowering.Machine.Basic

/-!
# Running linear code

Control is the rest of the code: a statement either lets the next one run or names the label to
go on from. Whatever a run changed before a fault stays changed.
-/

namespace Lowering

open Lowering.Tree (Temp Label Expr Stm)

/-- Work on a machine that may stop with a fault. -/
abbrev Exec := ExceptT Fault (StateM Machine)

namespace Machine

/-- Answers a call. A printer of the name comes before a routine of the name. -/
def answer (m : Machine) (name : String) (args : List Int64) : Except Fault Int64 × Machine :=
  if name ∈ m.printers then
    (.ok 0, { m with output := m.output.push (args.headD 0), calls := m.calls.push ⟨name, args⟩ })
  else
    match m.routines[name]? with
    | none => (.error (.unknownRoutine name), m)
    | some r =>
      let (value, cells) := r m.cells args
      (.ok value, { m with cells, calls := m.calls.push ⟨name, args⟩ })

end Machine

namespace Exec

def call (name : String) (args : List Int64) : Exec Word := do
  let value ← ExceptT.mk (modifyGet fun m => m.answer name args)
  return Word.ofValue value

mutual
def eval : Expr → Exec Word
  | .const v => pure (.narrow v)
  | .longConst v => pure (.wide v)
  | .temp t => do
    match (← get).temps[t]? with
    | some w => pure w
    | none => throw (.unboundTemp t)
  | .binOp op l r => do
    let a ← eval l
    let b ← eval r
    return Word.combine op a b
  | .mem a => do
    let address ← eval a
    return (← get).loadWord address.value
  | .call (.name l) args => do
    let values ← evalAll args
    call l.name values
  | .call target _ => throw (.indirectCall target)
  | .name l => throw (.nestedExpr (.name l))
  | .eseq s e => throw (.nestedExpr (.eseq s e))

def evalAll : List Expr → Exec (List Int64)
  | [] => pure []
  | e :: rest => do
    let w ← eval e
    let ws ← evalAll rest
    return w.value :: ws
end

def storeWord (address : Word) (w : Word) : Exec Unit :=
  modify fun m => { m with memory := m.memory.insert address.value w }

/-- Puts a word where the expression says. Whatever is neither a temp nor a memory word computes
an address. -/
def assign (target : Expr) (w : Word) : Exec Unit :=
  match target with
  | .temp t => modify fun m => { m with temps := m.temps.insert t w }
  | .mem a => do storeWord (← eval a) w
  | address => do storeWord (← eval address) w

/-- Runs one statement and gives the label to go on from, if it is not the next statement. -/
def step : Stm → Exec (Option Label)
  | .label _ => pure none
  | .move target source => do
    let w ← eval source
    assign target w
    return none
  | .exp e => do
    let _ ← eval e
    return none
  | .jump (.name l) _ => pure (some l)
  | .jump target _ => throw (.indirectJump target)
  | .cjump op l r ifTrue ifFalse => do
    let a ← eval l
    let b ← eval r
    return some (if op.holds a.value b.value then ifTrue else ifFalse)
  | .seq a b => throw (.nestedStm (.seq a b))

end Exec

namespace Machine

def step (m : Machine) (s : Stm) : Except Fault (Option Label) × Machine := (Exec.step s).run.run m

/-- The code that starts at each label. Of several places with one label the last one counts. -/
def targets : List Stm → Std.ExtTreeMap Label (List Stm)
  | [] => {}
  | .label l :: rest => (targets rest).insertIfNew l (.label l :: rest)
  | _ :: rest => targets rest

/-- Runs `rest` for at most `fuel` steps and gives the steps that were left over. -/
def runFrom (places : Std.ExtTreeMap Label (List Stm)) :
    (fuel : Nat) → (rest : List Stm) → Machine → Except Fault Nat × Machine
  | fuel, [], m => (.ok fuel, m)
  | 0, _ :: _, m => (.error (.outOfSteps m.stepLimit), m)
  | fuel + 1, s :: rest, m =>
    match m.step s with
    | (.error fault, m) => (.error fault, m)
    | (.ok none, m) => runFrom places fuel rest m
    | (.ok (some l), m) =>
      match places[l]? with
      | none => (.error (.unknownLabel l), m)
      | some rest => runFrom places fuel rest m

/-- Runs code from its first statement until control leaves its end, and gives the number of
steps that took. -/
def run (m : Machine) (code : List Stm) : Except Fault Nat × Machine :=
  match runFrom (targets code) m.stepLimit code m with
  | (.ok left, m') => (.ok (m.stepLimit - left), m')
  | (.error fault, m') => (.error fault, m')

end Machine

end Lowering
