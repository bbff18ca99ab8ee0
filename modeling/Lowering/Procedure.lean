import Lowering.Frame
import Lowering.Journal
import Lowering.Linkage
import Lowering.Lowered.Coercion
import Lowering.Source.Literal
import Lowering.Source.Program

/-!
# Lowering a procedure

Walks the body of a procedure with the method that the declaration pass made for it. The walk
enters the same blocks in the same order, so it finds the variables again by the numbers of their
blocks, and gives each of them its storage.
-/

namespace Lowering

open Lowering.Tree (Label Stm)
open Lowering.Source (Site Stmt VarDecl Op)

/-- Where variables are kept. -/
structure Storage where
  /-- All locals get a slot of the frame. -/
  localsEscape : Bool := false
  /-- The frame tells where the formals come in. -/
  formalsKnown : Bool := true
  deriving DecidableEq, Repr, Inhabited

/-- What stays fixed while a procedure is lowered. -/
structure Surroundings where
  /-- Whether the class of the procedure has a field of this name, its own or inherited. -/
  isField : String → Bool
  /-- The link name of the routine that prints. -/
  println : String
  storage : Storage

/-- What changes while a procedure is lowered. -/
structure Work where
  method : Method
  frame : Frame
  supply : Supply
  journal : Journal

/-- Work that lowers a procedure and may fail. Whatever it did before a failure stays done. -/
abbrev Lower := ExceptT LowerError (StateM Work)

namespace Lower

def note (e : Event) : Lower Unit := modify fun w => { w with journal := w.journal.push e }

def draw {α : Type} (x : Draw α) : Lower α :=
  ExceptT.mk (modifyGet fun w =>
    let (result, supply) := x.run.run w.supply
    (result, { w with supply }))

/-- Runs `body` in a new block of the method. The block is left even if `body` fails. -/
def inBlock {α : Type} (body : Lower α) : Lower α := ExceptT.mk do
  modify fun w => { w with method := w.method.enter.2 }
  let result ← body.run
  modifyGet fun w =>
    match w.method.leave with
    | (.ok _, method) => (result, { w with method })
    | (.error e, method) => (result.bind fun _ => .error (.scope e), { w with method })

/-! ## Variables -/

def framePointer : Lower Tree.Expr := do return .temp (← get).frame.fp

def alloc (env : Surroundings) : Lower Access := modifyGet fun w =>
  let ((access, frame), supply) := (w.frame.alloc env.storage.localsEscape).run w.supply
  (access, { w with frame, supply })

/-- A local gets its storage. -/
def lowerLocal (env : Surroundings) (d : VarDecl) : Lower Lowered := do
  let access ← alloc env
  let w ← get
  match w.method.bindLocal? d.name.val access with
  | none => throw (.unresolved d.name.val w.method.name)
  | some method =>
    set { w with method }
    return .value (access.exp (← framePointer))

/-- The value of a formal moves from where it comes in to a home of its own. -/
def lowerFormal (env : Surroundings) (d : VarDecl) : Lower Lowered := do
  let home ← alloc env
  let w ← get
  match w.method.parameter? d.name.val, w.method.bindParameter? d.name.val home with
  | some v, some method =>
    match v.access with
    | none => throw (.unbound d.name.val)
    | some incoming =>
      set { w with method }
      let fp ← framePointer
      return .value (.eseq (.move (home.exp fp) (incoming.exp fp)) (home.exp fp))
  | _, _ => throw (.unresolved d.name.val w.method.name)

/-- Locals hide parameters, parameters hide fields. -/
def resolve (env : Surroundings) (name : String) : Lower Lowered := do
  let m := (← get).method
  match (m.local? name).or (m.parameter? name) with
  | some v =>
    match v.access with
    | some access => return .value (access.exp (← framePointer))
    | none => throw (.unbound name)
  | none =>
    if env.isField name then return .missing (.fieldAccess name)
    throw (.unresolved name m.name)

/-! ## Expressions -/

/-- What an operator does to the values of its operands. -/
inductive Meaning where
  | arithmetic (op : BinOp)
  | comparison (op : RelOp)
  | missing (construct : Construct)

def meaning : Op → Meaning
  | .and => .missing .and
  | .or => .missing .or
  | .equals => .comparison .eq
  | .notEquals => .comparison .ne
  | .less => .comparison .lt
  | .lessEquals => .comparison .le
  | .greater => .comparison .gt
  | .greaterEquals => .comparison .ge
  | .add => .arithmetic .plus
  | .sub => .arithmetic .minus
  | .mul => .arithmetic .mul

/-- The parts of a construct without a lowering are not looked at. -/
def lowerExpr (env : Surroundings) : Source.Expr → Lower Lowered
  | .binary op left right =>
    match meaning op with
    | .missing c => pure (.missing c)
    | .arithmetic op => do
      let l ← lowerExpr env left
      let l ← draw l.toExpr
      let r ← lowerExpr env right
      let r ← draw r.toExpr
      return .value (.binOp op l r)
    | .comparison op => do
      let l ← lowerExpr env left
      let l ← draw l.toExpr
      let r ← lowerExpr env right
      let r ← draw r.toExpr
      return .relation op l r
  | .not operand => do
    let e ← lowerExpr env operand
    draw e.negate
  | .literal spelling =>
    match Source.Literal.parse? spelling with
    | some w => pure (.value (.ofWord w))
    | none => throw (.invalidLiteral spelling)
  | .bool value => pure (.value (.const (if value then 1 else 0)))
  | .ident name => resolve env name
  | .invoke _ method _ => pure (.missing (.invocation method))
  | .index .. => pure (.missing .arrayAccess)
  | .length _ => pure (.missing .arrayLength)
  | .new cls => pure (.missing (.newObject cls))
  | .newArray _ => pure (.missing .newArray)
  | .this => pure (.missing .this)

def lowerValue (env : Surroundings) (e : Source.Expr) : Lower Tree.Expr := do
  let l ← lowerExpr env e
  draw l.toExpr

/-! ## Statements -/

/-- Notes what a statement lowers to. -/
def noted (site : Site) (x : Lower Lowered) : Lower Lowered := do
  let l ← x
  note (.stmtLowered site l.form)
  return l

mutual
def lowerStmt (env : Surroundings) : Stmt → Lower Lowered
  | .block site locals body => noted site <| inBlock do
    let declared ← locals.mapM (lowerLocal env)
    let run ← lowerStmts env body
    draw (Lowered.fold (declared ++ run))
  | .ifThen site cond body => noted site do
    let c ← lowerExpr env cond
    let b ← lowerStmt env body
    return .ifThen c b
  | .ifElse site cond body otherwise => noted site do
    let c ← lowerExpr env cond
    let b ← lowerStmt env body
    let o ← lowerStmt env otherwise
    return .ifElse c b o
  | .while site cond body => noted site do
    let test ← draw Fresh.label
    let inside ← draw Fresh.label
    let exit ← draw Fresh.label
    let c ← lowerExpr env cond
    let c ← c.toBranch inside exit
    let b ← lowerStmt env body
    let b ← draw b.toStm
    return .effect (.ofList [.label test, c, .label inside, b, .jumpTo test, .label exit])
  | .println site value => noted site do
    let v ← lowerValue env value
    return .value (externalCall env.println [v])
  | .assign site name value => noted site do
    match ← resolve env name with
    | .value target =>
      let v ← lowerValue env value
      return .effect (.move target v)
    | other => return other
  | .assignAt site name index value => noted site do
    match ← resolve env name with
    | .value base =>
      let i ← lowerValue env index
      let v ← lowerValue env value
      return .effect (.move (.binOp .plus base i) v)
    | other => return other

def lowerStmts (env : Surroundings) : List Stmt → Lower (List Lowered)
  | [] => pure []
  | s :: rest => do
    let l ← lowerStmt env s
    let ls ← lowerStmts env rest
    return l :: ls
end

/-! ## Whole bodies -/

/-- The parts of a procedure. The main procedure has no result. -/
structure Body where
  formals : List VarDecl := []
  locals : List VarDecl
  stmts : List Stmt
  result : Option Source.Expr := none

/-- The result of a procedure goes where its frame says. -/
def lowerResult (env : Surroundings) : Option Source.Expr → Lower (List Lowered)
  | none => pure []
  | some e => do
    let v ← lowerValue env e
    return [.effect (.move (.temp (← get).frame.rv) v)]

def lowerBody (env : Surroundings) (b : Body) : Lower Lowered := do
  let formals ← b.formals.mapM (lowerFormal env)
  let locals ← b.locals.mapM (lowerLocal env)
  let stmts ← lowerStmts env b.stmts
  let result ← lowerResult env b.result
  draw (Lowered.fold (formals ++ locals ++ stmts ++ result))

def checkBalanced : Lower Unit := do
  let m := (← get).method
  if m.depth ≠ 0 then throw (.openBlocks m.name m.depth)

/-- The body of a procedure between its entry and its exit. The method has its parameters bound
to where they come in. -/
def lowerProcedure (env : Surroundings) (b : Body) : Lower Stm := do
  checkBalanced
  let l ← inBlock (lowerBody env b)
  checkBalanced
  let s ← draw l.toStm
  let frame := (← get).frame
  let body := frame.bracket s
  note (.bodyLowered frame.name body)
  return body

end Lower

end Lowering
