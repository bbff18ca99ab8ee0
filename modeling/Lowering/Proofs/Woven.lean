import Lowering.Proofs.Lowered.Statement
import Lowering.Unit

/-!
# The pieces of lowering

All that lowering does to its state, it does through a few pieces of work: it draws, notes, looks a
variable up, binds a variable, and opens and closes blocks. The walks over procedures and programs put
these pieces together. That is shown here once, with what each piece does, so that what holds of the
pieces holds of the walks.
-/

namespace Lowering

open Lowering.Source (Stmt VarDecl MethodDecl ClassDecl MainClass Program)

/-! ## Procedures -/

namespace Lower

/-- Work that is put together from the pieces of lowering a procedure. -/
inductive Woven (env : Surroundings) : {α : Type} → Lower α → Prop
  | pure {α : Type} (a : α) : Woven env (pure a)
  | throw {α : Type} (e : LowerError) : Woven env (throw e : Lower α)
  | bind {α β : Type} {x : Lower α} {f : α → Lower β} : Woven env x → (∀ a, Woven env (f a)) → Woven env (x >>= f)
  | inBlock {α : Type} {x : Lower α} : Woven env x → Woven env (Lower.inBlock x)
  | draw {α : Type} (x : Draw α) : Woven env (Lower.draw x)
  | note (e : Event) : Woven env (Lower.note e)
  | frame {α : Type} (f : Frame → Lower α) : (∀ frame, Woven env (f frame)) → Woven env (do f (← get).frame)
  | lowerLocal (d : VarDecl) : Woven env (Lower.lowerLocal env d)
  | lowerFormal (d : VarDecl) : Woven env (Lower.lowerFormal env d)
  | resolve (name : String) : Woven env (Lower.resolve env name)
  | checkBalanced : Woven env Lower.checkBalanced

namespace Woven

variable {env : Surroundings} {α β : Type}

theorem liftExcept (x : Except LowerError α) : Woven env (liftM x : Lower α) := by
  cases x with
  | error e => exact .throw e
  | ok a => exact .pure a

theorem mapM {f : α → Lower β} (h : ∀ a, Woven env (f a)) (as : List α) : Woven env (as.mapM f) := by
  induction as with
  | nil => exact .pure []
  | cons a rest ih =>
    rw [List.mapM_cons]
    exact .bind (h a) fun b => .bind ih fun bs => .pure (b :: bs)

end Woven

variable {env : Surroundings}

theorem woven_lowerExpr (env : Surroundings) (e : Source.Expr) : Woven env (lowerExpr env e) := by
  cases e with
  | binary op left right =>
    rw [lowerExpr]
    have hleft := woven_lowerExpr env left
    have hright := woven_lowerExpr env right
    cases meaning op with
    | missing c => exact .pure _
    | arithmetic op | comparison op =>
      exact .bind hleft fun _ => .bind (.draw _) fun _ => .bind hright fun _ => .bind (.draw _) fun _ => .pure _
  | not operand =>
    rw [lowerExpr]
    exact .bind (woven_lowerExpr env operand) fun _ => .draw _
  | literal spelling =>
    rw [lowerExpr]
    cases Source.Literal.parse? spelling with
    | some w => exact .pure _
    | none => exact .throw _
  | ident name =>
    rw [lowerExpr]
    exact .resolve name
  | bool | invoke | index | length | new | newArray | this =>
    rw [lowerExpr]
    exact .pure _

theorem woven_lowerValue (env : Surroundings) (e : Source.Expr) : Woven env (lowerValue env e) :=
  .bind (woven_lowerExpr env e) fun _ => .draw _

theorem Woven.noted {x : Lower Lowered} (h : Woven env x) (site : Source.Site) : Woven env (noted site x) :=
  .bind h fun _ => .bind (.note _) fun _ => .pure _

mutual
theorem woven_lowerStmt (env : Surroundings) (st : Stmt) : Woven env (lowerStmt env st) := by
  cases st with
  | block site locals body =>
    rw [lowerStmt]
    refine Woven.noted (.inBlock ?_) site
    exact .bind (.mapM .lowerLocal locals) fun _ => .bind (woven_lowerStmts env body) fun _ => .draw _
  | ifThen site cond body =>
    rw [lowerStmt]
    exact Woven.noted (.bind (woven_lowerExpr env cond) fun _ => .bind (woven_lowerStmt env body) fun _ => .pure _) site
  | ifElse site cond body otherwise =>
    rw [lowerStmt]
    refine Woven.noted (.bind (woven_lowerExpr env cond) fun _ => .bind (woven_lowerStmt env body) fun _ => ?_) site
    exact .bind (woven_lowerStmt env otherwise) fun _ => .pure _
  | «while» site cond body =>
    rw [lowerStmt]
    refine Woven.noted (.bind (.draw _) fun _ => .bind (.draw _) fun _ => .bind (.draw _) fun _ => ?_) site
    refine .bind (woven_lowerExpr env cond) fun _ => .bind (.liftExcept _) fun _ => ?_
    exact .bind (woven_lowerStmt env body) fun _ => .bind (.draw _) fun _ => .pure _
  | println site value =>
    rw [lowerStmt]
    exact Woven.noted (.bind (woven_lowerValue env value) fun _ => .pure _) site
  | assign site name value =>
    rw [lowerStmt]
    refine Woven.noted (.bind (.resolve name) fun target => ?_) site
    cases target with
    | value => exact .bind (woven_lowerValue env value) fun _ => .pure _
    | effect | relation | ifThen | ifElse | missing => exact .pure _
  | assignAt site name index value =>
    rw [lowerStmt]
    refine Woven.noted (.bind (.resolve name) fun base => ?_) site
    cases base with
    | value =>
      exact .bind (woven_lowerValue env index) fun _ => .bind (woven_lowerValue env value) fun _ => .pure _
    | effect | relation | ifThen | ifElse | missing => exact .pure _

theorem woven_lowerStmts (env : Surroundings) (stmts : List Stmt) : Woven env (lowerStmts env stmts) := by
  cases stmts with
  | nil => exact .pure []
  | cons st rest =>
    rw [lowerStmts]
    exact .bind (woven_lowerStmt env st) fun _ => .bind (woven_lowerStmts env rest) fun _ => .pure _
end

theorem woven_lowerResult (env : Surroundings) (result : Option Source.Expr) : Woven env (lowerResult env result) := by
  cases result with
  | none => exact .pure []
  | some e =>
    refine .bind (woven_lowerValue env e) fun v => ?_
    exact .frame (fun frame => pure [Lowered.effect (.move (.temp frame.rv) v)]) fun _ => .pure _

theorem woven_lowerBody (env : Surroundings) (b : Body) : Woven env (lowerBody env b) := by
  refine .bind (.mapM .lowerFormal b.formals) fun _ => .bind (.mapM .lowerLocal b.locals) fun _ => ?_
  exact .bind (woven_lowerStmts env b.stmts) fun _ => .bind (woven_lowerResult env b.result) fun _ => .draw _

theorem woven_lowerProcedure (env : Surroundings) (b : Body) : Woven env (lowerProcedure env b) := by
  refine .bind .checkBalanced fun _ => .bind (.inBlock (woven_lowerBody env b)) fun _ => ?_
  refine .bind .checkBalanced fun _ => .bind (.draw _) fun s => ?_
  refine .frame (fun frame => do
    note (.bodyLowered frame.name (frame.bracket s))
    return frame.bracket s) fun _ => ?_
  exact .bind (.note _) fun _ => .pure _

/-! ## What the pieces do -/

/-- Storage for one more variable, and the work after it is set aside. -/
def allocated (env : Surroundings) (w : Work) : Access × Work :=
  let made := (w.frame.alloc env.storage.localsEscape).run w.supply
  (made.1.1, { w with frame := made.1.2, supply := made.2 })

theorem run_alloc (env : Surroundings) (w : Work) :
    (alloc env).run.run w = (.ok (allocated env w).1, (allocated env w).2) := rfl

section

variable {d : VarDecl} {w : Work} {m : Method} {v : Variable} {x : String} {a : Access}

theorem run_lowerLocal_bound (hm : w.method.bindLocal? d.name.val (allocated env w).1 = some m) :
    (lowerLocal env d).run.run w =
      (.ok (.value ((allocated env w).1.exp (.temp (allocated env w).2.frame.fp))),
        { (allocated env w).2 with method := m }) := by
  rw [lowerLocal, run_bind_ok (run_alloc env w), run_get_bind, show (allocated env w).2.method = w.method from rfl, hm]
  rfl

theorem run_lowerLocal_unknown (hm : w.method.bindLocal? d.name.val (allocated env w).1 = none) :
    (lowerLocal env d).run.run w = (.error (.unresolved d.name.val w.method.name), (allocated env w).2) := by
  rw [lowerLocal, run_bind_ok (run_alloc env w), run_get_bind, show (allocated env w).2.method = w.method from rfl, hm]
  rfl

theorem run_lowerFormal_bound (hv : w.method.parameter? d.name.val = some v) (ha : v.access = some a)
    (hm : w.method.bindParameter? d.name.val (allocated env w).1 = some m) :
    (lowerFormal env d).run.run w =
      let fp := Tree.Expr.temp (allocated env w).2.frame.fp
      let home := (allocated env w).1.exp fp
      (.ok (.value (.eseq (.move home (a.exp fp)) home)), { (allocated env w).2 with method := m }) := by
  rw [lowerFormal, run_bind_ok (run_alloc env w), run_get_bind, show (allocated env w).2.method = w.method from rfl, hv,
    hm]
  simp only [ha]
  rfl

theorem run_lowerFormal_unbound (hv : w.method.parameter? d.name.val = some v) (ha : v.access = none) :
    (lowerFormal env d).run.run w = (.error (.unbound d.name.val), (allocated env w).2) := by
  rw [lowerFormal, run_bind_ok (run_alloc env w), run_get_bind, show (allocated env w).2.method = w.method from rfl,
    Method.bindParameter?, hv]
  simp only [Option.map_some, ha]
  rfl

theorem run_lowerFormal_unknown (hv : w.method.parameter? d.name.val = none) :
    (lowerFormal env d).run.run w = (.error (.unresolved d.name.val w.method.name), (allocated env w).2) := by
  rw [lowerFormal, run_bind_ok (run_alloc env w), run_get_bind, show (allocated env w).2.method = w.method from rfl, hv]
  rfl

theorem run_resolve_bound (hv : (w.method.local? x).or (w.method.parameter? x) = some v) (ha : v.access = some a) :
    (resolve env x).run.run w = (.ok (.value (a.exp (.temp w.frame.fp))), w) := by
  rw [resolve, run_get_bind]
  simp only [hv, ha]
  rfl

theorem run_resolve_unbound (hv : (w.method.local? x).or (w.method.parameter? x) = some v) (ha : v.access = none) :
    (resolve env x).run.run w = (.error (.unbound x), w) := by
  rw [resolve, run_get_bind]
  simp only [hv, ha]
  rfl

theorem run_resolve_unknown (hv : (w.method.local? x).or (w.method.parameter? x) = none) :
    (resolve env x).run.run w =
      (if env.isField x then .ok (.missing (.fieldAccess x)) else .error (.unresolved x w.method.name), w) := by
  rw [resolve, run_get_bind]
  simp only [hv]
  split <;> rfl

theorem state_resolve (env : Surroundings) (x : String) (w : Work) : ((resolve env x).run.run w).2 = w := by
  cases hv : (w.method.local? x).or (w.method.parameter? x) with
  | none => rw [run_resolve_unknown hv]
  | some v =>
    cases ha : v.access with
    | none => rw [run_resolve_unbound hv ha]
    | some a => rw [run_resolve_bound hv ha]

theorem run_checkBalanced (w : Work) : checkBalanced.run.run w =
    (if w.method.depth ≠ 0 then .error (.openBlocks w.method.name w.method.depth) else .ok (), w) := by
  rw [checkBalanced, run_get_bind]
  dsimp only
  split <;> rfl

end

end Lower

/-! ## Programs -/

/-- The work after a line in the journal. -/
def UnitWork.noting (u : UnitWork) (e : Event) : UnitWork := { u with journal := u.journal.push e }

namespace LowerUnit

/-- A procedure by its names. -/
def lowerAt (options : Options) (storage : Storage) (cls method : String) (e : Event) (b : Lower.Body) :
    LowerUnit Fragment := do
  let place ← findPlace (← get).table cls method
  note e
  lowerProcedure options storage place b

/-- Work that is put together from the pieces of lowering a unit. -/
inductive Woven (options : Options) (storage : Storage) : {α : Type} → LowerUnit α → Prop
  | pure {α : Type} (a : α) : Woven options storage (pure a)
  | bind {α β : Type} {x : LowerUnit α} {f : α → LowerUnit β} : Woven options storage x →
      (∀ a, Woven options storage (f a)) → Woven options storage (x >>= f)
  | noted {α : Type} (x : Noted α) : Woven options storage (LowerUnit.noted x)
  | lowerAt (cls method : String) (e : Event) (b : Lower.Body) :
      Woven options storage (LowerUnit.lowerAt options storage cls method e b)

/-- The work with which a procedure starts, wherever variables are kept. -/
def startIn (storage : Storage) (p : Place) (u : UnitWork) : Work :=
  let name := procedureLabel p.cls.name p.method.name
  let formals := p.method.parameters.length
  let created := (Frame.create name formals).run u.supply
  let frame := if storage.formalsKnown then created.1 else { created.1 with formals := [] }
  { method := { p.method with parameters := Method.bindParameters frame.formals p.method.parameters }
    frame
    supply := created.2
    journal := u.journal.push (.frameCreated name formals) }

def surroundingsIn (options : Options) (storage : Storage) (p : Place) (u : UnitWork) : Surroundings where
  isField name := (u.table.field? p.classId name).isSome
  println := options.linkage.linkName .println
  storage := storage

/-- When a procedure ends, its method goes back to the table. -/
def closing (p : Place) (t : Table) (done : Except LowerError Tree.Stm × Work) : Except LowerError Fragment × UnitWork :=
  (done.1.map fun body => ⟨done.2.frame, body⟩,
    { table := t.setMethod p.classId p.methodId done.2.method, supply := done.2.supply, journal := done.2.journal })

variable {options : Options} {storage : Storage}

theorem run_lowerAt_ok {cls method : String} {e : Event} {b : Lower.Body} {u : UnitWork} {p : Place}
    (hp : findPlace u.table cls method = .ok p) :
    (lowerAt options storage cls method e b).run.run u =
      let u := u.noting e
      closing p u.table ((Lower.lowerProcedure (surroundingsIn options storage p u) b).run.run (startIn storage p u)) := by
  rw [lowerAt, run_get_bind, hp]
  rfl

theorem run_lowerAt_error {cls method : String} {e : Event} {b : Lower.Body} {u : UnitWork} {err : LowerError}
    (hp : findPlace u.table cls method = .error err) :
    (lowerAt options storage cls method e b).run.run u = (.error err, u) := by
  rw [lowerAt, run_get_bind, hp]
  rfl

theorem Woven.mapM {α β : Type} {f : α → LowerUnit β} (h : ∀ a, Woven options storage (f a)) (as : List α) :
    Woven options storage (as.mapM f) := by
  induction as with
  | nil => exact .pure []
  | cons a rest ih =>
    rw [List.mapM_cons]
    exact .bind (h a) fun b => .bind ih fun bs => .pure (b :: bs)

theorem woven_noteDumps (format : DumpFormat) (fs : List Fragment) :
    Woven options storage (fs.forM (noteDump format)) := by
  induction fs with
  | nil => exact .pure _
  | cons f rest ih => exact .bind (.bind (.noted _) fun _ => .noted _) fun _ => ih

theorem woven_lowerProgram (options : Options) (storage : Storage) (p : Program) :
    Woven options storage (lowerProgram options storage p) := by
  have hclass : ∀ d : ClassDecl, Woven options storage (lowerClass options storage d) := fun d =>
    .bind (.noted _) fun _ => .mapM (fun m : MethodDecl => .lowerAt d.name.val m.name.val (.methodStarted _ _) _) _
  refine .bind (.lowerAt p.main.name.val p.main.method.val (.mainStarted _ _) _) fun main => ?_
  refine .bind (.mapM hclass p.classes) fun methods => ?_
  cases options.dumpFragments with
  | none => exact .bind (.pure ()) fun _ => .pure _
  | some format => exact .bind (woven_noteDumps format _) fun _ => .pure _

end LowerUnit

end Lowering
