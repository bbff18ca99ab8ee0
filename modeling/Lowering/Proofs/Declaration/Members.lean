import Lowering.Proofs.Declaration.Histories
import Lowering.Proofs.Outcome
import Lowering.Proofs.Scope.Lookup

/-!
# Members leave the hierarchy alone

Fields, methods and bodies are declared after the classes are linked. That changes neither the name of a
class nor the class it extends, and no cycle is reported there.
-/

namespace Lowering

open Lowering.Source (Located TypeExpr VarDecl Stmt MethodDecl ClassDecl MainClass Site)

namespace Reporting

/-! ## Reports of one kind -/

section

variable {α β δ : Type} {k : Diagnostic.Kind}

theorem Always.gives {x : Reporting α} {a : α} {r r' : List Diagnostic} {P : α → Prop} (h : Always x P)
    (hgives : Gives x r a r') : P a := by
  have ha := h r
  rwa [show x.run r = (a, r') from hgives] at ha

/-- The reports of kind `k` are the same before and after. -/
def Leaves (k : Diagnostic.Kind) (x : Reporting α) : Prop :=
  ∀ reports, (x.run reports).2.filter (·.kind = k) = reports.filter (·.kind = k)

theorem leaves_pure {a : α} : Leaves k (pure a) := fun _ => rfl

theorem leaves_report {kind : Diagnostic.Kind} (h : kind ≠ k) (site : Site) (args : List String) :
    Leaves k (report kind site args) := by
  intro reports
  change (reports ++ [(⟨kind, site, args⟩ : Diagnostic)]).filter _ = _
  simp [h]

theorem Leaves.bind {x : Reporting α} {f : α → Reporting β} (hx : Leaves k x) (hf : ∀ a, Leaves k (f a)) :
    Leaves k (x >>= f) := fun reports => (hf _ _).trans (hx reports)

theorem leaves_report_pure {kind : Diagnostic.Kind} {site : Site} {args : List String} {a : α} (h : kind ≠ k) :
    Leaves k (do report kind site args; return a) := (leaves_report h site args).bind fun _ => leaves_pure

theorem leaves_foldlM {step : α → δ → Reporting α} (hstep : ∀ a d, Leaves k (step a d)) (ds : List δ) (a : α) :
    Leaves k (ds.foldlM step a) := by
  induction ds generalizing a with
  | nil => exact leaves_pure
  | cons d rest ih => exact (hstep a d).bind ih

theorem Leaves.mem_iff {x : Reporting α} {a : α} {r r' : List Diagnostic} {d : Diagnostic} (h : Leaves k x)
    (hgives : Gives x r a r') (hd : d.kind = k) : d ∈ r' ↔ d ∈ r := by
  have hmem : ∀ ds : List Diagnostic, d ∈ ds ↔ d ∈ ds.filter (·.kind = k) := by simp [hd]
  have hsame := h r
  rw [show x.run r = (a, r') from hgives] at hsame
  rw [hmem r', hsame, ← hmem]

/-- The work reports no cycle, and `key` stays what it was. -/
structure Keeps {κ : Type} (key : α → κ) (a : α) (x : Reporting α) : Prop where
  leaves : Leaves .cyclicInheritance x
  same : Always x (key · = key a)

section

variable {κ : Type} {key : α → κ} {a : α}

theorem keeps_pure : Keeps key a (pure a) := ⟨leaves_pure, always_pure rfl⟩

theorem Keeps.bind {x : Reporting α} {f : α → Reporting α} (hx : Keeps key a x) (hf : ∀ a, Keeps key a (f a)) :
    Keeps key a (x >>= f) :=
  ⟨hx.leaves.bind fun a => (hf a).leaves, hx.same.bind fun a' ha' r => ((hf a').same r).trans ha'⟩

theorem keeps_foldlM {step : α → δ → Reporting α} (hstep : ∀ a d, Keeps key a (step a d)) (ds : List δ) (a : α) :
    Keeps key a (ds.foldlM step a) := by
  induction ds generalizing a with
  | nil => exact keeps_pure
  | cons d rest ih => exact (hstep a d).bind ih

end

end

/-! ## Bodies -/

variable {t : Table}

theorem leaves_resolveType {k : Diagnostic.Kind} (h : .undefinedClass ≠ k) (type : Located TypeExpr) :
    Leaves k (resolveType t type) := by
  unfold resolveType
  split
  · exact leaves_pure
  · exact leaves_pure
  · exact leaves_pure
  · split
    · exact leaves_pure
    · exact leaves_report_pure h

theorem leaves_settle {α : Type} {site : Source.Site} (x : Except ScopeError α × Method) :
    Leaves .cyclicInheritance (settle site x) := by
  obtain ⟨result, m⟩ := x
  cases result with
  | ok a => exact leaves_pure
  | error e => exact leaves_report_pure (by decide)

theorem leaves_declareLocal (m : Method) (d : VarDecl) : Leaves .cyclicInheritance (declareLocal t m d) := by
  refine (leaves_resolveType (by decide) d.type).bind fun type => ?_
  split
  · exact leaves_report_pure (by decide)
  · exact leaves_settle _

theorem leaves_declareFormal (m : Method) (d : VarDecl) : Leaves .cyclicInheritance (declareFormal t m d) := by
  refine (leaves_resolveType (by decide) d.type).bind fun type => ?_
  split
  · exact leaves_report_pure (by decide)
  · exact leaves_settle _

theorem leaves_inBlock {contents : Method → Reporting Method} (m : Method)
    (h : ∀ m, Leaves .cyclicInheritance (contents m)) : Leaves .cyclicInheritance (inBlock m contents) := by
  exact (h _).bind fun m' => leaves_settle m'.leave

mutual
theorem leaves_declareStmt (st : Stmt) (m : Method) : Leaves .cyclicInheritance (declareStmt t st m) := by
  cases st with
  | block site locals body =>
    rw [declareStmt]
    refine leaves_inBlock m fun m => ?_
    exact (leaves_foldlM leaves_declareLocal locals m).bind (leaves_declareStmts body)
  | ifThen site cond body =>
    rw [declareStmt]
    exact leaves_declareStmt body m
  | ifElse site cond body otherwise =>
    rw [declareStmt]
    exact (leaves_declareStmt body m).bind (leaves_declareStmt otherwise)
  | «while» site cond body =>
    rw [declareStmt]
    exact leaves_declareStmt body m
  | println | assign | assignAt =>
    rw [declareStmt]
    exact leaves_pure

theorem leaves_declareStmts (stmts : List Stmt) (m : Method) : Leaves .cyclicInheritance (declareStmts t stmts m) := by
  cases stmts with
  | nil => exact leaves_pure
  | cons st rest =>
    rw [declareStmts]
    exact (leaves_declareStmt st m).bind (leaves_declareStmts rest)
end

theorem leaves_declareBody (locals : List VarDecl) (body : List Stmt) (m : Method) :
    Leaves .cyclicInheritance (declareBody t locals body m) :=
  leaves_inBlock m fun m => (leaves_foldlM leaves_declareLocal locals m).bind (leaves_declareStmts body)

/-! ## Classes -/

end Reporting

/-- What the hierarchy has of a class. -/
def Class.entry (c : Class) : ClassEntry := ⟨c.name, c.superclass⟩

theorem Class.entry_of_addMethod {c c' : Class} {m : Method} {id : MethodId} (h : c.addMethod m = .ok (id, c')) :
    c'.entry = c.entry := by
  obtain ⟨-, -, rfl⟩ := Class.addMethod_eq_ok.1 h
  rfl

theorem Table.hierarchy_setClass {t : Table} {id : ClassId} {c c' : Class} (hc : t.class? id = some c)
    (hentry : c'.entry = c.entry) : (t.setClass id c').hierarchy = t.hierarchy :=
  congrArg Hierarchy.mk (map_set_of_eq hc hentry)

namespace Reporting

variable {t : Table} {c : Class}

theorem keeps_declareField (c : Class) (d : VarDecl) : Keeps Class.entry c (declareField t c d) := by
  unfold declareField Class.addField
  cases c.field? d.name.val with
  | some f =>
    exact ⟨(leaves_resolveType (by decide) d.type).bind fun _ => leaves_report_pure (by decide),
      always_bind fun _ => always_bind fun _ => always_pure rfl⟩
  | none => exact ⟨(leaves_resolveType (by decide) d.type).bind fun _ => leaves_pure, always_bind fun _ => always_pure rfl⟩

theorem keeps_declareMethod (c : Class) (d : MethodDecl) : Keeps Class.entry c (declareMethod t c d) := by
  constructor
  · refine (leaves_resolveType (by decide) d.returns).bind fun returns => ?_
    dsimp only
    split
    · exact leaves_report_pure (by decide)
    · refine (leaves_foldlM leaves_declareFormal d.formals _).bind fun m => ?_
      exact (leaves_declareBody d.locals d.body m).bind fun _ => leaves_pure
  · refine always_bind fun returns => ?_
    dsimp only
    split
    next => exact always_bind fun _ => always_pure rfl
    next id c' hadd =>
      have hentry : c'.entry = c.entry := Class.entry_of_addMethod hadd
      exact always_bind fun _ => always_bind fun _ => always_pure hentry

theorem keeps_declareMembers (d : ClassDecl) (c : Class) : Keeps Class.entry c (declareMembers t d c) :=
  (keeps_foldlM keeps_declareField d.fields c).bind (keeps_foldlM keeps_declareMethod d.methods)

theorem keeps_declareMain (d : MainClass) (c : Class) : Keeps Class.entry c (declareMain t d c) := by
  unfold declareMain
  dsimp only
  split
  next => exact keeps_pure
  next id c' hadd =>
    have hentry : c'.entry = c.entry := Class.entry_of_addMethod hadd
    exact ⟨(leaves_declareBody d.locals d.body _).bind fun _ => leaves_pure,
      always_bind fun _ => always_pure hentry⟩

/-! ## Tables -/

theorem keeps_updateClass {change : Class → Reporting Class} (h : ∀ c, Keeps Class.entry c (change c)) (t : Table)
    (id : ClassId) : Keeps Table.hierarchy t (updateClass t id change) := by
  unfold updateClass
  split
  next => exact keeps_pure
  next c hc =>
    exact ⟨(h c).leaves.bind fun _ => leaves_pure,
      (h c).same.bind fun c' hc' => always_pure (Table.hierarchy_setClass hc hc')⟩

end Reporting

end Lowering
