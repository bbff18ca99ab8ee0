import Lowering.Proofs.Table.Changes
import Lowering.Proofs.Table.History
import Lowering.Table.Declare

/-!
# Histories of declared methods

Whatever is wrong with a program, the declaration pass uses methods through calls alone. So what every
history of calls keeps holds of all methods of its table.
-/

namespace Lowering

open Lowering.Source (Located Stmt VarDecl MethodDecl ClassDecl MainClass Program)

/-! ## All methods of a table -/

def Class.All (P : Method → Prop) (c : Class) : Prop := ∀ m ∈ c.methods, P m

def Table.All (P : Method → Prop) (t : Table) : Prop := ∀ c ∈ t.classes, c.All P

section

variable {P Q : Method → Prop} {t t' : Table} {c c' : Class}

theorem Class.All.addMethod {m : Method} {id : MethodId} (h : c.All P) (hm : P m)
    (hadd : c.addMethod m = .ok (id, c')) : c'.All P := by
  obtain ⟨-, -, rfl⟩ := Class.addMethod_eq_ok.1 hadd
  exact List.forall_mem_append.2 ⟨h, List.forall_mem_singleton.2 hm⟩

theorem Class.All.setMethod {m : Method} (h : c.All P) (hm : P m) (id : MethodId) : (c.setMethod id m).All P :=
  fun m' hm' => (List.mem_or_eq_of_mem_set hm').elim (h m') fun heq => heq ▸ hm

namespace Table.All

theorem imp (h : t.All P) (himp : ∀ m, P m → Q m) : t.All Q := fun c hc m hm => himp m (h c hc m hm)

theorem class? {id : ClassId} (h : t.All P) (hc : t.class? id = some c) : c.All P :=
  h c (List.mem_of_getElem? hc)

theorem addClass {name : String} {site : Source.Site} {id : ClassId} (h : t.All P)
    (hadd : t.addClass name site = .ok (id, t')) : t'.All P := by
  obtain ⟨-, -, rfl⟩ := Table.addClass_eq_ok.1 hadd
  refine List.forall_mem_append.2 ⟨h, List.forall_mem_singleton.2 fun m hm => ?_⟩
  exact absurd hm List.not_mem_nil

theorem setClass (h : t.All P) (hc : c.All P) (id : ClassId) : (t.setClass id c).All P :=
  fun c' hc' => (List.mem_or_eq_of_mem_set hc').elim (h c') fun heq => heq ▸ hc

theorem modify {change : Class → Class} (h : t.All P) (hchange : ∀ c, c.All P → (change c).All P) (i : Nat) :
    Table.All P ⟨t.classes.modify i change⟩ := by
  intro c hc
  obtain ⟨j, hj⟩ := List.mem_iff_getElem?.1 hc
  rw [List.getElem?_modify, Option.map_eq_map, Option.map_eq_some_iff] at hj
  obtain ⟨c', hc', rfl⟩ := hj
  have hall := h c' (List.mem_of_getElem? hc')
  split
  · exact hchange c' hall
  · exact hall

theorem setSuperclass (h : t.All P) (id : ClassId) (superclass : Option ClassId) :
    (t.setSuperclass id superclass).All P :=
  h.modify (fun c hc => show Class.All P { c with superclass } from hc) id.index

theorem setMethod {m : Method} (h : t.All P) (hm : P m) (id : ClassId) (method : MethodId) :
    (t.setMethod id method m).All P := h.modify (fun _ hc => hc.setMethod hm method) id.index

end Table.All

end

/-! ## Work that reports -/

namespace Reporting

section

variable {α β δ : Type} {P : α → Prop} {Q : β → Prop}

/-- Whatever is reported, the result is one of these. -/
def Always (x : Reporting α) (P : α → Prop) : Prop := ∀ reports, P (x.run reports).1

theorem always_pure {a : α} (h : P a) : Always (pure a) P := fun _ => h

theorem Always.bind {x : Reporting α} {f : α → Reporting β} (hx : Always x P) (hf : ∀ a, P a → Always (f a) Q) :
    Always (x >>= f) Q := fun reports => hf _ (hx reports) _

theorem always_bind {x : Reporting α} {f : α → Reporting β} (hf : ∀ a, Always (f a) Q) : Always (x >>= f) Q :=
  Always.bind (P := fun _ => True) (fun _ => trivial) fun a _ => hf a

theorem always_foldlM {step : α → δ → Reporting α} (hstep : ∀ a, P a → ∀ d, Always (step a d) P) {a : α} (ha : P a)
    (ds : List δ) : Always (ds.foldlM step a) P := by
  induction ds generalizing a with
  | nil => exact always_pure ha
  | cons d rest ih => exact (hstep a ha d).bind fun a ha => ih ha

end

/-! ## Bodies -/

variable {t : Table} {m : Method} {c : Class}

theorem always_settle {α : Type} {site : Source.Site} {x : Except ScopeError α × Method} (h : x.2.Made) :
    Always (settle site x) Method.Made := by
  obtain ⟨result, m⟩ := x
  cases result with
  | ok a => exact always_pure h
  | error e => exact always_bind fun _ => always_pure h

theorem always_declareLocal (h : m.Made) (d : VarDecl) : Always (declareLocal t m d) Method.Made := by
  refine always_bind fun type => ?_
  split
  · exact always_bind fun _ => always_pure h
  · exact always_settle (h.call (.addLocal d.name.val type d.name.site))

theorem always_declareFormal (h : m.Made) (d : VarDecl) : Always (declareFormal t m d) Method.Made := by
  refine always_bind fun type => ?_
  split
  · exact always_bind fun _ => always_pure h
  · exact always_settle (h.call (.addParameter d.name.val type d.name.site))

theorem always_inBlock {contents : Method → Reporting Method}
    (hcontents : ∀ m, m.Made → Always (contents m) Method.Made) (h : m.Made) :
    Always (inBlock m contents) Method.Made := by
  exact (hcontents _ (h.call .enter)).bind fun _ hm => always_settle (hm.call .leave)

mutual
theorem always_declareStmt (st : Stmt) {m : Method} (h : m.Made) : Always (declareStmt t st m) Method.Made := by
  cases st with
  | block site locals body =>
    rw [declareStmt]
    refine always_inBlock (fun m hm => ?_) h
    exact (always_foldlM (fun _ => always_declareLocal) hm locals).bind fun _ => always_declareStmts body
  | ifThen site cond body =>
    rw [declareStmt]
    exact always_declareStmt body h
  | ifElse site cond body otherwise =>
    rw [declareStmt]
    exact (always_declareStmt body h).bind fun _ => always_declareStmt otherwise
  | «while» site cond body =>
    rw [declareStmt]
    exact always_declareStmt body h
  | println | assign | assignAt =>
    rw [declareStmt]
    exact always_pure h

theorem always_declareStmts (stmts : List Stmt) {m : Method} (h : m.Made) :
    Always (declareStmts t stmts m) Method.Made := by
  cases stmts with
  | nil => exact always_pure h
  | cons st rest =>
    rw [declareStmts]
    exact (always_declareStmt st h).bind fun _ => always_declareStmts rest
end

theorem always_declareBody (h : m.Made) (locals : List VarDecl) (body : List Stmt) :
    Always (declareBody t locals body m) Method.Made :=
  always_inBlock (fun _ hm => (always_foldlM (fun _ => always_declareLocal) hm locals).bind fun _ =>
    always_declareStmts body) h

/-! ## Classes -/

theorem always_declareField (h : c.All Method.Made) (d : VarDecl) : Always (declareField t c d) (Class.All Method.Made) := by
  refine always_bind fun type => ?_
  unfold Class.addField
  cases c.field? d.name.val with
  | some f => exact always_bind fun _ => always_pure h
  | none => exact always_pure h

theorem always_declareMethod (h : c.All Method.Made) (d : MethodDecl) :
    Always (declareMethod t c d) (Class.All Method.Made) := by
  refine always_bind fun returns => ?_
  have hnew := Method.made_new d.name.val (some returns) d.name.site
  dsimp only
  split
  next => exact always_bind fun _ => always_pure h
  next id c' hadd =>
    refine (always_foldlM (fun _ => always_declareFormal) hnew d.formals).bind fun m hm => ?_
    refine (always_declareBody hm d.locals d.body).bind fun m hm => ?_
    exact always_pure ((h.addMethod hnew hadd).setMethod hm id)

theorem always_declareMembers (h : c.All Method.Made) (d : ClassDecl) :
    Always (declareMembers t d c) (Class.All Method.Made) :=
  (always_foldlM (fun _ => always_declareField) h d.fields).bind fun _ hc =>
    always_foldlM (fun _ => always_declareMethod) hc d.methods

theorem always_declareMain (h : c.All Method.Made) (d : MainClass) :
    Always (declareMain t d c) (Class.All Method.Made) := by
  have hnew := Method.made_new d.method.val none d.method.site
  unfold declareMain
  dsimp only
  split
  next => exact always_pure h
  next id c' hadd =>
    refine (always_declareBody hnew d.locals d.body).bind fun m hm => ?_
    exact always_pure ((h.addMethod hnew hadd).setMethod hm id)

/-! ## Tables -/

theorem always_declareClass (h : t.All Method.Made) (name : Located String) :
    Always (declareClass t name) fun r => r.2.All Method.Made := by
  unfold declareClass
  split
  next hadd => exact always_pure (h.addClass hadd)
  next => exact always_bind fun _ => always_pure h

theorem always_declareClasses (ds : List ClassDecl) {t : Table} (h : t.All Method.Made) :
    Always (declareClasses ds t) fun r => r.2.All Method.Made := by
  induction ds generalizing t with
  | nil => exact always_pure h
  | cons d rest ih =>
    refine (always_declareClass h d.name).bind fun r hr => ?_
    exact (ih hr).bind fun r hr => always_pure hr

theorem always_linkSuperclass (h : t.All Method.Made) (link : ClassId × ClassDecl) :
    Always (linkSuperclass t link) (Table.All Method.Made) := by
  obtain ⟨id, d⟩ := link
  rw [linkSuperclass]
  cases d.extends? with
  | none => exact always_pure h
  | some parent =>
    dsimp only
    split
    next => exact always_bind fun _ => always_pure h
    next superclass _ =>
      split
      · exact always_bind fun _ => always_pure h
      · exact always_pure (h.setSuperclass _ _)

theorem always_updateClass {change : Class → Reporting Class}
    (hchange : ∀ c, c.All Method.Made → Always (change c) (Class.All Method.Made)) (h : t.All Method.Made)
    (id : ClassId) : Always (updateClass t id change) (Table.All Method.Made) := by
  unfold updateClass
  split
  next => exact always_pure h
  next c hc => exact (hchange c (h.class? hc)).bind fun c' hc' => always_pure (h.setClass hc' id)

theorem always_declareProgram (p : Program) : Always (declareProgram p) (Table.All Method.Made) := by
  have hempty : Table.All Method.Made {} := fun c hc => absurd hc List.not_mem_nil
  refine (always_declareClass hempty p.main.name).bind fun r hr => ?_
  refine (always_declareClasses p.classes hr).bind fun r' hr' => ?_
  refine (always_foldlM (fun _ => always_linkSuperclass) hr' r'.1).bind fun t ht => ?_
  have hrest : ∀ t, t.All Method.Made →
      Always (r'.1.foldlM (fun t link => updateClass t link.1 (declareMembers t link.2)) t) (Table.All Method.Made) := by
    intro t ht
    refine always_foldlM (fun t ht link => ?_) ht r'.1
    exact always_updateClass (fun c hc => always_declareMembers hc link.2) ht link.1
  cases r.1 with
  | none => exact hrest t ht
  | some id => exact (always_updateClass (fun c hc => always_declareMain hc p.main) ht id).bind hrest

end Reporting

theorem declare_made (p : Program) : (declare p).1.All Method.Made := Reporting.always_declareProgram p []

end Lowering
