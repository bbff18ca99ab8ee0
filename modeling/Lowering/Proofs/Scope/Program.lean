import Lowering.Proofs.Scope.Declared
import Lowering.Proofs.Scope.Lookup
import Lowering.Proofs.Source.WellFormed
import Lowering.Proofs.Table.Changes

/-!
# The procedures of a program in its table

A declaration pass that reports nothing leaves a method for every procedure of the program, and it
is found by the names of its class and its own.
-/

namespace Lowering

open Lowering.Source (VarDecl Stmt Located MethodDecl ClassDecl MainClass Program)

/-! ## Procedures -/

/-- A procedure of a program, with the name of its class. -/
structure Procedure where
  cls : String
  name : String
  body : Lower.Body

def Procedure.key (q : Procedure) : String × String := (q.cls, q.name)

namespace Source

def MethodDecl.procedure (cls : String) (d : MethodDecl) : Procedure where
  cls
  name := d.name.val
  body := { formals := d.formals, locals := d.locals, stmts := d.body, result := some d.result }

def MainClass.procedure (d : MainClass) : Procedure where
  cls := d.name.val
  name := d.method.val
  body := { locals := d.locals, stmts := d.body }

def ClassDecl.procedures (d : ClassDecl) : List Procedure := d.methods.map (·.procedure d.name.val)

/-- The main class with its procedure, then the other classes with theirs. -/
def Program.sections (p : Program) : List (String × List Procedure) :=
  (p.main.name.val, [p.main.procedure]) :: p.classes.map fun d => (d.name.val, d.procedures)

/-- The main procedure first, then the methods of each class in order. -/
def Program.procedures (p : Program) : List Procedure :=
  p.main.procedure :: p.classes.flatMap ClassDecl.procedures

end Source

/-! ## Classes without members -/

/-- A class before it is linked and gets its members. -/
def Class.blank (name : Located String) : Class := { name := name.val, site := name.site }

/-- The classes of a program as they are declared, all blank. -/
def Source.Program.blank (p : Program) : Table :=
  ⟨Class.blank p.main.name :: p.classes.map fun d => Class.blank d.name⟩

/-- The classes with their numbers, from `k` on. -/
def withIds (k : Nat) (ds : List ClassDecl) : List (ClassId × ClassDecl) :=
  (ds.zipIdx k).map fun (d, i) => (⟨i⟩, d)

theorem map_snd_withIds (k : Nat) (ds : List ClassDecl) : (withIds k ds).map Prod.snd = ds := by
  simp [withIds, Function.comp_def]

theorem withIds_cons (k : Nat) (d : ClassDecl) (ds : List ClassDecl) :
    withIds k (d :: ds) = (⟨k⟩, d) :: withIds (k + 1) ds := by
  simp [withIds]

variable {t t' : Table} {r : List Diagnostic}

namespace Reporting

theorem gives_declareClass {name : Located String} {id : Option ClassId} :
    Gives (declareClass t name) r (id, t') [] ↔ name.val ∉ t.classNames ∧ r = [] ∧
      id = some ⟨t.classes.length⟩ ∧ t' = ⟨t.classes ++ [Class.blank name]⟩ := by
  unfold declareClass
  constructor
  · intro h
    split at h
    next hadd =>
      obtain ⟨hnew, rfl, rfl⟩ := Table.addClass_eq_ok.1 hadd
      obtain ⟨heq, rfl⟩ := gives_pure.1 h
      cases heq
      exact ⟨hnew, rfl, rfl, rfl⟩
    next => exact absurd h not_gives_report_pure
  · rintro ⟨hnew, rfl, rfl, rfl⟩
    simp only [Table.addClass_eq_ok.2 ⟨hnew, rfl, rfl⟩]
    rfl

theorem gives_declareClasses (ds : List ClassDecl) {t t' : Table} {r : List Diagnostic}
    {accepted : List (ClassId × ClassDecl)} :
    Gives (declareClasses ds t) r (accepted, t') [] ↔
      ((ds.map (·.name.val)).Nodup ∧ ∀ d ∈ ds, d.name.val ∉ t.classNames) ∧ r = [] ∧
        accepted = withIds t.classes.length ds ∧ t' = ⟨t.classes ++ ds.map fun d => Class.blank d.name⟩ := by
  induction ds generalizing t t' r accepted with
  | nil =>
    rw [declareClasses, gives_pure, Prod.mk.injEq]
    constructor
    · rintro ⟨⟨rfl, rfl⟩, rfl⟩
      exact ⟨⟨List.nodup_nil, fun _ h => nomatch h⟩, rfl, rfl, by simp⟩
    · rintro ⟨-, rfl, rfl, rfl⟩
      exact ⟨⟨rfl, by simp⟩, rfl⟩
  | cons d rest ih =>
    have hnames : ∀ x, x ∉ (⟨t.classes ++ [Class.blank d.name]⟩ : Table).classNames ↔
        x ∉ t.classNames ∧ x ≠ d.name.val := by
      simp [Table.classNames, Class.blank]
    simp only [declareClasses, gives_bind, gives_pure, Prod.exists]
    constructor
    · rintro ⟨_, _, _, hfirst, _, _, _, hall, heq, rfl⟩
      obtain ⟨⟨hnodup, hrest⟩, rfl, rfl, rfl⟩ := ih.1 hall
      obtain ⟨hnew, rfl, rfl, rfl⟩ := gives_declareClass.1 hfirst
      cases heq
      simp only [hnames] at hrest
      refine ⟨⟨List.nodup_cons.2 ⟨fun hmem => ?_, hnodup⟩, fun d' hd' => ?_⟩, rfl, by simp [withIds_cons], by simp⟩
      · obtain ⟨d', hd', hsame⟩ := List.mem_map.1 hmem
        exact (hrest d' hd').2 hsame
      · rcases List.mem_cons.1 hd' with rfl | hd'
        · exact hnew
        · exact (hrest d' hd').1
    · rintro ⟨⟨hnodup, hnew⟩, rfl, rfl, rfl⟩
      obtain ⟨hfirst, hnodup⟩ := List.nodup_cons.1 hnodup
      have hrest : ∀ d' ∈ rest, d'.name.val ∉ (⟨t.classes ++ [Class.blank d.name]⟩ : Table).classNames := by
        intro d' hd'
        refine (hnames _).2 ⟨hnew d' (List.mem_cons_of_mem _ hd'), fun hsame => hfirst ?_⟩
        exact List.mem_map.2 ⟨d', hd', hsame⟩
      exact ⟨_, _, _, gives_declareClass.2 ⟨hnew d List.mem_cons_self, rfl, rfl, rfl⟩, _, _, _,
        ih.2 ⟨⟨hnodup, hrest⟩, rfl, rfl, rfl⟩, by simp [withIds_cons], rfl⟩

/-! ## Links -/

end Reporting

/-- What a class declares. -/
structure Outline where
  name : String
  fields : List Field := []
  methods : List Method := []

def Class.outline (c : Class) : Outline := ⟨c.name, c.fields, c.methods⟩

def Table.outline (t : Table) : List Outline := t.classes.map Class.outline

theorem Table.map_name_outline (t : Table) : t.outline.map Outline.name = t.classNames := by
  simp [outline, classNames, Class.outline, Function.comp_def]

theorem Table.outline_setSuperclass (t : Table) (id : ClassId) (superclass : Option ClassId) :
    (t.setSuperclass id superclass).outline = t.outline := by
  apply List.ext_getElem?
  intro i
  simp only [outline, setSuperclass, List.getElem?_map, List.getElem?_modify]
  split <;> cases t.classes[i]? <;> rfl

namespace Reporting

theorem gives_linkSuperclass {id : ClassId} {d : ClassDecl} :
    Gives (linkSuperclass t (id, d)) r t' [] ↔ r = [] ∧ ((d.extends? = none ∧ t' = t) ∨
      ∃ parent superclass, d.extends? = some parent ∧ t.classId? parent.val = some superclass ∧
        t.hierarchy.isSubclass superclass id = false ∧ t' = t.setSuperclass id (some superclass)) := by
  unfold linkSuperclass
  dsimp only
  constructor
  · intro h
    split at h
    next hnone =>
      obtain ⟨rfl, rfl⟩ := gives_pure.1 h
      exact ⟨rfl, .inl ⟨hnone, rfl⟩⟩
    next parent hparent =>
      split at h
      next => exact absurd h not_gives_report_pure
      next superclass hid =>
        split at h
        next => exact absurd h not_gives_report_pure
        next hbelow =>
          obtain ⟨rfl, rfl⟩ := gives_pure.1 h
          exact ⟨rfl, .inr ⟨parent, superclass, hparent, hid, by simpa using hbelow, rfl⟩⟩
  · rintro ⟨rfl, ⟨hnone, rfl⟩ | ⟨parent, superclass, hparent, hid, hbelow, rfl⟩⟩
    · simp only [hnone]
      rfl
    · simp only [hparent, hid, hbelow]
      rfl

theorem quiet_linkSuperclass {link : ClassId × ClassDecl} (h : Gives (linkSuperclass t link) r t' []) :
    r = [] ∧ t'.outline = t.outline := by
  obtain ⟨rfl, ⟨-, rfl⟩ | ⟨_, _, -, -, -, rfl⟩⟩ := gives_linkSuperclass.1 h
  · exact ⟨rfl, rfl⟩
  · exact ⟨rfl, t.outline_setSuperclass _ _⟩

theorem quiet_linkSuperclasses (links : List (ClassId × ClassDecl)) {t t' : Table} {r : List Diagnostic}
    (h : Gives (links.foldlM linkSuperclass t) r t' []) : r = [] ∧ t'.outline = t.outline := by
  induction links generalizing t r with
  | nil =>
    obtain ⟨rfl, rfl⟩ := gives_pure.1 h
    exact ⟨rfl, rfl⟩
  | cons link rest ih =>
    rw [List.foldlM_cons] at h
    obtain ⟨t₁, r₁, hfirst, hrest⟩ := gives_bind.1 h
    obtain ⟨rfl, hsame'⟩ := ih hrest
    obtain ⟨hr, hsame⟩ := quiet_linkSuperclass hfirst
    exact ⟨hr, hsame'.trans hsame⟩

/-! ## Members -/

/-- The methods of a class are those of its procedures. -/
def Holds (qs : List Procedure) (methods : List Method) : Prop :=
  List.Forall₂ (fun q m => m.name = q.name ∧ Declared q.body m) qs methods

theorem gives_declareField {c c' : Class} {d : VarDecl} :
    Gives (declareField t c d) r c' [] ↔ d.name.val ∉ c.fields.map (·.name) ∧
      ∃ ty, Gives (resolveType t d.type) r ty [] ∧
        c' = { c with fields := c.fields ++ [⟨d.name.val, ty, d.name.site⟩] } := by
  unfold declareField
  rw [gives_bind]
  constructor
  · rintro ⟨ty, r', hty, h⟩
    split at h
    next hadd =>
      obtain ⟨hnew, rfl⟩ := Class.addField_eq_ok.1 hadd
      obtain ⟨rfl, rfl⟩ := gives_pure.1 h
      exact ⟨hnew, ty, hty, rfl⟩
    next => exact absurd h not_gives_report_pure
  · rintro ⟨hnew, ty, hty, rfl⟩
    refine ⟨ty, [], hty, ?_⟩
    simp only [Class.addField_eq_ok.2 ⟨hnew, rfl⟩]
    rfl

theorem quiet_declareFields (ds : List VarDecl) {c c' : Class} {r : List Diagnostic}
    (h : Gives (ds.foldlM (declareField t) c) r c' []) :
    r = [] ∧ c'.name = c.name ∧ c'.methods = c.methods := by
  induction ds generalizing c r with
  | nil =>
    obtain ⟨rfl, rfl⟩ := gives_pure.1 h
    exact ⟨rfl, rfl, rfl⟩
  | cons d rest ih =>
    rw [List.foldlM_cons] at h
    obtain ⟨c₁, r₁, hfirst, hrest⟩ := gives_bind.1 h
    obtain ⟨rfl, hname, hmethods⟩ := ih hrest
    obtain ⟨-, ty, hty, rfl⟩ := gives_declareField.1 hfirst
    exact ⟨quiet_resolveType hty, hname, hmethods⟩

theorem gives_declareMethod {c c' : Class} {d : MethodDecl} :
    Gives (declareMethod t c d) r c' [] ↔ d.name.val ∉ c.methods.map (·.name) ∧
      ∃ ty m m', Gives (resolveType t d.returns) r ty [] ∧
        Gives (d.formals.foldlM (declareFormal t)
          { name := d.name.val, returns := some ty, site := d.name.site }) [] m [] ∧
        Gives (declareBody t d.locals d.body m) [] m' [] ∧ c' = { c with methods := c.methods ++ [m'] } := by
  constructor
  · intro h
    obtain ⟨ty, r', hty, h⟩ := gives_bind.1 h
    dsimp only at h
    split at h
    next => exact absurd h not_gives_report_pure
    next id c₁ hadd =>
      obtain ⟨hnew, rfl, rfl⟩ := Class.addMethod_eq_ok.1 hadd
      simp only [gives_bind, gives_pure] at h
      obtain ⟨m, r₁, hformals, m', _, hbody, rfl, rfl⟩ := h
      obtain rfl := quiet_declareBody hbody
      obtain ⟨rfl, -⟩ := accepts_formals d.formals hformals
      exact ⟨hnew, ty, m, m', hty, hformals, hbody, by simp [Class.setMethod]⟩
  · rintro ⟨hnew, ty, m, m', hty, hformals, hbody, rfl⟩
    refine gives_bind.2 ⟨ty, [], hty, ?_⟩
    have hadd := (@Class.addMethod_eq_ok c _ { name := d.name.val, returns := some ty, site := d.name.site } _).2
      ⟨hnew, rfl, rfl⟩
    simp only [hadd, gives_bind, gives_pure]
    exact ⟨m, [], hformals, m', [], hbody, by simp [Class.setMethod], rfl⟩

theorem quiet_declareMethod {c c' : Class} {d : MethodDecl} (h : Gives (declareMethod t c d) r c' []) :
    r = [] ∧ c'.name = c.name ∧ d.name.val ∉ c.methods.map (·.name) ∧
      ∃ m, c'.methods = c.methods ++ [m] ∧ m.name = d.name.val ∧
        Declared (d.procedure c.name).body m := by
  obtain ⟨hnew, ty, m, m', hty, hformals, hbody, rfl⟩ := gives_declareMethod.1 h
  obtain ⟨hdeclared, hname⟩ := declared_of_body (b := (d.procedure c.name).body) (Method.blank_new _ _ _)
    (accepts_formals d.formals hformals).2 hbody
  exact ⟨quiet_resolveType hty, rfl, hnew, m', rfl, hname, hdeclared⟩

theorem quiet_declareMethods (ds : List MethodDecl) {c c' : Class} {r : List Diagnostic}
    (h : Gives (ds.foldlM (declareMethod t) c) r c' []) :
    r = [] ∧ c'.name = c.name ∧ ∃ ms, c'.methods = c.methods ++ ms ∧
      Holds (ds.map (·.procedure c.name)) ms ∧
      ((c.methods.map (·.name)).Nodup → (c'.methods.map (·.name)).Nodup) := by
  induction ds generalizing c r with
  | nil =>
    obtain ⟨rfl, rfl⟩ := gives_pure.1 h
    exact ⟨rfl, rfl, [], by simp, .nil, id⟩
  | cons d rest ih =>
    rw [List.foldlM_cons] at h
    obtain ⟨c₁, r₁, hfirst, hrest⟩ := gives_bind.1 h
    obtain ⟨rfl, hname', ms, hmethods', hholds, hnodup⟩ := ih hrest
    obtain ⟨hr, hname, hnew, m, hmethods, hm, hdeclared⟩ := quiet_declareMethod hfirst
    rw [hname] at hname' hholds
    refine ⟨hr, hname', m :: ms, by simp [hmethods', hmethods], .cons ⟨hm, hdeclared⟩ hholds, fun h => hnodup ?_⟩
    rw [hmethods, List.map_append, List.nodup_append]
    refine ⟨h, by simp, ?_⟩
    rintro _ hx _ hy rfl
    rw [List.map_singleton, List.mem_singleton] at hy
    subst hy
    exact hnew (hm ▸ hx)

/-! ## Classes -/

/-- The entry of a class in the outline of a table holds the procedures `qs`. -/
structure EntryHolds (name : String) (qs : List Procedure) (entry : Outline) : Prop where
  name : entry.name = name
  holds : Holds qs entry.methods
  nodup : (entry.methods.map (·.name)).Nodup

theorem quiet_declareMembers {d : ClassDecl} {c c' : Class} (h : Gives (declareMembers t d c) r c' []) :
    r = [] ∧ (c.name = d.name.val → c.methods = [] →
      EntryHolds d.name.val d.procedures c'.outline) := by
  obtain ⟨c₁, r₁, hfields, hmethods⟩ := gives_bind.1 h
  obtain ⟨rfl, hname, ms, hms, hholds, hnodup⟩ := quiet_declareMethods d.methods hmethods
  obtain ⟨hr, hname₁, hmethods₁⟩ := quiet_declareFields d.fields hfields
  refine ⟨hr, fun hc hempty => ?_⟩
  rw [hmethods₁, hempty, List.nil_append] at hms
  rw [hname₁, hc] at hname hholds
  subst hms
  exact ⟨hname, hholds, hnodup (by simp [hmethods₁, hempty])⟩

theorem quiet_declareMain {d : MainClass} {c c' : Class} (h : Gives (declareMain t d c) r c' []) :
    r = [] ∧ (c.name = d.name.val → c.methods = [] →
      EntryHolds d.name.val [d.procedure] c'.outline) := by
  unfold declareMain at h
  dsimp only at h
  split at h
  next herror =>
    obtain ⟨rfl, rfl⟩ := gives_pure.1 h
    refine ⟨rfl, fun _ hempty => ?_⟩
    simp [Class.addMethod, Class.methodId?, hempty] at herror
  next id c₁ hadd =>
    obtain ⟨-, rfl, rfl⟩ := Class.addMethod_eq_ok.1 hadd
    simp only [gives_bind, gives_pure] at h
    obtain ⟨m, _, hbody, rfl, rfl⟩ := h
    obtain rfl := quiet_declareBody hbody
    refine ⟨rfl, fun hc hempty => ?_⟩
    obtain ⟨hdeclared, hname⟩ := declared_of_body (b := d.procedure.body) (Method.blank_new _ _ _)
      (.refl _) hbody
    refine ⟨hc, ?_, ?_⟩ <;> simp only [Class.setMethod, hempty, List.nil_append, List.length_nil,
      List.set_cons_zero]
    · exact .cons ⟨hname, hdeclared⟩ .nil
    · exact List.nodup_singleton _

theorem quiet_updateClass {id : ClassId} {change : Class → Reporting Class}
    (hquiet : ∀ {c c' r}, Gives (change c) r c' [] → r = []) (h : Gives (updateClass t id change) r t' []) :
    r = [] := by
  unfold updateClass at h
  split at h
  next => exact (gives_pure.1 h).2.symm
  next c hc =>
    simp only [gives_bind, gives_pure] at h
    obtain ⟨c', _, hchange, -, rfl⟩ := h
    exact hquiet hchange

theorem quiet_updateClasses (links : List (ClassId × ClassDecl)) {t t' : Table} {r : List Diagnostic}
    (h : Gives (links.foldlM (fun t (id, d) => updateClass t id (declareMembers t d)) t) r t' []) :
    r = [] := by
  induction links generalizing t r with
  | nil => exact (gives_pure.1 h).2.symm
  | cons link rest ih =>
    rw [List.foldlM_cons] at h
    obtain ⟨t₁, r₁, hfirst, hrest⟩ := gives_bind.1 h
    obtain rfl := ih hrest
    exact quiet_updateClass (fun h => (quiet_declareMembers h).1) hfirst

theorem class?_of_outline {id : ClassId} (before : List Outline) {after : List Outline} {entry : Outline}
    (hout : t.outline = before ++ entry :: after) (hid : id.index = before.length) :
    ∃ c, t.class? id = some c ∧ c.outline = entry := by
  have hentry : t.outline[id.index]? = some entry := by simp [hout, hid]
  simpa [Table.outline, Table.class?] using hentry

theorem gives_updateClass {id : ClassId} {change : Class → Reporting Class} (before : List Outline)
    {after : List Outline} {entry : Outline} (h : Gives (updateClass t id change) r t' [])
    (hout : t.outline = before ++ entry :: after) (hid : id.index = before.length) :
    ∃ c c', c.outline = entry ∧ Gives (change c) r c' [] ∧ t'.outline = before ++ c'.outline :: after := by
  obtain ⟨c, hclass, rfl⟩ := class?_of_outline before hout hid
  simp only [updateClass, hclass, gives_bind, gives_pure] at h
  obtain ⟨c', _, hchange, rfl, rfl⟩ := h
  refine ⟨c, c', rfl, hchange, ?_⟩
  have hset : (t.setClass id c').outline = t.outline.set id.index c'.outline := List.map_set
  simp [hset, hout, hid]

theorem updateClasses_holds (ds : List ClassDecl) {t t' : Table} (done : List Outline)
    (h : Gives ((withIds done.length ds).foldlM
      (fun t (id, d) => updateClass t id (declareMembers t d)) t) [] t' [])
    (hout : t.outline = done ++ ds.map fun d => { name := d.name.val }) :
    ∃ entries, t'.outline = done ++ entries ∧
      List.Forall₂ (fun d => EntryHolds d.name.val d.procedures) ds entries := by
  induction ds generalizing t done with
  | nil =>
    obtain ⟨rfl, -⟩ := gives_pure.1 h
    exact ⟨[], by simpa using hout, .nil⟩
  | cons d rest ih =>
    rw [withIds_cons, List.foldlM_cons] at h
    obtain ⟨t₁, r₁, hfirst, hrest⟩ := gives_bind.1 h
    obtain rfl := quiet_updateClasses _ hrest
    obtain ⟨c, c', hentry, hmembers, hout₁⟩ := gives_updateClass done hfirst hout rfl
    have hholds := (quiet_declareMembers hmembers).2 (congrArg Outline.name hentry) (congrArg Outline.methods hentry)
    obtain ⟨entries, hout', hentries⟩ := ih (done ++ [c'.outline]) (by simpa using hrest) (by simp [hout₁])
    exact ⟨_ :: entries, by simpa using hout', .cons hholds hentries⟩

theorem EntryHolds.map_name {sections : List (String × List Procedure)} {outline : List Outline}
    (h : List.Forall₂ (fun s => EntryHolds s.1 s.2) sections outline) :
    outline.map Outline.name = sections.map Prod.fst := by
  induction h with
  | nil => rfl
  | cons hfirst _ ih => rw [List.map_cons, List.map_cons, hfirst.name, ih]

/-! ## Programs -/

/-- The stages of the pass: the classes are declared, linked and filled, the main class first. -/
theorem gives_declareProgram {p : Program} : Gives (declareProgram p) r t [] ↔ r = [] ∧ p.classNames.Nodup ∧
    ∃ t₁ t₂, Gives ((withIds 1 p.classes).foldlM linkSuperclass p.blank) [] t₁ [] ∧
      Gives (updateClass t₁ ⟨0⟩ (declareMain t₁ p.main)) [] t₂ [] ∧
      Gives ((withIds 1 p.classes).foldlM (fun t (id, d) => updateClass t id (declareMembers t d)) t₂) [] t [] := by
  have hnodup : p.classNames.Nodup ↔ (p.classes.map (·.name.val)).Nodup ∧
      ∀ d ∈ p.classes, d.name.val ∉ (⟨[Class.blank p.main.name]⟩ : Table).classNames := by
    rw [Program.classNames, List.nodup_cons, and_comm]
    simp [Table.classNames, Class.blank]
  rw [hnodup]
  have hfirst : declareClass {} p.main.name = pure (some ⟨0⟩, ⟨[Class.blank p.main.name]⟩) := rfl
  simp only [declareProgram, hfirst, pure_bind, gives_bind, Prod.exists]
  constructor
  · rintro ⟨_, _, _, hclasses, t₁, _, hlinks, t₂, _, hmain, hmembers⟩
    obtain rfl := quiet_updateClasses _ hmembers
    obtain rfl := quiet_updateClass (fun h => (quiet_declareMain h).1) hmain
    obtain ⟨rfl, -⟩ := quiet_linkSuperclasses _ hlinks
    obtain ⟨hnames, rfl, rfl, rfl⟩ := (gives_declareClasses _).1 hclasses
    exact ⟨rfl, hnames, t₁, t₂, hlinks, hmain, hmembers⟩
  · rintro ⟨rfl, hnames, t₁, t₂, hlinks, hmain, hmembers⟩
    exact ⟨_, _, _, (gives_declareClasses _).2 ⟨hnames, rfl, rfl, rfl⟩, t₁, [], hlinks, t₂, [], hmain, hmembers⟩

theorem outline_blank (p : Program) :
    p.blank.outline = { name := p.main.name.val } :: p.classes.map fun d => { name := d.name.val } := by
  simp [Program.blank, Table.outline, Class.outline, Class.blank]

/-- The outline of a program: the main class, then the others. -/
structure OutlineHolds (p : Program) (outline : List Outline) : Prop where
  nodup : (outline.map Outline.name).Nodup
  entries : List.Forall₂ (fun s => EntryHolds s.1 s.2) p.sections outline

theorem quiet_declareProgram {p : Program} (h : Gives (declareProgram p) r t []) :
    OutlineHolds p t.outline := by
  obtain ⟨-, hnodup, t₁, t₂, hlinks, hmain, hmembers⟩ := gives_declareProgram.1 h
  obtain ⟨-, hout₁⟩ := quiet_linkSuperclasses _ hlinks
  rw [outline_blank] at hout₁
  obtain ⟨c, c', hentry, hdeclareMain, hout₂⟩ := gives_updateClass [] hmain hout₁ rfl
  have hholds := (quiet_declareMain hdeclareMain).2 (congrArg Outline.name hentry) (congrArg Outline.methods hentry)
  obtain ⟨entries, hout, hentries⟩ := updateClasses_holds p.classes [c'.outline] hmembers hout₂
  have hsections : List.Forall₂ (fun s => EntryHolds s.1 s.2) p.sections t.outline := by
    rw [hout]
    exact .cons hholds (List.forall₂_map_left_iff.2 hentries)
  refine ⟨?_, hsections⟩
  rw [EntryHolds.map_name hsections]
  simpa [Program.sections, Program.classNames, Function.comp_def] using hnodup

end Reporting

/-! ## Procedures and their methods -/

section

variable {p : Program} {q : Procedure}

theorem Source.Program.procedures_eq (p : Program) : p.procedures = p.sections.flatMap Prod.snd := by
  simp [Program.procedures, Program.sections, List.flatMap_map]

theorem Source.Program.cls_of_mem_sections {s : String × List Procedure} (hs : s ∈ p.sections)
    (hq : q ∈ s.2) : q.cls = s.1 := by
  rcases List.mem_cons.1 hs with rfl | hs
  · rw [List.mem_singleton.1 hq]
    rfl
  · obtain ⟨d, -, rfl⟩ := List.mem_map.1 hs
    obtain ⟨m, -, rfl⟩ := List.mem_map.1 hq
    rfl

open Reporting

theorem Reporting.Holds.map_name {qs : List Procedure} {ms : List Method} (h : Holds qs ms) :
    ms.map (·.name) = qs.map (·.name) := by
  induction h with
  | nil => rfl
  | cons hfirst _ ih => rw [List.map_cons, List.map_cons, hfirst.1, ih]

theorem Reporting.OutlineHolds.nodup_keys {outline : List Outline} (h : OutlineHolds p outline) :
    (p.procedures.map Procedure.key).Nodup := by
  rw [p.procedures_eq, List.map_flatMap, List.nodup_flatMap]
  have hnames : (p.sections.map Prod.fst).Nodup := EntryHolds.map_name h.entries ▸ h.nodup
  refine ⟨fun s hs => ?_, ?_⟩
  · obtain ⟨entry, -, hentry⟩ := exists_of_forall₂ h.entries hs
    have hnodup := hentry.nodup
    rw [hentry.holds.map_name] at hnodup
    exact List.Nodup.of_map Prod.snd (by simpa [Procedure.key, Function.comp_def] using hnodup)
  · refine (List.pairwise_map.1 hnames).imp_of_mem fun {s s'} hs hs' hne key hkey hkey' => hne ?_
    obtain ⟨q, hq, rfl⟩ := List.mem_map.1 hkey
    obtain ⟨q', hq', hsame⟩ := List.mem_map.1 hkey'
    rw [← Program.cls_of_mem_sections hs hq, ← Program.cls_of_mem_sections hs' hq']
    exact (congrArg Prod.fst hsame).symm

theorem Reporting.OutlineHolds.declared {t : Table} (h : OutlineHolds p t.outline) (hq : q ∈ p.procedures) :
    ∃ m, t.method? q.cls q.name = some m ∧ Declared q.body m := by
  rw [p.procedures_eq, List.mem_flatMap] at hq
  obtain ⟨s, hs, hq⟩ := hq
  obtain ⟨entry, hmem, hentry⟩ := exists_of_forall₂ h.entries hs
  obtain ⟨m, hm, hname, hdeclared⟩ := exists_of_forall₂ hentry.holds hq
  obtain ⟨c, hc, rfl⟩ := List.mem_map.1 hmem
  have hclasses : (t.classes.map (·.name)).Nodup := by
    rw [← Table.classNames, ← Table.map_name_outline]
    exact h.nodup
  have hfound := Table.method?_of_mem hc hm hclasses hentry.nodup
  have hcls : c.name = q.cls := hentry.name.trans (Program.cls_of_mem_sections hs hq).symm
  rw [hcls, hname] at hfound
  exact ⟨m, hfound, hdeclared⟩

end

theorem declare_outline {p : Program} (h : (declare p).2 = []) :
    Reporting.OutlineHolds p (declare p).1.outline := by
  have hgives : Gives (Reporting.declareProgram p) [] (declare p).1 [] := Prod.ext rfl h
  exact Reporting.quiet_declareProgram hgives

end Lowering
