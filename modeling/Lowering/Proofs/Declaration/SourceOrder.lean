import Lowering.Proofs.Inheritance
import Lowering.Proofs.Source.Accepted

/-!
# Numbers in source order

Whatever is wrong with a program, the declaration pass leaves each block that it enters, and it numbers
blocks and variables in the order of a walk over the declarations that it accepts.
-/

namespace Lowering

open Lowering.Source (Located TypeExpr VarDecl Stmt MethodDecl ClassDecl MainClass Program firstNamed)

namespace Reporting

/-! ## Work that settles -/

section

variable {α β σ δ : Type} {P P' : α → Prop} {Q : β → Prop}

/-- The work ends with one of these, and what it reports is no fault of the pass itself. -/
structure Settles (x : Reporting α) (P : α → Prop) : Prop where
  always : Always x P
  leaves : Leaves .internal x

theorem settles_pure {a : α} (h : P a) : Settles (pure a) P := ⟨always_pure h, leaves_pure⟩

theorem settles_report {kind : Diagnostic.Kind} {site : Source.Site} {args : List String} {a : α}
    (hkind : kind ≠ .internal) (h : P a) : Settles (do report kind site args; return a) P :=
  ⟨always_bind fun _ => always_pure h, leaves_report_pure hkind⟩

namespace Settles

theorem bind {x : Reporting α} {f : α → Reporting β} (hx : Settles x P) (hf : ∀ a, P a → Settles (f a) Q) :
    Settles (x >>= f) Q where
  always := hx.always.bind fun a ha => (hf a ha).always
  leaves reports := ((hf _ (hx.always reports)).leaves _).trans (hx.leaves reports)

theorem imp {x : Reporting α} (h : Settles x P) (himp : ∀ a, P a → P' a) : Settles x P' where
  always reports := himp _ (h.always reports)
  leaves := h.leaves

end Settles

theorem settles_foldlM {step : α → δ → Reporting α} (hstep : ∀ a, P a → ∀ d, Settles (step a d) P) {a : α} (ha : P a)
    (ds : List δ) : Settles (ds.foldlM step a) P := by
  induction ds generalizing a with
  | nil => exact settles_pure ha
  | cons d rest ih => exact (hstep a ha d).bind fun a ha => ih ha

/-! ## Names that are taken or passed over -/

/-- A step passes over a declaration whose name is taken and takes the name of any other. `Adds s s' ds` says
that `s'` is `s` with the declarations `ds`. -/
structure Sifts (step : σ → δ → Reporting σ) (fits : σ → Prop) (taken : σ → List String) (name : δ → String)
    (Adds : σ → σ → List δ → Prop) : Prop where
  refl : ∀ s, Adds s s []
  trans : ∀ {s s' s'' ds es}, Adds s s' ds → Adds s' s'' es → Adds s s'' (ds ++ es)
  passes : ∀ {s d}, fits s → name d ∈ taken s → Settles (step s d) (· = s)
  takes : ∀ {s d}, fits s → name d ∉ taken s → Settles (step s d) fun s' =>
    fits s' ∧ (∀ x, x ∈ taken s' ↔ x = name d ∨ x ∈ taken s) ∧ Adds s s' [d]

namespace Sifts

variable {step : σ → δ → Reporting σ} {fits : σ → Prop} {taken : σ → List String} {name : δ → String}
  {Adds : σ → σ → List δ → Prop}

theorem foldlM (h : Sifts step fits taken name Adds) (ds : List δ) {s : σ} (hs : fits s) :
    Settles (ds.foldlM step s) fun s' => Adds s s' ((firstNamed name ds).filter (name · ∉ taken s)) := by
  induction ds generalizing s with
  | nil => exact settles_pure (h.refl s)
  | cons d rest ih =>
    rw [List.foldlM_cons]
    by_cases hd : name d ∈ taken s
    · rw [Source.filter_firstNamed_of_mem rest hd]
      apply (h.passes hs hd).bind
      rintro s' rfl
      exact ih hs
    · apply (h.takes hs hd).bind
      rintro s' ⟨hs', htaken, hfirst⟩
      rw [Source.filter_firstNamed_of_notMem rest hd htaken]
      exact (ih hs').imp fun s'' hrest => h.trans hfirst hrest

theorem foldlM_of_nil (h : Sifts step fits taken name Adds) (ds : List δ) {s : σ} (hs : fits s)
    (hnone : taken s = []) : Settles (ds.foldlM step s) fun s' => Adds s s' (firstNamed name ds) := by
  have hall := h.foldlM ds hs
  simpa [hnone] using hall

end Sifts

end

variable {t : Table} {m : Method} {c : Class}

theorem settles_resolveType (type : Located TypeExpr) : Settles (resolveType t type) fun _ => True :=
  ⟨fun _ => trivial, leaves_resolveType (by decide) type⟩

theorem settles_settle {α : Type} {site : Source.Site} {x : Except ScopeError α × Method} {a : α} {m' : Method}
    {P : Method → Prop} (hx : x = (.ok a, m')) (hP : P m') : Settles (settle site x) P := by
  rw [hx]
  exact settles_pure hP

/-! ## Locals -/

theorem sifts_declareLocal (b : Block) (outer : List Block) :
    Sifts (declareLocal t) (fun m => m.blocks = b :: outer) Method.namesHere (·.name.val)
      (fun m m' ds => Declares m m' (slotsOf (some b) m.nextIndex.next ds) 0) where
  refl m := .refl m
  trans := Declares.more
  passes {m d} hblocks hd := by
    have hhere : m.isDeclaredHere d.name.val = true := by
      rw [← Bool.not_eq_false, Method.isDeclaredHere_eq_false (by simp [hblocks]), not_not]
      exact hd
    apply (settles_resolveType d.type).bind
    intro ty _
    rw [if_pos hhere]
    exact settles_report (by decide) rfl
  takes {m d} hblocks hd := by
    have hhere := (Method.isDeclaredHere_eq_false (by simp [hblocks])).2 hd
    apply (settles_resolveType d.type).bind
    intro ty _
    rw [if_neg (by simp [hhere])]
    have hadd : m.addLocal d.name.val ty d.name.site = (.ok _, _) :=
      Method.addLocal_eq_ok.2 ⟨b, outer, hblocks, rfl, rfl⟩
    refine settles_settle hadd ⟨hblocks, ?_, declares_addLocal hhere hadd hblocks⟩
    simp [Method.namesHere, Method.currentBlock?, hblocks]

/-! ## Statements -/

theorem settles_inBlock {contents : Method → Reporting Method} {slots : List Slot} {k : Nat}
    (hcontents : Settles (contents m.enter.2) fun m₁ => Declares m.enter.2 m₁ slots k) :
    Settles (inBlock m contents) fun m' =>
      ∃ m₁ left, Declares m.enter.2 m₁ slots k ∧ m₁.leave = (.ok left, m') := by
  apply hcontents.bind
  intro m₁ hdeclares
  have hopen : m₁.blocks = ⟨m.nextBlock.next⟩ :: m.blocks := hdeclares.blocks_eq
  have hleave := Method.leave_eq_ok.2 ⟨_, hopen, rfl⟩
  exact settles_settle hleave ⟨m₁, _, hdeclares, hleave⟩

/-- The statements declare the slots of a walk over what is accepted of them. -/
def SettlesAll (t : Table) (stmts : List Stmt) : Prop :=
  ∀ ⦃m : Method⦄, m.blocks ≠ [] → m.Behind → Settles (declareStmts t stmts m) fun m' =>
    Declares m m' (Stmt.slotsAll (Stmt.acceptedAll stmts) m.nextBlock.next m.nextIndex.next)
      (Stmt.blockCountAll (Stmt.acceptedAll stmts))

/-- A block that is entered has no locals yet, so those that it declares are told apart by their names alone. -/
theorem settles_contents {locals : List VarDecl} {body : List Stmt} (hbody : SettlesAll t body) (hm : m.Behind) :
    Settles (do
      let m ← locals.foldlM (declareLocal t) m.enter.2
      declareStmts t body m) fun m₁ => Declares m.enter.2 m₁
        (slotsOf (some ⟨m.nextBlock.next⟩) m.enter.2.nextIndex.next (firstNamed (·.name.val) locals) ++
          Stmt.slotsAll (Stmt.acceptedAll body) m.enter.2.nextBlock.next
            (m.enter.2.nextIndex.next + (firstNamed (·.name.val) locals).length))
        (Stmt.blockCountAll (Stmt.acceptedAll body)) := by
  have hentered : m.enter.2.blocks = ⟨m.nextBlock.next⟩ :: m.blocks := rfl
  apply ((sifts_declareLocal _ _).foldlM_of_nil locals hentered hm.namesHere_enter).bind
  intro m₁ hlocals
  have hbehind : m₁.Behind := by
    apply hm.enter.declares (j := 0) hlocals
    intro s hs
    exact ⟨_, block_of_mem_slotsOf hs, Nat.zero_le _, Nat.lt_succ_self _⟩
  apply (hbody (by simp [hlocals.blocks_eq, hentered]) hbehind).imp
  intro m₂ hstmts
  have hall := hlocals.trans hstmts
  rwa [hlocals.next, hlocals.index, length_slotsOf, Nat.add_zero, Nat.zero_add] at hall

mutual
theorem settles_stmt (st : Stmt) {m : Method} (hblocks : m.blocks ≠ []) (hm : m.Behind) :
    Settles (declareStmt t st m) fun m' =>
      Declares m m' (st.accepted.slots m.nextBlock.next m.nextIndex.next) st.accepted.blockCount := by
  cases st with
  | block site locals body =>
    rw [declareStmt]
    apply (settles_inBlock (settles_contents (fun _ => settles_stmts body) hm)).imp
    rintro m' ⟨m₁, left, hdeclares, hleave⟩
    exact hdeclares.leave hblocks hleave
  | ifThen site cond body => exact settles_stmt body hblocks hm
  | «while» site cond body => exact settles_stmt body hblocks hm
  | ifElse site cond body otherwise =>
    rw [declareStmt]
    apply (settles_stmt body hblocks hm).bind
    intro m₁ hbody
    have hbehind := hm.declares hbody fun s hs => body.accepted.inBlocks_slots hs
    apply (settles_stmt otherwise (by rwa [hbody.blocks_eq]) hbehind).imp
    intro m₂ hotherwise
    have hall := hbody.trans hotherwise
    rwa [hbody.next, hbody.index, body.accepted.length_slots] at hall
  | println _ _ | assign _ _ _ | assignAt _ _ _ _ => exact settles_pure (.refl m)

theorem settles_stmts (stmts : List Stmt) {m : Method} (hblocks : m.blocks ≠ []) (hm : m.Behind) :
    Settles (declareStmts t stmts m) fun m' =>
      Declares m m' (Stmt.slotsAll (Stmt.acceptedAll stmts) m.nextBlock.next m.nextIndex.next)
        (Stmt.blockCountAll (Stmt.acceptedAll stmts)) := by
  cases stmts with
  | nil => exact settles_pure (.refl m)
  | cons st rest =>
    rw [declareStmts]
    apply (settles_stmt st hblocks hm).bind
    intro m₁ hfirst
    have hbehind := hm.declares hfirst fun s hs => st.accepted.inBlocks_slots hs
    apply (settles_stmts rest (by rwa [hfirst.blocks_eq]) hbehind).imp
    intro m₂ hrest
    have hall := hfirst.trans hrest
    rwa [hfirst.next, hfirst.index, st.accepted.length_slots] at hall
end

/-! ## Methods -/

theorem sifts_declareFormal : Sifts (declareFormal t) (fun m => m.blocks = []) (·.parameters.map (·.name))
    (·.name.val) Accepts where
  refl m := .refl m
  trans := Accepts.trans
  passes {m d} hblocks hd := by
    have hsome : (m.parameter? d.name.val).isSome = true := by simpa [Method.parameter?] using hd
    apply (settles_resolveType d.type).bind
    intro ty _
    rw [if_pos hsome]
    exact settles_report (by decide) rfl
  takes {m d} hblocks hd := by
    have hnone : (m.parameter? d.name.val).isSome = false := by simpa [Method.parameter?] using hd
    apply (settles_resolveType d.type).bind
    intro ty _
    rw [if_neg (by simp [hnone])]
    have hadd : m.addParameter d.name.val ty d.name.site = (.ok _, _) :=
      Method.addParameter_eq_ok.2 ⟨hblocks, rfl, rfl⟩
    refine settles_settle hadd ⟨hblocks, ?_, accepts_addParameter hnone hadd⟩
    simp [or_comm]

theorem settles_procedure {m₀ : Method} (q : Procedure) (hm₀ : m₀.Blank) :
    Settles (do
      let m ← q.body.formals.foldlM (declareFormal t) m₀
      declareBody t q.body.locals q.body.stmts m) fun m' => m'.name = m₀.name ∧ Declared q.accepted.body m' := by
  apply (sifts_declareFormal.foldlM_of_nil q.body.formals hm₀.blocks (by simp [hm₀.parameters])).bind
  intro m hformals
  have hm : m.Behind := .of_no_locals (by rw [hformals.same, hm₀.locals])
  apply (settles_inBlock (settles_contents (fun _ => settles_stmts q.body.stmts) hm)).imp
  rintro m' ⟨m₁, left, hdeclares, hleave⟩
  exact (declared_of_leave (b := q.accepted.body) hm₀ hformals hdeclares hleave).symm

/-! ## Classes -/

end Reporting

theorem Class.setMethod_added (c : Class) (m m' : Method) :
    Class.setMethod { c with methods := c.methods ++ [m] } ⟨c.methods.length⟩ m' =
      { c with methods := c.methods ++ [m'] } := by
  simp [Class.setMethod]

namespace Reporting

variable {t : Table} {c : Class}

/-- `c'` is `c` with the methods of these declarations. -/
def Gains (c c' : Class) (ds : List MethodDecl) : Prop :=
  c'.name = c.name ∧ ∃ ms, c'.methods = c.methods ++ ms ∧ Holds (ds.map fun d => (d.procedure c.name).accepted) ms

theorem Gains.trans {c c' c'' : Class} {ds es : List MethodDecl} (h : Gains c c' ds) (h' : Gains c' c'' es) :
    Gains c c'' (ds ++ es) := by
  obtain ⟨hname, ms, hmethods, hholds⟩ := h
  obtain ⟨hname', ms', hmethods', hholds'⟩ := h'
  refine ⟨hname'.trans hname, ms ++ ms', ?_, ?_⟩
  · rw [hmethods', hmethods, List.append_assoc]
  · rw [hname] at hholds'
    rw [List.map_append]
    exact List.rel_append hholds hholds'

theorem sifts_declareMethod : Sifts (declareMethod t) (fun _ => True) (·.methods.map (·.name)) (·.name.val) Gains where
  refl c := ⟨rfl, [], by simp, .nil⟩
  trans := Gains.trans
  passes {c d} _ hd := by
    apply (settles_resolveType d.returns).bind
    intro ty _
    dsimp only
    split
    next => exact settles_report (by decide) rfl
    next hadd => exact absurd hd (Class.addMethod_eq_ok.1 hadd).1
  takes {c d} _ hd := by
    apply (settles_resolveType d.returns).bind
    intro ty _
    have hadd := (@Class.addMethod_eq_ok c _ { name := d.name.val, returns := some ty, site := d.name.site } _).2
      ⟨hd, rfl, rfl⟩
    simp only [hadd]
    rw [← bind_assoc]
    apply (settles_procedure (d.procedure c.name) (Method.blank_new _ _ _)).bind
    rintro m ⟨hname, hdeclared⟩
    rw [Class.setMethod_added]
    refine settles_pure ⟨trivial, fun x => ?_, rfl, [m], rfl, .cons ⟨hname, hdeclared⟩ .nil⟩
    rw [List.map_append, List.map_singleton, hname, List.mem_append, List.mem_singleton, or_comm]

theorem settles_declareFields (ds : List VarDecl) (c : Class) :
    Settles (ds.foldlM (declareField t) c) fun c' => c'.name = c.name ∧ c'.methods = c.methods := by
  refine settles_foldlM (fun c' hc' d => ?_) ⟨rfl, rfl⟩ ds
  apply (settles_resolveType d.type).bind
  intro ty _
  unfold Class.addField
  cases c'.field? d.name.val with
  | some f => exact settles_report (by decide) hc'
  | none => exact settles_pure hc'

theorem settles_declareMembers {d : ClassDecl} (hname : c.name = d.name.val) (hmethods : c.methods = []) :
    Settles (declareMembers t d c) fun c' => EntryHolds d.name.val d.accepted c'.outline := by
  apply (settles_declareFields d.fields c).bind
  rintro c₁ ⟨hname₁, hmethods₁⟩
  apply (sifts_declareMethod.foldlM_of_nil d.methods trivial (by simp [hmethods₁, hmethods])).imp
  rintro c' ⟨hname', ms, hms, hholds⟩
  rw [hmethods₁, hmethods, List.nil_append] at hms
  rw [hname₁, hname] at hname' hholds
  subst hms
  refine ⟨hname', hholds, ?_⟩
  change (c'.methods.map (·.name)).Nodup
  rw [hholds.map_name, List.map_map]
  exact Source.nodup_firstNamed (·.name.val) d.methods

theorem settles_declareMain {d : MainClass} (hname : c.name = d.name.val) (hmethods : c.methods = []) :
    Settles (declareMain t d c) fun c' => EntryHolds d.name.val [d.procedure.accepted] c'.outline := by
  have hadd := (@Class.addMethod_eq_ok c _ { name := d.method.val, returns := none, site := d.method.site } _).2
    ⟨by simp [hmethods], rfl, rfl⟩
  unfold declareMain
  simp only [hadd]
  apply (settles_procedure d.procedure (Method.blank_new _ _ _)).bind
  rintro m ⟨hm, hdeclared⟩
  rw [Class.setMethod_added]
  apply settles_pure
  refine ⟨hname, ?_, ?_⟩ <;> simp only [Class.outline, hmethods, List.nil_append]
  · exact .cons ⟨hm, hdeclared⟩ .nil
  · exact List.nodup_singleton _

/-! ## Tables -/

theorem settles_linkSuperclass {out : List Outline} (ht : t.outline = out) (entry : ClassId × ClassDecl) :
    Settles (linkSuperclass t entry) fun t' => t'.outline = out := by
  obtain ⟨id, d⟩ := entry
  rw [linkSuperclass]
  cases d.extends? with
  | none => exact settles_pure ht
  | some parent =>
    dsimp only
    split
    next => exact settles_report (by decide) ht
    next superclass _ =>
      split
      · exact settles_report (by decide) ht
      · exact settles_pure ((t.outline_setSuperclass _ _).trans ht)

theorem settles_updateClass {id : ClassId} {change : Class → Reporting Class} {P : Outline → Prop}
    (before : List Outline) {after : List Outline} {entry : Outline} (hout : t.outline = before ++ entry :: after)
    (hid : id.index = before.length) (hchange : ∀ c, c.outline = entry → Settles (change c) fun c' => P c'.outline) :
    Settles (updateClass t id change) fun t' => ∃ entry', P entry' ∧ t'.outline = before ++ entry' :: after := by
  obtain ⟨c, hclass, hentry⟩ := class?_of_outline before hout hid
  simp only [updateClass, hclass]
  apply (hchange c hentry).bind
  intro c' hc'
  have hset : (t.setClass id c').outline = t.outline.set id.index c'.outline := List.map_set
  exact settles_pure ⟨c'.outline, hc', by simp [hset, hout, hid]⟩

theorem settles_fillClasses (ds : List ClassDecl) {t : Table} (done : List Outline)
    (hout : t.outline = done ++ ds.map fun d => { name := d.name.val }) :
    Settles ((withIds done.length ds).foldlM (fun t (id, d) => updateClass t id (declareMembers t d)) t) fun t' =>
      ∃ entries, t'.outline = done ++ entries ∧
        List.Forall₂ (fun d => EntryHolds d.name.val d.accepted) ds entries := by
  induction ds generalizing t done with
  | nil => exact settles_pure ⟨[], by simpa using hout, .nil⟩
  | cons d rest ih =>
    rw [withIds_cons, List.foldlM_cons]
    refine (settles_updateClass done hout rfl fun c hentry => settles_declareMembers
      (congrArg Outline.name hentry) (congrArg Outline.methods hentry)).bind ?_
    rintro t₁ ⟨entry, hentry, hout₁⟩
    have hrest := ih (done ++ [entry]) (by simpa using hout₁)
    rw [List.length_append, List.length_singleton] at hrest
    apply hrest.imp
    rintro t' ⟨entries, hout', hentries⟩
    exact ⟨entry :: entries, by simpa using hout', .cons hentry hentries⟩

theorem settles_declareProgram (p : Program) : Settles (declareProgram p) fun t =>
    List.Forall₂ (fun s => EntryHolds s.1 s.2) p.accepted t.outline := by
  have hmain : Settles (declareClass {} p.main.name) (· = (some ⟨0⟩, ⟨[Class.blank p.main.name]⟩)) :=
    ⟨always_declareClass_eq _ _, leaves_declareClass (by decide) _ _⟩
  have hseen : ∀ x, x ∈ (⟨[Class.blank p.main.name]⟩ : Table).classNames ↔ x ∈ [p.main.name.val] := fun _ => Iff.rfl
  have hclasses : Settles (declareClasses p.classes ⟨[Class.blank p.main.name]⟩)
      (· = (withIds 1 p.firsts, p.distinct.blank)) :=
    ⟨always_declareClasses_eq p.classes hseen, leaves_declareClasses (by decide) _ _⟩
  apply hmain.bind
  rintro _ rfl
  apply hclasses.bind
  rintro _ rfl
  apply (settles_foldlM (fun _ => settles_linkSuperclass) rfl _).bind
  intro t₁ hout₁
  rw [outline_blank] at hout₁
  refine (settles_updateClass [] hout₁ rfl fun c hentry => settles_declareMain
    (congrArg Outline.name hentry) (congrArg Outline.methods hentry)).bind ?_
  rintro t₂ ⟨entry, hentry, hout₂⟩
  apply (settles_fillClasses p.firsts [entry] hout₂).imp
  rintro t ⟨entries, hout, hentries⟩
  rw [hout]
  exact .cons hentry (List.forall₂_map_left_iff.2 hentries)

end Reporting

/-! ## The whole pass -/

theorem Lower.Body.map_index_localSlots (b : Lower.Body) :
    b.localSlots.map Slot.index = List.range' (b.formals.length + 1) b.localSlots.length := by
  have hanywhere : b.localSlots.map Slot.anywhere =
      slotsOf none (b.formals.length + 1) (b.locals ++ Stmt.declarationsAll b.stmts) := by
    rw [localSlots, List.map_append, map_anywhere_slotsOf, Stmt.map_anywhere_slotsAll, ← slotsOf_append]
  have hindex := congrArg (List.map Slot.index) hanywhere
  have hlength := congrArg List.length hanywhere
  rw [List.length_map, length_slotsOf] at hlength
  rw [map_index_slotsOf, List.map_map, ← hlength] at hindex
  exact hindex

namespace Declared

variable {b : Lower.Body} {m : Method}

theorem locals_reverse (h : Declared b m) : m.locals.reverse.map Variable.slot = b.localSlots := by
  rw [List.map_reverse, h.locals, List.reverse_reverse]

theorem indices (h : Declared b m) : m.parameters.map (·.index) = List.range' 1 m.parameters.length ∧
    m.locals.reverse.map (·.index) = List.range' (m.parameters.length + 1) m.locals.length := by
  have hparameters := congrArg List.length h.parameters
  have hlocals := congrArg List.length h.locals
  simp only [List.length_map, length_slotsOf, List.length_reverse] at hparameters hlocals
  have hfirst := congrArg (List.map Slot.index) h.parameters
  have hsecond := congrArg (List.map Slot.index) h.locals_reverse
  rw [map_index_slotsOf, List.map_map, ← hparameters] at hfirst
  rw [b.map_index_localSlots, List.map_map, ← hparameters, ← hlocals] at hsecond
  exact ⟨hfirst, hsecond⟩

end Declared

open Reporting

/-- Whatever program is declared, no block stays open and no variable has storage. The accepted formals of a
method are numbered from 1 on and its accepted locals after them, in the order of a walk over the body that also
numbers the blocks. -/
theorem declare_in_source_order (p : Program) :
    (∀ d ∈ (declare p).2, d.kind ≠ .internal) ∧
    ((declare p).1.All fun m =>
      m.blocks = [] ∧ m.nextBlock.next = 0 ∧ ∀ v ∈ m.parameters ++ m.locals, v.access = none) ∧
    List.Forall₂ (fun s c => c.name = s.1 ∧ List.Forall₂ (fun q m => m.name = q.name ∧
        (m.parameters.map Variable.slot = slotsOf none 1 q.body.formals ∧
          m.locals.reverse.map Variable.slot = q.body.localSlots) ∧
        m.parameters.map (·.index) = List.range' 1 m.parameters.length ∧
        m.locals.reverse.map (·.index) = List.range' (m.parameters.length + 1) m.locals.length) s.2 c.methods)
      p.accepted (declare p).1.classes := by
  have hpass := settles_declareProgram p
  have hentries : List.Forall₂ (fun s c => EntryHolds s.1 s.2 (Class.outline c)) p.accepted (declare p).1.classes :=
    List.forall₂_map_right_iff.1 (hpass.always [])
  refine ⟨fun d hd hkind => ?_, fun c hc m hm => ?_, hentries.imp fun s c hentry => ?_⟩
  · have hnone := (hpass.leaves.mem_iff (show Gives (declareProgram p) [] _ (declare p).2 from rfl) hkind).1 hd
    exact List.not_mem_nil hnone
  · obtain ⟨s, -, hentry⟩ := exists_of_forall₂ hentries.flip hc
    obtain ⟨q, -, -, hdeclared⟩ := exists_of_forall₂ hentry.holds.flip hm
    rw [hdeclared.nextBlock]
    exact ⟨hdeclared.blocks, rfl, (declare_made p c hc m hm).numbered.unbound⟩
  · refine ⟨hentry.name, hentry.holds.imp ?_⟩
    rintro q m ⟨hname, hdeclared⟩
    exact ⟨hname, ⟨hdeclared.parameters, hdeclared.locals_reverse⟩, hdeclared.indices⟩

end Lowering
