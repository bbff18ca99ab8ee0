import Lowering.Proofs.Scope.Program

/-!
# Declarations that bring no report

For each step of the declaration pass, what its source must keep to so that nothing is reported. The
other steps of the pass do not matter: they leave the names of classes, and a block that is entered has
no locals yet.
-/

namespace Lowering

open Lowering.Source (VarDecl Stmt Located TypeExpr MethodDecl ClassDecl MainClass Proper)

namespace Reporting

variable {α β σ δ : Type} {t : Table}

/-- The work reports nothing. -/
def Quiet (x : Reporting α) : Prop := ∃ a, Gives x [] a []

theorem quiet_pure (a : α) : Quiet (pure a : Reporting α) := ⟨a, rfl⟩

theorem not_quiet_report {kind : Diagnostic.Kind} {site : Source.Site} {args : List String} {a : α} :
    ¬ Quiet (do report kind site args; return a) := fun ⟨_, h⟩ => not_gives_report_pure h

theorem Quiet.bind {x : Reporting α} {f : α → Reporting β} {a : α} (ha : Gives x [] a []) (hf : Quiet (f a)) :
    Quiet (x >>= f) := by
  obtain ⟨b, hb⟩ := hf
  exact ⟨b, gives_bind.2 ⟨a, [], ha, hb⟩⟩

/-- No report is taken back, so both parts of the work report nothing. -/
theorem quiet_bind {x : Reporting α} {f : α → Reporting β} (hf : ∀ {a b r}, Gives (f a) r b [] → r = []) :
    Quiet (x >>= f) ↔ ∃ a, Gives x [] a [] ∧ Quiet (f a) := by
  constructor
  · rintro ⟨b, h⟩
    obtain ⟨a, r, ha, hb⟩ := gives_bind.1 h
    obtain rfl := hf hb
    exact ⟨a, ha, b, hb⟩
  · rintro ⟨a, ha, hfa⟩
    exact .bind ha hfa

theorem quiet_bind_and {x : Reporting α} {f : α → Reporting β} {P : Prop}
    (hf : ∀ {a b r}, Gives (f a) r b [] → r = []) (hP : ∀ a, Gives x [] a [] → (Quiet (f a) ↔ P)) :
    Quiet (x >>= f) ↔ Quiet x ∧ P := by
  rw [quiet_bind hf]
  constructor
  · rintro ⟨a, ha, hfa⟩
    exact ⟨⟨a, ha⟩, (hP a ha).1 hfa⟩
  · rintro ⟨⟨a, ha⟩, h⟩
    exact ⟨a, ha, (hP a ha).2 h⟩

/-! ## Names that are taken one after the other -/

/-- A step takes the name of its declaration, and reports it if the name is taken already or if the
declaration itself is not `fine`. -/
structure Takes (step : σ → δ → Reporting σ) (fits : σ → Prop) (taken : σ → List String) (name : δ → String)
    (fine : δ → Prop) : Prop where
  quiet : ∀ {s d s' r}, Gives (step s d) r s' [] → r = []
  accepts : ∀ {s d}, fits s → (Quiet (step s d) ↔ fine d ∧ name d ∉ taken s)
  next : ∀ {s d s'}, fits s → Gives (step s d) [] s' [] → fits s' ∧ (taken s').Perm (name d :: taken s)

namespace Takes

variable {step : σ → δ → Reporting σ} {fits : σ → Prop} {taken : σ → List String} {name : δ → String}
  {fine : δ → Prop}

theorem quiet_foldlM (h : Takes step fits taken name fine) (ds : List δ) {s s' : σ} {r : List Diagnostic}
    (hgives : Gives (ds.foldlM step s) r s' []) : r = [] := by
  induction ds generalizing s r with
  | nil => exact (gives_pure.1 hgives).2.symm
  | cons d rest ih =>
    rw [List.foldlM_cons] at hgives
    obtain ⟨s₁, r₁, hfirst, hrest⟩ := gives_bind.1 hgives
    obtain rfl := ih hrest
    exact h.quiet hfirst

theorem foldlM (h : Takes step fits taken name fine) (ds : List δ) {s : σ} (hs : fits s) :
    Quiet (ds.foldlM step s) ↔ (∀ d ∈ ds, fine d) ∧ (ds.map name).Nodup ∧ ∀ d ∈ ds, name d ∉ taken s := by
  induction ds generalizing s with
  | nil => simp [quiet_pure]
  | cons d rest ih =>
    -- When `rest` has its turn the name of `d` is taken as well.
    have hrest : ∀ s', Gives (step s d) [] s' [] → (Quiet (rest.foldlM step s') ↔
        (∀ d ∈ rest, fine d) ∧ (rest.map name).Nodup ∧ ∀ d' ∈ rest, name d' ≠ name d ∧ name d' ∉ taken s) := by
      intro s' hgives
      obtain ⟨hs', htaken⟩ := h.next hs hgives
      simp only [ih hs', htaken.mem_iff, List.mem_cons, not_or]
    rw [List.foldlM_cons, quiet_bind_and (h.quiet_foldlM rest) hrest, h.accepts hs]
    simp only [List.mem_cons, forall_eq_or_imp, List.map_cons, List.nodup_cons, List.mem_map, not_exists, not_and]
    constructor
    · rintro ⟨⟨hd, hname⟩, hrest, hnodup, hnew⟩
      exact ⟨⟨hd, hrest⟩, ⟨fun d' hd' => (hnew d' hd').1, hnodup⟩, hname, fun d' hd' => (hnew d' hd').2⟩
    · rintro ⟨⟨hd, hrest⟩, ⟨hne, hnodup⟩, hname, hnew⟩
      exact ⟨⟨hd, hname⟩, hrest, hnodup, fun d' hd' => ⟨hne d' hd', hnew d' hd'⟩⟩

theorem foldlM_of_nil (h : Takes step fits taken name fine) (ds : List δ) {s : σ} (hs : fits s)
    (hnone : taken s = []) : Quiet (ds.foldlM step s) ↔ (ds.map name).Nodup ∧ ∀ d ∈ ds, fine d := by
  rw [h.foldlM ds hs, hnone, and_comm]
  simp

end Takes

/-! ## Types -/

theorem quiet_resolveType_iff {type : Located TypeExpr} :
    Quiet (resolveType t type) ↔ type.val.Known t.classNames := by
  unfold resolveType
  cases type.val with
  | int | intArray | boolean => exact ⟨fun _ => trivial, fun _ => quiet_pure _⟩
  | named name =>
    dsimp only
    cases hid : t.classId? name with
    | none => exact ⟨fun h => absurd h not_quiet_report, fun h => absurd h (Table.classId?_eq_none.1 hid)⟩
    | some id =>
      refine ⟨fun _ => ?_, fun _ => quiet_pure _⟩
      by_contra hnot
      rw [TypeExpr.Known, ← Table.classId?_eq_none, hid] at hnot
      cases hnot

/-! ## Locals -/

end Reporting

/-- The names that the open block declares. -/
def Method.namesHere (m : Method) : List String := (m.locals.filter (·.block == m.currentBlock?)).map (·.name)

theorem Method.isDeclaredHere_eq_false {m : Method} (hblocks : m.blocks ≠ []) {x : String} :
    m.isDeclaredHere x = false ↔ x ∉ m.namesHere := by
  obtain ⟨b, outer, hb⟩ := List.exists_cons_of_ne_nil hblocks
  simp only [isDeclaredHere, currentBlock?, hb, List.head?_cons, Option.any_some, localIn?, namesakes,
    Option.isSome_eq_false_iff, Option.isNone_iff_eq_none, List.find?_eq_none, List.mem_filter, beq_iff_eq,
    namesHere, List.mem_map]
  constructor
  · rintro h ⟨v, ⟨hv, hblock⟩, rfl⟩
    exact h v ⟨hv, rfl⟩ hblock
  · rintro h v ⟨hv, rfl⟩ hblock
    exact h ⟨v, ⟨hv, hblock⟩, rfl⟩

namespace Reporting

variable {t : Table} {m m' : Method} {c c' : Class}

theorem takes_declareLocal : Takes (declareLocal t) (fun m => m.blocks ≠ []) Method.namesHere
    (·.name.val) (fun d => d.type.val.Known t.classNames) where
  quiet h := by
    obtain ⟨-, _, _, hty, -⟩ := gives_declareLocal.1 h
    exact quiet_resolveType hty
  accepts {m d} hblocks := by
    obtain ⟨b, outer, hb⟩ := List.exists_cons_of_ne_nil hblocks
    rw [← quiet_resolveType_iff, ← Method.isDeclaredHere_eq_false hblocks]
    constructor
    · rintro ⟨m', h⟩
      obtain ⟨hhere, ty, v, hty, -⟩ := gives_declareLocal.1 h
      exact ⟨⟨ty, hty⟩, hhere⟩
    · rintro ⟨⟨ty, hty⟩, hhere⟩
      exact ⟨_, gives_declareLocal.2 ⟨hhere, ty, _, hty, Method.addLocal_eq_ok.2 ⟨b, outer, hb, rfl, rfl⟩⟩⟩
  next {m d m'} hblocks h := by
    obtain ⟨-, ty, v, -, hadd⟩ := gives_declareLocal.1 h
    obtain ⟨b, outer, hb, rfl, rfl⟩ := Method.addLocal_eq_ok.1 hadd
    refine ⟨hblocks, ?_⟩
    simp [Method.namesHere, Method.currentBlock?, hb]

/-! ## Statements -/

end Reporting

/-- The locals stand in blocks that have been entered. -/
def Method.Behind (m : Method) : Prop := ∀ s ∈ m.locals.map Variable.slot, s.InBlocks 0 m.nextBlock.next

namespace Method.Behind

variable {m m' : Method}

theorem of_no_locals (h : m.locals = []) : m.Behind := by simp [Behind, h]

theorem enter (h : m.Behind) : m.enter.2.Behind := by
  intro s hs
  obtain ⟨b, hb, hlo, hhi⟩ := h s hs
  exact ⟨b, hb, hlo, Nat.lt_succ_of_lt hhi⟩

theorem namesHere_enter (h : m.Behind) : m.enter.2.namesHere = [] := by
  have hnone : ∀ v ∈ m.locals, v.block ≠ some ⟨m.nextBlock.next⟩ := by
    intro v hv heq
    obtain ⟨b, hb, -, hhi⟩ := h _ (List.mem_map_of_mem hv)
    cases heq.symm.trans hb
    exact Nat.lt_irrefl _ hhi
  simpa [namesHere, currentBlock?, Method.enter, Counter.draw] using hnone

theorem declares {slots : List Slot} {k j : Nat} (h : m.Behind) (hdeclares : Declares m m' slots k)
    (hslots : ∀ s ∈ slots, s.InBlocks j (m.nextBlock.next + k)) : m'.Behind := by
  intro s hs
  rw [hdeclares.slots, List.mem_append, List.mem_reverse] at hs
  rw [hdeclares.next]
  rcases hs with hs | hs
  · obtain ⟨b, hb, -, hhi⟩ := hslots s hs
    exact ⟨b, hb, Nat.zero_le _, hhi⟩
  · obtain ⟨b, hb, hlo, hhi⟩ := h s hs
    exact ⟨b, hb, hlo, by omega⟩

end Method.Behind

namespace Reporting

variable {t : Table} {m m' : Method} {c c' : Class}

theorem quiet_inBlock_iff {contents : Method → Reporting Method}
    (hopen : ∀ m₁, Gives (contents m.enter.2) [] m₁ [] → m₁.blocks ≠ []) :
    Quiet (inBlock m contents) ↔ Quiet (contents m.enter.2) := by
  constructor
  · rintro ⟨m', h⟩
    obtain ⟨m₁, b, hcontents, -⟩ := quiet_inBlock h
    exact ⟨m₁, hcontents⟩
  · rintro ⟨m₁, hcontents⟩
    obtain ⟨b, outer, hb⟩ := List.exists_cons_of_ne_nil (hopen m₁ hcontents)
    exact .bind hcontents ⟨_, gives_settle.2 ⟨rfl, b, Method.leave_eq_ok.2 ⟨outer, hb, rfl⟩⟩⟩

/-- The statements bring no report if their blocks declare properly. -/
def QuietAll (t : Table) (stmts : List Stmt) : Prop :=
  ∀ ⦃m : Method⦄, m.blocks ≠ [] → m.Behind → (Quiet (declareStmts t stmts m) ↔ Stmt.AllWellFormed t.classNames stmts)

/-- A block that is entered has no locals, so those that it declares meet only one another. -/
theorem quiet_block_iff {locals : List VarDecl} {body : List Stmt} (hbody : QuietAll t body) (hm : m.Behind) :
    Quiet (declareBody t locals body m) ↔ Proper t.classNames locals ∧ Stmt.AllWellFormed t.classNames body := by
  have hentered : m.enter.2.blocks = ⟨m.nextBlock.next⟩ :: m.blocks := rfl
  have hopen : m.enter.2.blocks ≠ [] := List.cons_ne_nil _ _
  unfold declareBody
  rw [quiet_inBlock_iff]
  · rw [quiet_bind_and (fun h => (declares_stmts body h).1), takes_declareLocal.foldlM_of_nil locals hopen
      hm.namesHere_enter, ← Source.proper_iff]
    intro m₁ hlocals
    have hdeclares := (declares_locals locals hlocals).2 _ _ hentered
    refine hbody (by rwa [hdeclares.blocks_eq]) (hm.enter.declares (j := 0) hdeclares fun s hs => ?_)
    exact ⟨_, block_of_mem_slotsOf hs, Nat.zero_le _, Nat.lt_succ_self _⟩
  · intro m₁ hcontents
    have hdeclares := (declares_contents (fun _ _ _ => declares_stmts body) hcontents).2 _ _ hentered
    rwa [hdeclares.blocks_eq]

mutual
theorem quiet_stmt_iff (st : Stmt) {m : Method} (hblocks : m.blocks ≠ []) (hm : m.Behind) :
    Quiet (declareStmt t st m) ↔ st.WellFormed t.classNames := by
  cases st with
  | block site locals body =>
    rw [declareStmt, Stmt.WellFormed]
    exact quiet_block_iff (fun _ => quiet_stmts_iff body) hm
  | ifThen site cond body => exact quiet_stmt_iff body hblocks hm
  | «while» site cond body => exact quiet_stmt_iff body hblocks hm
  | ifElse site cond body otherwise =>
    rw [declareStmt, Stmt.WellFormed, quiet_bind_and (fun h => (declares_stmt otherwise h).1),
      quiet_stmt_iff body hblocks hm]
    intro m₁ hbody
    have hdeclares := (declares_stmt body hbody).2 hblocks
    exact quiet_stmt_iff otherwise (by rwa [hdeclares.blocks_eq])
      (hm.declares hdeclares fun s hs => body.inBlocks_slots hs)
  | println _ _ | assign _ _ _ | assignAt _ _ _ _ => exact ⟨fun _ => trivial, fun _ => quiet_pure _⟩

theorem quiet_stmts_iff (stmts : List Stmt) {m : Method} (hblocks : m.blocks ≠ []) (hm : m.Behind) :
    Quiet (declareStmts t stmts m) ↔ Stmt.AllWellFormed t.classNames stmts := by
  cases stmts with
  | nil => exact ⟨fun _ => trivial, fun _ => quiet_pure _⟩
  | cons st rest =>
    rw [declareStmts, Stmt.AllWellFormed, quiet_bind_and (fun h => (declares_stmts rest h).1),
      quiet_stmt_iff st hblocks hm]
    intro m₁ hfirst
    have hdeclares := (declares_stmt st hfirst).2 hblocks
    exact quiet_stmts_iff rest (by rwa [hdeclares.blocks_eq])
      (hm.declares hdeclares fun s hs => st.inBlocks_slots hs)
end

/-! ## Methods -/

theorem takes_declareFormal : Takes (declareFormal t) (fun m => m.blocks = []) (·.parameters.map (·.name))
    (·.name.val) (fun d => d.type.val.Known t.classNames) where
  quiet h := by
    obtain ⟨-, _, _, hty, -⟩ := gives_declareFormal.1 h
    exact quiet_resolveType hty
  accepts {m d} hblocks := by
    have hnew : (m.parameter? d.name.val).isSome = false ↔ d.name.val ∉ m.parameters.map (·.name) := by
      simp [Method.parameter?]
    rw [← quiet_resolveType_iff, ← hnew]
    constructor
    · rintro ⟨m', h⟩
      obtain ⟨hnone, ty, v, hty, -⟩ := gives_declareFormal.1 h
      exact ⟨⟨ty, hty⟩, hnone⟩
    · rintro ⟨⟨ty, hty⟩, hnone⟩
      exact ⟨_, gives_declareFormal.2 ⟨hnone, ty, _, hty, Method.addParameter_eq_ok.2 ⟨hblocks, rfl, rfl⟩⟩⟩
  next {m d m'} hblocks h := by
    obtain ⟨-, ty, v, -, hadd⟩ := gives_declareFormal.1 h
    obtain ⟨-, rfl, rfl⟩ := Method.addParameter_eq_ok.1 hadd
    refine ⟨hblocks, ?_⟩
    rw [List.map_append]
    exact List.perm_append_singleton _ _

theorem quiet_bind_pure {α β : Type} {x : Reporting α} {f : α → β} :
    Quiet (do return f (← x)) ↔ Quiet x := by
  rw [quiet_bind fun h => (gives_pure.1 h).2.symm]
  exact ⟨fun ⟨a, ha, _⟩ => ⟨a, ha⟩, fun ⟨a, ha⟩ => ⟨a, ha, quiet_pure _⟩⟩

theorem quiet_declareBody_iff {locals : List VarDecl} {body : List Stmt} (hm : m.locals = []) :
    Quiet (declareBody t locals body m) ↔ Proper t.classNames locals ∧ Stmt.AllWellFormed t.classNames body :=
  quiet_block_iff (fun _ => quiet_stmts_iff body) (.of_no_locals hm)

theorem takes_declareMethod : Takes (declareMethod t) (fun _ => True) (·.methods.map (·.name)) (·.name.val)
    (·.WellFormed t.classNames) where
  quiet h := (quiet_declareMethod h).1
  accepts {c d} _ := by
    rw [MethodDecl.wellFormed_iff, ← quiet_resolveType_iff, Source.proper_iff _ d.formals]
    constructor
    · rintro ⟨c', h⟩
      obtain ⟨hnew, ty, m, m', hty, hformals, hbody, -⟩ := gives_declareMethod.1 h
      have hm : m.locals = [] := by rw [(accepts_formals d.formals hformals).2.same]
      exact ⟨⟨⟨ty, hty⟩, (takes_declareFormal.foldlM_of_nil d.formals rfl rfl).1 ⟨m, hformals⟩,
        (quiet_declareBody_iff hm).1 ⟨m', hbody⟩⟩, hnew⟩
    · rintro ⟨⟨⟨ty, hty⟩, hproper, hcontents⟩, hnew⟩
      let start : Method := { name := d.name.val, returns := some ty, site := d.name.site }
      obtain ⟨m, hformals⟩ := (takes_declareFormal.foldlM_of_nil d.formals (s := start) rfl rfl).2 hproper
      have hm : m.locals = [] := by rw [(accepts_formals d.formals hformals).2.same]
      obtain ⟨m', hbody⟩ := (quiet_declareBody_iff hm).2 hcontents
      exact ⟨_, gives_declareMethod.2 ⟨hnew, ty, m, m', hty, hformals, hbody, rfl⟩⟩
  next {c d c'} _ h := by
    obtain ⟨-, -, -, m, hmethods, hname, -⟩ := quiet_declareMethod h
    refine ⟨trivial, ?_⟩
    rw [hmethods, List.map_append, ← hname]
    exact List.perm_append_singleton _ _

/-! ## Classes -/

theorem takes_declareField : Takes (declareField t) (fun _ => True) (·.fields.map (·.name)) (·.name.val)
    (fun d => d.type.val.Known t.classNames) where
  quiet h := by
    obtain ⟨-, _, hty, -⟩ := gives_declareField.1 h
    exact quiet_resolveType hty
  accepts {c d} _ := by
    rw [← quiet_resolveType_iff]
    constructor
    · rintro ⟨c', h⟩
      obtain ⟨hnew, ty, hty, -⟩ := gives_declareField.1 h
      exact ⟨⟨ty, hty⟩, hnew⟩
    · rintro ⟨⟨ty, hty⟩, hnew⟩
      exact ⟨_, gives_declareField.2 ⟨hnew, ty, hty, rfl⟩⟩
  next {c d c'} _ h := by
    obtain ⟨-, ty, -, rfl⟩ := gives_declareField.1 h
    refine ⟨trivial, ?_⟩
    rw [List.map_append]
    exact List.perm_append_singleton _ _

theorem quiet_declareMembers_iff {d : ClassDecl} (hfields : c.fields = []) (hmethods : c.methods = []) :
    Quiet (declareMembers t d c) ↔ d.WellFormed t.classNames := by
  unfold declareMembers
  rw [quiet_bind_and (fun h => (quiet_declareMethods d.methods h).1),
    takes_declareField.foldlM_of_nil d.fields trivial (by simp [hfields]), ClassDecl.wellFormed_iff,
    ← Source.proper_iff]
  intro c₁ h
  obtain ⟨-, -, hsame⟩ := quiet_declareFields d.fields h
  exact takes_declareMethod.foldlM_of_nil d.methods trivial (by simp [hsame, hmethods])

theorem quiet_declareMain_iff {d : MainClass} (hmethods : c.methods = []) :
    Quiet (declareMain t d c) ↔ Proper t.classNames d.locals ∧ Stmt.AllWellFormed t.classNames d.body := by
  have hadd := (@Class.addMethod_eq_ok c _ { name := d.method.val, returns := none, site := d.method.site } _).2
    ⟨by simp [hmethods], rfl, rfl⟩
  unfold declareMain
  simp only [hadd, quiet_bind_pure]
  exact quiet_declareBody_iff rfl

end Reporting

end Lowering
