import Lowering.Procedure
import Lowering.Proofs.Outcome
import Lowering.Proofs.Scope.Slots
import Lowering.Proofs.Table.Changes
import Lowering.Table.Declare

/-!
# What the declaration pass declares

A pass that reports nothing has put every declaration into its method, in the order of the walk over
the source. Reports are never taken back, so each step of such a pass reports nothing either.
-/

namespace Lowering

open Lowering.Source (VarDecl Stmt Located TypeExpr)

variable {t : Table} {m m' : Method} {d : VarDecl} {r : List Diagnostic}

namespace Reporting

/-! ## Steps that report nothing -/

theorem not_gives_report {kind : Diagnostic.Kind} {site : Source.Site} {args : List String} {u : Unit} :
    ¬ Gives (report kind site args) r u [] := by
  intro h
  have hlist := congrArg Prod.snd h
  exact List.append_ne_nil_of_right_ne_nil _ (List.cons_ne_nil _ _) hlist

theorem not_gives_report_pure {α : Type} {kind : Diagnostic.Kind} {site : Source.Site} {args : List String}
    {a b : α} : ¬ Gives (do report kind site args; return a) r b [] := by
  intro h
  obtain ⟨_, _, hreport, hpure⟩ := gives_bind.1 h
  obtain ⟨-, rfl⟩ := gives_pure.1 hpure
  exact not_gives_report hreport

theorem quiet_resolveType {type : Located TypeExpr} {ty : Ty} (h : Gives (resolveType t type) r ty []) :
    r = [] := by
  unfold resolveType at h
  split at h
  case h_4 name _ =>
    split at h
    · exact (gives_pure.1 h).2.symm
    · exact absurd h not_gives_report_pure
  all_goals exact (gives_pure.1 h).2.symm

theorem gives_settle {α : Type} {site : Source.Site} {x : Except ScopeError α × Method} :
    Gives (settle site x) r m' [] ↔ r = [] ∧ ∃ a, x = (.ok a, m') := by
  obtain ⟨result, m⟩ := x
  cases result with
  | ok a =>
    rw [settle, gives_pure]
    simp [eq_comm, and_comm]
  | error e =>
    have hreports : ¬ Gives (settle site (.error e, m) (α := α)) r m' [] := not_gives_report_pure
    simp [hreports]

theorem gives_declareLocal : Gives (declareLocal t m d) r m' [] ↔ m.isDeclaredHere d.name.val = false ∧
    ∃ ty v, Gives (resolveType t d.type) r ty [] ∧ m.addLocal d.name.val ty d.name.site = (.ok v, m') := by
  unfold declareLocal
  rw [gives_bind]
  constructor
  · rintro ⟨ty, r', hty, h⟩
    split at h
    next => exact absurd h not_gives_report_pure
    next hhere =>
      obtain ⟨rfl, v, hadd⟩ := gives_settle.1 h
      exact ⟨by simpa using hhere, ty, v, hty, hadd⟩
  · rintro ⟨hhere, ty, v, hty, hadd⟩
    refine ⟨ty, [], hty, ?_⟩
    simp only [hhere, hadd]
    rfl

theorem quiet_inBlock {contents : Method → Reporting Method} (h : Gives (inBlock m contents) r m' []) :
    ∃ m₁ b, Gives (contents m.enter.2) r m₁ [] ∧ m₁.leave = (.ok b, m') := by
  obtain ⟨m₁, r', hcontents, h⟩ := gives_bind.1 h
  obtain ⟨rfl, b, hleave⟩ := gives_settle.1 h
  exact ⟨m₁, b, hcontents, hleave⟩

end Reporting

/-! ## Locals -/

/-- Two locals of one name stand in different blocks. -/
def Method.Distinct (m : Method) : Prop := (m.locals.map fun v => v.slot.key).Nodup

/-- No local has storage yet. -/
def Method.Unbound (m : Method) : Prop := ∀ v ∈ m.locals, v.access = none

/-- `m'` is `m` with locals in these slots, declared in `blocks` new blocks or in the open one. -/
structure Declares (m m' : Method) (slots : List Slot) (blocks : Nat) : Prop where
  same : m' = { m with locals := m'.locals, nextBlock := m'.nextBlock, nextIndex := m'.nextIndex }
  next : m'.nextBlock.next = m.nextBlock.next + blocks
  index : m'.nextIndex.next = m.nextIndex.next + slots.length
  slots : m'.locals.map Variable.slot = slots.reverse ++ m.locals.map Variable.slot
  distinct : m.Distinct → m'.Distinct
  unbound : m.Unbound → m'.Unbound

namespace Declares

variable {m'' : Method} {a b : List Slot} {k k' : Nat}

theorem refl (m : Method) : Declares m m [] 0 := ⟨rfl, rfl, rfl, rfl, id, id⟩

theorem trans (h : Declares m m' a k) (h' : Declares m' m'' b k') :
    Declares m m'' (a ++ b) (k + k') := by
  refine ⟨?_, ?_, ?_, ?_, h'.distinct ∘ h.distinct, h'.unbound ∘ h.unbound⟩
  · rw [h'.same, h.same]
  · rw [h'.next, h.next, Nat.add_assoc]
  · rw [h'.index, h.index, List.length_append, Nat.add_assoc]
  · rw [h'.slots, h.slots, List.reverse_append, List.append_assoc]

theorem blocks_eq (h : Declares m m' a k) : m'.blocks = m.blocks := by rw [h.same]

theorem more {block : Option Block} {ds es : List VarDecl}
    (h : Declares m m' (slotsOf block m.nextIndex.next ds) 0)
    (h' : Declares m' m'' (slotsOf block m'.nextIndex.next es) 0) :
    Declares m m'' (slotsOf block m.nextIndex.next (ds ++ es)) 0 := by
  have hall := h.trans h'
  rwa [h.index, length_slotsOf, ← slotsOf_append] at hall

theorem leave {left : Block} (h : Declares m.enter.2 m' a k) (hblocks : m.blocks ≠ [])
    (hleave : m'.leave = (.ok left, m'')) : Declares m m'' a (k + 1) := by
  have hopen : m'.blocks = ⟨m.nextBlock.next⟩ :: m.blocks := h.blocks_eq
  obtain ⟨outer, houter, rfl⟩ := Method.leave_eq_ok.1 hleave
  cases hopen.symm.trans houter
  refine ⟨?_, ?_, h.index, h.slots, h.distinct, h.unbound⟩
  · rw [h.same]
    rfl
  · simp only [List.isEmpty_iff, hblocks, if_false]
    rw [h.next]
    simp only [Method.enter, Counter.draw]
    omega

end Declares

namespace Reporting

variable {b : Block} {outer : List Block}

theorem declares_addLocal {ty : Ty} {v : Variable} (hhere : m.isDeclaredHere d.name.val = false)
    (hadd : m.addLocal d.name.val ty d.name.site = (.ok v, m')) (hblocks : m.blocks = b :: outer) :
    Declares m m' (slotsOf (some b) m.nextIndex.next [d]) 0 := by
  obtain ⟨_, _, hopen, rfl, rfl⟩ := Method.addLocal_eq_ok.1 hadd
  cases hblocks.symm.trans hopen
  refine ⟨rfl, rfl, rfl, rfl, fun hdistinct => ?_, fun hunbound => ?_⟩
  · refine List.nodup_cons.2 ⟨fun hmem => ?_, hdistinct⟩
    obtain ⟨v, hv, hkey⟩ := List.mem_map.1 hmem
    simp only [Variable.slot, Slot.key, Prod.mk.injEq] at hkey
    simp only [Method.isDeclaredHere, Method.currentBlock?, hblocks, List.head?_cons, Option.any_some,
      Method.localIn?, Method.namesakes, Option.isSome_eq_false_iff, Option.isNone_iff_eq_none,
      List.find?_eq_none, List.mem_filter, beq_iff_eq] at hhere
    exact hhere v ⟨hv, hkey.1⟩ hkey.2
  · intro v hv
    rcases List.mem_cons.1 hv with rfl | hv
    · rfl
    · exact hunbound v hv

theorem declares_locals (ds : List VarDecl) {m : Method}
    (h : Gives (ds.foldlM (declareLocal t) m) r m' []) :
    r = [] ∧ ∀ b outer, m.blocks = b :: outer →
      Declares m m' (slotsOf (some b) m.nextIndex.next ds) 0 := by
  induction ds generalizing m r with
  | nil =>
    obtain ⟨rfl, rfl⟩ := gives_pure.1 h
    exact ⟨rfl, fun _ _ _ => .refl _⟩
  | cons d rest ih =>
    rw [List.foldlM_cons] at h
    obtain ⟨m₁, r₁, hfirst, hrest⟩ := gives_bind.1 h
    obtain ⟨rfl, hdeclares'⟩ := ih hrest
    obtain ⟨hhere, ty, v, hty, hadd⟩ := gives_declareLocal.1 hfirst
    refine ⟨quiet_resolveType hty, fun b outer hblocks => ?_⟩
    have hdeclares := declares_addLocal hhere hadd hblocks
    exact hdeclares.more (hdeclares' b outer (hdeclares.blocks_eq.trans hblocks))

/-! ## Statements -/

theorem declares_inBlock {contents : Method → Reporting Method} {slots : List Slot} {k : Nat}
    (h : Gives (inBlock m contents) r m' []) (hblocks : m.blocks ≠ [])
    (hcontents : ∀ m₁, Gives (contents m.enter.2) r m₁ [] → Declares m.enter.2 m₁ slots k) :
    Declares m m' slots (k + 1) := by
  obtain ⟨m₁, b, hgives, hleave⟩ := quiet_inBlock h
  exact (hcontents m₁ hgives).leave hblocks hleave

/-- The statements declare the slots of their walk. -/
def DeclaresAll (t : Table) (stmts : List Stmt) : Prop :=
  ∀ ⦃m m' r⦄, Gives (declareStmts t stmts m) r m' [] → r = [] ∧ (m.blocks ≠ [] →
    Declares m m' (Stmt.slotsAll stmts m.nextBlock.next m.nextIndex.next) (Stmt.blockCountAll stmts))

theorem declares_contents {locals : List VarDecl} {body : List Stmt} (hbody : DeclaresAll t body)
    (h : Gives (do
      let m ← locals.foldlM (declareLocal t) m
      declareStmts t body m) r m' []) :
    r = [] ∧ ∀ b outer, m.blocks = b :: outer →
      Declares m m' (slotsOf (some b) m.nextIndex.next locals ++
        Stmt.slotsAll body m.nextBlock.next (m.nextIndex.next + locals.length)) (Stmt.blockCountAll body) := by
  obtain ⟨m₁, r₁, hlocals, hstmts⟩ := gives_bind.1 h
  obtain ⟨rfl, hdeclares'⟩ := hbody hstmts
  obtain ⟨hr, hdeclares⟩ := declares_locals locals hlocals
  refine ⟨hr, fun b outer hblocks => ?_⟩
  have hfirst := hdeclares b outer hblocks
  have hall := hfirst.trans (hdeclares' (by simp [hfirst.blocks_eq, hblocks]))
  rwa [hfirst.next, hfirst.index, length_slotsOf, Nat.add_zero, Nat.zero_add] at hall

mutual
theorem declares_stmt (st : Stmt) {m m' : Method} {r : List Diagnostic}
    (h : Gives (declareStmt t st m) r m' []) :
    r = [] ∧ (m.blocks ≠ [] →
      Declares m m' (st.slots m.nextBlock.next m.nextIndex.next) st.blockCount) := by
  cases st with
  | block site locals body =>
    rw [declareStmt] at h
    obtain ⟨m₁, _, hgives, -⟩ := quiet_inBlock h
    have hbody : DeclaresAll t body := fun _ _ _ => declares_stmts body
    refine ⟨(declares_contents hbody hgives).1, fun hblocks => ?_⟩
    exact declares_inBlock h hblocks fun m₁ hgives => (declares_contents hbody hgives).2 _ _ rfl
  | ifThen site cond body => exact declares_stmt body h
  | «while» site cond body => exact declares_stmt body h
  | ifElse site cond body otherwise =>
    rw [declareStmt] at h
    obtain ⟨m₁, r₁, hbody, hotherwise⟩ := gives_bind.1 h
    obtain ⟨rfl, hdeclares'⟩ := declares_stmt otherwise hotherwise
    obtain ⟨rfl, hdeclares⟩ := declares_stmt body hbody
    refine ⟨rfl, fun hblocks => ?_⟩
    have hfirst := hdeclares hblocks
    have hall := hfirst.trans (hdeclares' (by rwa [hfirst.blocks_eq]))
    rwa [hfirst.next, hfirst.index, body.length_slots] at hall
  | println _ _ | assign _ _ _ | assignAt _ _ _ _ =>
    obtain ⟨rfl, rfl⟩ := gives_pure.1 h
    exact ⟨rfl, fun _ => .refl _⟩

theorem declares_stmts (stmts : List Stmt) {m m' : Method} {r : List Diagnostic}
    (h : Gives (declareStmts t stmts m) r m' []) :
    r = [] ∧ (m.blocks ≠ [] →
      Declares m m' (Stmt.slotsAll stmts m.nextBlock.next m.nextIndex.next) (Stmt.blockCountAll stmts)) := by
  cases stmts with
  | nil =>
    obtain ⟨rfl, rfl⟩ := gives_pure.1 h
    exact ⟨rfl, fun _ => .refl _⟩
  | cons st rest =>
    rw [declareStmts] at h
    obtain ⟨m₁, r₁, hfirst, hrest⟩ := gives_bind.1 h
    obtain ⟨rfl, hdeclares'⟩ := declares_stmts rest hrest
    obtain ⟨rfl, hdeclares⟩ := declares_stmt st hfirst
    refine ⟨rfl, fun hblocks => ?_⟩
    have hfirst := hdeclares hblocks
    have hall := hfirst.trans (hdeclares' (by rwa [hfirst.blocks_eq]))
    rwa [hfirst.next, hfirst.index, st.length_slots] at hall
end

/-! ## Parameters -/

/-- `m'` is `m` with these formals as parameters. -/
structure Accepts (m m' : Method) (ds : List VarDecl) : Prop where
  same : m' = { m with parameters := m'.parameters, nextIndex := m'.nextIndex }
  index : m'.nextIndex.next = m.nextIndex.next + ds.length
  slots : m'.parameters.map Variable.slot =
    m.parameters.map Variable.slot ++ slotsOf none m.nextIndex.next ds
  names : (m.parameters.map (·.name)).Nodup → (m'.parameters.map (·.name)).Nodup

theorem gives_declareFormal : Gives (declareFormal t m d) r m' [] ↔ (m.parameter? d.name.val).isSome = false ∧
    ∃ ty v, Gives (resolveType t d.type) r ty [] ∧ m.addParameter d.name.val ty d.name.site = (.ok v, m') := by
  unfold declareFormal
  rw [gives_bind]
  constructor
  · rintro ⟨ty, r', hty, h⟩
    split at h
    next => exact absurd h not_gives_report_pure
    next hthere =>
      obtain ⟨rfl, v, hadd⟩ := gives_settle.1 h
      exact ⟨by simpa using hthere, ty, v, hty, hadd⟩
  · rintro ⟨hthere, ty, v, hty, hadd⟩
    refine ⟨ty, [], hty, ?_⟩
    simp only [hthere, hadd]
    rfl

theorem accepts_addParameter {ty : Ty} {v : Variable} (hnone : (m.parameter? d.name.val).isSome = false)
    (hadd : m.addParameter d.name.val ty d.name.site = (.ok v, m')) : Accepts m m' [d] := by
  obtain ⟨-, rfl, rfl⟩ := Method.addParameter_eq_ok.1 hadd
  refine ⟨rfl, rfl, by simp [slotsOf, Variable.slot], fun hnames => ?_⟩
  simp only [Method.parameter?, Option.isSome_eq_false_iff, Option.isNone_iff_eq_none, List.find?_eq_none,
    beq_iff_eq] at hnone
  rw [List.map_append, List.nodup_append]
  refine ⟨hnames, by simp, ?_⟩
  rintro _ hx _ hy rfl
  obtain ⟨v, hv, rfl⟩ := List.mem_map.1 hx
  exact hnone v hv (by simpa using hy)

namespace Accepts

variable {m'' : Method} {ds es : List VarDecl}

theorem refl (m : Method) : Accepts m m [] := ⟨rfl, rfl, by simp [slotsOf], id⟩

theorem trans (h : Accepts m m' ds) (h' : Accepts m' m'' es) : Accepts m m'' (ds ++ es) := by
  refine ⟨by rw [h'.same, h.same], ?_, ?_, h'.names ∘ h.names⟩
  · rw [h'.index, h.index, List.length_append, Nat.add_assoc]
  · rw [h'.slots, h.slots, h.index, List.append_assoc, slotsOf_append]

end Accepts

theorem accepts_formals (ds : List VarDecl) {m : Method}
    (h : Gives (ds.foldlM (declareFormal t) m) r m' []) :
    r = [] ∧ Accepts m m' ds := by
  induction ds generalizing m r with
  | nil =>
    obtain ⟨rfl, rfl⟩ := gives_pure.1 h
    exact ⟨rfl, .refl _⟩
  | cons d rest ih =>
    rw [List.foldlM_cons] at h
    obtain ⟨m₁, r₁, hfirst, hrest⟩ := gives_bind.1 h
    obtain ⟨rfl, haccepts⟩ := ih hrest
    obtain ⟨hnone, ty, v, hty, hadd⟩ := gives_declareFormal.1 hfirst
    exact ⟨quiet_resolveType hty, (accepts_addParameter hnone hadd).trans haccepts⟩

end Reporting

/-! ## Bodies -/

namespace Lower.Body

/-- The slots of the locals of a body. Its own block has the number zero. -/
def localSlots (b : Body) : List Slot :=
  slotsOf (some ⟨0⟩) (b.formals.length + 1) b.locals ++
    Stmt.slotsAll b.stmts 1 (b.formals.length + 1 + b.locals.length)

/-- All declarations of a body, in order. -/
def declarations (b : Body) : List VarDecl := b.formals ++ (b.locals ++ Stmt.declarationsAll b.stmts)

end Lower.Body

/-- Nothing was declared in the method yet, and no block was entered. -/
structure Method.Blank (m : Method) : Prop where
  blocks : m.blocks = []
  nextBlock : m.nextBlock = {}
  nextIndex : m.nextIndex = ⟨1⟩
  parameters : m.parameters = []
  locals : m.locals = []

theorem Method.blank_new (name : String) (returns : Option Ty) (site : Source.Site) :
    Blank { name := name, returns := returns, site := site } := ⟨rfl, rfl, rfl, rfl, rfl⟩

/-- The method holds the declarations of the body, and none of them is bound. -/
structure Declared (b : Lower.Body) (m : Method) : Prop where
  blocks : m.blocks = []
  nextBlock : m.nextBlock = {}
  parameters : m.parameters.map Variable.slot = slotsOf none 1 b.formals
  names : (m.parameters.map (·.name)).Nodup
  locals : m.locals.map Variable.slot = b.localSlots.reverse
  distinct : m.Distinct
  unbound : m.Unbound

theorem Reporting.quiet_declareBody {locals : List VarDecl} {stmts : List Stmt}
    (h : Gives (declareBody t locals stmts m) r m' []) : r = [] := by
  obtain ⟨m₁, b₁, hcontents, -⟩ := quiet_inBlock h
  exact (declares_contents (fun _ _ _ => declares_stmts stmts) hcontents).1

theorem declared_of_leave {b : Lower.Body} {m₀ m m₁ m' : Method} {left : Block}
    (hm₀ : m₀.Blank) (hformals : Reporting.Accepts m₀ m b.formals)
    (hdeclares : Declares m.enter.2 m₁ (slotsOf (some ⟨m.nextBlock.next⟩) m.enter.2.nextIndex.next b.locals ++
      Stmt.slotsAll b.stmts m.enter.2.nextBlock.next (m.enter.2.nextIndex.next + b.locals.length))
      (Stmt.blockCountAll b.stmts))
    (hleave : m₁.leave = (.ok left, m')) : Declared b m' ∧ m'.name = m₀.name := by
  have hm : m.blocks = [] ∧ m.nextBlock = {} ∧ m.locals = [] ∧ m.name = m₀.name := by
    rw [hformals.same]
    exact ⟨hm₀.blocks, hm₀.nextBlock, hm₀.locals, rfl⟩
  obtain ⟨hblocks, hnext, hlocals, hname⟩ := hm
  have hslots : m.parameters.map Variable.slot = slotsOf none 1 b.formals := by
    rw [hformals.slots, hm₀.parameters, hm₀.nextIndex]
    rfl
  have hcount : m.enter.2.nextIndex.next = b.formals.length + 1 := by
    calc m.nextIndex.next = m₀.nextIndex.next + b.formals.length := hformals.index
      _ = b.formals.length + 1 := by rw [hm₀.nextIndex, Nat.add_comm]
  have hopen : m₁.blocks = [⟨0⟩] := by
    rw [hdeclares.blocks_eq]
    simp [Method.enter, hblocks, hnext, Counter.draw]
  obtain ⟨outer, houter, rfl⟩ := Method.leave_eq_ok.1 hleave
  cases hopen.symm.trans houter
  have hinside : m₁.parameters = m.parameters ∧ m₁.name = m.name := by
    rw [hdeclares.same]
    exact ⟨rfl, rfl⟩
  have hempty : m.enter.2.locals = [] := hlocals
  refine ⟨⟨rfl, rfl, ?_, ?_, ?_, ?_, ?_⟩, hinside.2.trans hname⟩
  · exact (congrArg _ hinside.1).trans hslots
  · simpa [hinside.1] using hformals.names (by simp [hm₀.parameters])
  · have hnext' : m.enter.2.nextBlock.next = 1 := by simp [Method.enter, hnext, Counter.draw]
    rw [hdeclares.slots, hempty, hcount, hnext', hnext, List.map_nil, List.append_nil]
    rfl
  · exact hdeclares.distinct (by simp [Method.Distinct, hempty])
  · exact hdeclares.unbound (by simp [Method.Unbound, hempty])

theorem declared_of_body {b : Lower.Body} {m₀ m m' : Method} {r : List Diagnostic}
    (hm₀ : m₀.Blank) (hformals : Reporting.Accepts m₀ m b.formals)
    (h : Gives (Reporting.declareBody t b.locals b.stmts m) r m' []) :
    Declared b m' ∧ m'.name = m₀.name := by
  obtain ⟨m₁, left, hcontents, hleave⟩ := Reporting.quiet_inBlock h
  obtain ⟨-, hdeclares⟩ :=
    Reporting.declares_contents (fun _ _ _ => Reporting.declares_stmts b.stmts) hcontents
  exact declared_of_leave hm₀ hformals (hdeclares _ _ rfl) hleave

end Lowering
