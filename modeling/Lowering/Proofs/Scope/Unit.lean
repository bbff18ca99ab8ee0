import Lowering.Proofs.Scope.Body
import Lowering.Proofs.Scope.Program

/-!
# Lowering a unit within scopes

The procedures of a unit are lowered one after the other. Each finds the method that the declaration
pass made for it, because no procedure before it has the same names.
-/

namespace Lowering

open Lowering.Tree (Temp Label Stm nextTemp)
open Lowering.Source (VarDecl Stmt MethodDecl ClassDecl MainClass Program)
open Supply (Before labelsBetween labelNamed)

/-! ## Labels of a procedure -/

theorem dollar_notMem_labelNamed (k : Nat) : '$' ∉ (labelNamed k).name.toList := by
  simp only [labelNamed, Nat.toString_eq_repr, String.toList_append, Nat.toList_repr, List.mem_append, not_or]
  refine ⟨by decide, fun h => ?_⟩
  have hdigit := Nat.isDigit_of_mem_toDigits (by decide) (by decide) h
  exact absurd hdigit (by decide)

theorem nodup_procedure_labels {f : Frame} {cls name : String} {inner : List Label} {s s' : Supply}
    (hname : f.name = LowerUnit.procedureLabel cls name) (hinner : inner.Perm (labelsBetween s s')) :
    (f.name :: (inner ++ [f.exitLabel])).Nodup := by
  have hdrawn : ∀ l ∈ inner, '$' ∉ l.name.toList := by
    intro l hl
    obtain ⟨k, -, rfl⟩ := List.mem_map.1 (hinner.mem_iff.1 hl)
    exact dollar_notMem_labelNamed k
  have hentry : '$' ∈ f.name.name.toList := by simp [hname, LowerUnit.procedureLabel]
  have hexit : '$' ∈ f.exitLabel.name.toList := by simp [Frame.exitLabel]
  have hdiffer : f.name ≠ f.exitLabel := by
    intro heq
    have := congrArg (fun l : Label => l.name.length) heq
    simp [Frame.exitLabel] at this
  have hnodup : inner.Nodup := hinner.nodup_iff.2 (Supply.nodup_labelsBetween s s')
  refine List.nodup_cons.2 ⟨fun hmem => ?_, List.nodup_append.2 ⟨hnodup, List.nodup_singleton _, ?_⟩⟩
  · rcases List.mem_append.1 hmem with hmem | hmem
    · exact hdrawn _ hmem hentry
    · exact hdiffer (List.mem_singleton.1 hmem)
  · rintro a ha b hb rfl
    rw [List.mem_singleton.1 hb] at ha
    exact hdrawn _ ha hexit

/-! ## The start of a procedure -/

theorem Method.slot_bindParameters (as : List Access) (vs : List Variable) :
    (Method.bindParameters as vs).map Variable.slot = vs.map Variable.slot := by
  induction vs generalizing as with
  | nil => simp [Method.bindParameters]
  | cons v rest ih =>
    cases as with
    | nil => rfl
    | cons a as => simp [Method.bindParameters, ih, Variable.slot]

theorem Method.access_bindParameters {ds : List VarDecl} {vs : List Variable} {as : List Access} (before : List Access)
    (hslots : vs.map Variable.slot = slotsOf none (before.length + 1) ds) (hlength : as.length = ds.length) :
    ∀ v ∈ Method.bindParameters as vs, v.access = (before ++ as)[v.index - 1]? := by
  induction ds generalizing vs as before with
  | nil =>
    cases List.map_eq_nil_iff.1 hslots
    simp [Method.bindParameters]
  | cons d rest ih =>
    obtain ⟨v, vs, rfl⟩ : ∃ v vs', vs = v :: vs' := by
      cases vs with
      | nil => simp [slotsOf] at hslots
      | cons v vs => exact ⟨v, vs, rfl⟩
    obtain ⟨a, as, rfl⟩ : ∃ a as', as = a :: as' := by
      cases as with
      | nil => simp at hlength
      | cons a as => exact ⟨a, as, rfl⟩
    simp only [List.map_cons, slotsOf, List.cons.injEq] at hslots
    intro u hu
    rcases List.mem_cons.1 hu with rfl | hu
    · have hindex : v.index = before.length + 1 := congrArg Slot.index hslots.1
      simp [hindex]
    · have hrest := ih (before ++ [a]) (by simpa using hslots.2) (by simpa using hlength) u hu
      simpa using hrest

theorem starting_of_declared {b : Lower.Body} {m : Method} (hdeclared : Declared b m) (name : Label)
    (s : Supply) (journal : Journal) {created : Frame} {supply : Supply}
    (hcreated : Gives (Frame.create name m.parameters.length) s created supply) :
    Starting b { method := { m with parameters := Method.bindParameters created.formals m.parameters }
                 frame := created, supply, journal } ∧
      created.formals = (List.range b.formals.length).map (fun i => Frame.slot (i + 1)) ∧
      created.name = name := by
  cases hcreated
  have hcount : m.parameters.length = b.formals.length := by
    have := congrArg List.length hdeclared.parameters
    simpa using this
  have hnames : b.formals.map (·.name.val) = m.parameters.map (·.name) := by
    have := congrArg (List.map Slot.name) hdeclared.parameters
    rw [map_name_slotsOf, List.map_map] at this
    exact this.symm
  refine ⟨⟨hdeclared.blocks, hdeclared.nextBlock, ⟨?_, ?_, ?_, ?_⟩, ?_, hdeclared.locals, hdeclared.distinct,
    hdeclared.unbound, rfl⟩, by rw [hcount], rfl⟩
  · exact (Method.slot_bindParameters _ _).trans hdeclared.parameters
  · exact fun s hs => (index_of_mem_slotsOf hs).1
  · intro v hv
    simpa using Method.access_bindParameters [] hdeclared.parameters (by simp [hcount]) v hv
  · exact ⟨by simp, by simp, ⟨by simp [Counter.draw], by simp⟩, ⟨by simp [Counter.draw], by simp⟩,
      by simp [Counter.draw]⟩
  · rw [hnames]
    exact hdeclared.names

/-! ## One procedure -/

/-- The fragment is the procedure lowered, and the method knows where its variables are kept. -/
structure Compiled (println : String) (q : Procedure) (m : Method) (f : Fragment) : Prop where
  name : f.frame.name = LowerUnit.procedureLabel q.cls q.name
  formals : f.frame.formals = (List.range q.body.formals.length).map fun i => Frame.slot (i + 1)
  code : BodyCode f.frame println q.body f.body
  labels : f.body.labels.Nodup
  count : f.frame.locals.length = q.body.declarations.length
  within : ∃ s, f.frame.Within s
  parameters : m.parameters.map Variable.slot = slotsOf none 1 q.body.formals
  locals : m.locals.map Variable.slot = q.body.localSlots.reverse
  bound : ∀ v ∈ m.parameters ++ m.locals, v.access = f.frame.locals[v.index - 1]?

namespace LowerUnit

variable {options : Options} {u u' u'' : UnitWork} {f : Fragment} {q : Procedure}

/-- The method of the procedure is bound, all others stay as they are. -/
def Binds (q : Procedure) (m : Method) (u u' : UnitWork) : Prop :=
  ∀ cls name, u'.table.method? cls name =
    if (cls, name) = q.key then some m else u.table.method? cls name

/-- The work with which a procedure starts. -/
def startOf (p : Place) (u : UnitWork) : Work :=
  let name := procedureLabel p.cls.name p.method.name
  let formals := p.method.parameters.length
  let created := (Frame.create name formals).run u.supply
  { method := { p.method with parameters := Method.bindParameters created.1.formals p.method.parameters }
    frame := created.1
    supply := created.2
    journal := u.journal.push (.frameCreated name formals) }

/-- What stays fixed while a procedure is lowered. -/
def surroundings (options : Options) (p : Place) (u : UnitWork) : Surroundings where
  isField name := (u.table.field? p.classId name).isSome
  println := options.linkage.linkName .println
  storage := {}

theorem run_lowerProcedure (options : Options) (p : Place) (b : Lower.Body) (u : UnitWork) :
    (lowerProcedure options {} p b).run.run u =
      let done := (Lower.lowerProcedure (surroundings options p u) b).run.run (startOf p u)
      (done.1.map fun body => ⟨done.2.frame, body⟩,
        { table := u.table.setMethod p.classId p.methodId done.2.method
          supply := done.2.supply
          journal := done.2.journal }) := rfl

theorem yields_lowerProcedure {p : Place} {b : Lower.Body} (h : Yields (lowerProcedure options {} p b) u f u') :
    ∃ body w, Yields (Lower.lowerProcedure (surroundings options p u) b) (startOf p u) body w ∧ f = ⟨w.frame, body⟩ ∧
      u' = { table := u.table.setMethod p.classId p.methodId w.method, supply := w.supply, journal := w.journal } := by
  unfold Yields at h
  rw [run_lowerProcedure] at h
  rcases hbody : (Lower.lowerProcedure (surroundings options p u) b).run.run (startOf p u) with ⟨_ | body, w⟩
  · rw [hbody] at h
    cases h
  · rw [hbody] at h
    cases h
    exact ⟨body, w, hbody, rfl, rfl⟩

theorem starting_startOf {place : Place} {b : Lower.Body} (hdeclared : Declared b place.method) (u : UnitWork) :
    Starting b (startOf place u) ∧
      (startOf place u).frame.formals = (List.range b.formals.length).map (fun i => Frame.slot (i + 1)) ∧
      (startOf place u).frame.name = procedureLabel place.cls.name place.method.name :=
  starting_of_declared hdeclared _ _ _ rfl

theorem lowerProcedure_compiles {place : Place} (hplace : findPlace u.table q.cls q.name = .ok place)
    (hdeclared : Declared q.body place.method)
    (h : Yields (lowerProcedure options {} place q.body) u f u') :
    ∃ m, Compiled (options.linkage.linkName .println) q m f ∧ Binds q m u u' := by
  obtain ⟨body, w, hbody, rfl, rfl⟩ := yields_lowerProcedure h
  obtain ⟨hcls, hmethod⟩ := findPlace_names hplace
  obtain ⟨hstart, hformals, hname⟩ := starting_startOf hdeclared u
  have hfinished := hstart.lowerProcedure rfl hbody
  obtain ⟨inner, hlabels, hperm⟩ := hfinished.labels
  have hframe : w.frame.name = (startOf place u).frame.name ∧ w.frame.formals = (startOf place u).frame.formals := by
    rw [hfinished.frame]
    exact ⟨rfl, rfl⟩
  refine ⟨w.method, ⟨?_, ?_, ?_, ?_, hfinished.count, ⟨_, hfinished.settled.within⟩, hfinished.settled.parameters,
    hfinished.settled.locals, ?_⟩, ?_⟩
  · rw [← hcls, ← hmethod]
    exact hframe.1.trans hname
  · exact hframe.2.trans hformals
  · exact hfinished.code
  · change body.labels.Nodup
    rw [hlabels]
    exact nodup_procedure_labels hname hperm
  · intro v hv
    rcases List.mem_append.1 hv with hv | hv
    · exact hfinished.settled.homed v hv
    · exact hfinished.settled.bound v hv
  · exact method?_setMethod hplace hfinished.name

/-! ## Many procedures -/

/-- A procedure that is declared and not lowered yet. -/
def Ready (u : UnitWork) (q : Procedure) : Prop :=
  ∃ m, u.table.method? q.cls q.name = some m ∧ Declared q.body m

/-- Only the journal differs. -/
def Same (u u' : UnitWork) : Prop := u'.table = u.table ∧ u'.supply = u.supply

theorem Same.trans (h : Same u u') (h' : Same u' u'') : Same u u'' := ⟨h'.1.trans h.1, h'.2.trans h.2⟩

/-- The procedures are lowered in order, each at its place in the table. The next one goes on with the
table and the supply that the one before left. -/
inductive Chain (options : Options) (At : Procedure → Place → Prop) :
    (qs : List Procedure) → (u : UnitWork) → (fs : List Fragment) → (u' : UnitWork) → Prop
  | nil {v v'} : Same v v' → Chain options At [] v [] v'
  | cons {r qs v v₁ v₂ v' g fs place} :
    findPlace v.table r.cls r.name = .ok place → At r place → Same v v₁ →
      Yields (lowerProcedure options {} place r.body) v₁ g v₂ → Chain options At qs v₂ fs v' →
      Chain options At (r :: qs) v (g :: fs) v'

variable {fs fs' : List Fragment} {qs qs' : List Procedure} {At : Procedure → Place → Prop}

namespace Chain

theorem of_same (h : Chain options At qs u' fs u'') (hsame : Same u u') : Chain options At qs u fs u'' := by
  cases h with
  | nil h => exact .nil (hsame.trans h)
  | cons hplace hat h hyields hrest =>
    rw [hsame.1] at hplace
    exact .cons hplace hat (hsame.trans h) hyields hrest

theorem append (h : Chain options At qs u fs u') (h' : Chain options At qs' u' fs' u'') :
    Chain options At (qs ++ qs') u (fs ++ fs') u'' := by
  induction h with
  | nil hsame => exact h'.of_same hsame
  | cons hplace hat hsame hyields _ ih => exact .cons hplace hat hsame hyields (ih h')

/-- Each procedure meets the method that was declared for it, because none before it has its names. -/
theorem declared (h : Chain options (fun _ _ => True) qs u fs u') (hready : ∀ q ∈ qs, Ready u q)
    (hnodup : (qs.map Procedure.key).Nodup) :
    Chain options (fun q place => Declared q.body place.method) qs u fs u' := by
  induction h with
  | nil hsame => exact .nil hsame
  | @cons q qs u u₁ u₂ u' f fs place hplace _ hsame hyields _ ih =>
    obtain ⟨m, hm, hdeclared⟩ := hready q List.mem_cons_self
    rw [method?_findPlace hplace] at hm
    cases hm
    rw [List.map_cons, List.nodup_cons] at hnodup
    have hplace' : findPlace u₁.table q.cls q.name = .ok place := by rw [hsame.1, hplace]
    -- Nothing but the method of `q` is bound, so the others are found as they were declared.
    obtain ⟨m', -, hbinds⟩ := lowerProcedure_compiles hplace' hdeclared hyields
    refine .cons hplace hdeclared hsame hyields (ih (fun q' hq' => ?_) hnodup.2)
    obtain ⟨m, hm, hdeclared'⟩ := hready q' (List.mem_cons_of_mem _ hq')
    refine ⟨m, ?_, hdeclared'⟩
    rw [hbinds, if_neg, hsame.1, hm]
    intro heq
    exact hnodup.1 (heq ▸ List.mem_map_of_mem hq')

theorem compiles (h : Chain options (fun q place => Declared q.body place.method) qs u fs u')
    (hnodup : (qs.map Procedure.key).Nodup) :
    List.Forall₂ (fun q f => ∃ m, u'.table.method? q.cls q.name = some m ∧
      Compiled (options.linkage.linkName .println) q m f) qs fs ∧
    ∀ cls name, (cls, name) ∉ qs.map Procedure.key → u'.table.method? cls name = u.table.method? cls name := by
  induction h with
  | nil hsame => exact ⟨.nil, fun _ _ _ => by rw [hsame.1]⟩
  | @cons q qs u u₁ u₂ u' f fs place hplace hdeclared hsame hyields _ ih =>
    rw [List.map_cons, List.nodup_cons] at hnodup
    have hplace' : findPlace u₁.table q.cls q.name = .ok place := by rw [hsame.1, hplace]
    obtain ⟨m, hcompiled, hbinds⟩ := lowerProcedure_compiles hplace' hdeclared hyields
    obtain ⟨hrest, hothers⟩ := ih hnodup.2
    refine ⟨.cons ⟨m, ?_, hcompiled⟩ hrest, fun cls name hmem => ?_⟩
    · exact (hothers _ _ hnodup.1).trans ((hbinds _ _).trans (if_pos rfl))
    · rw [List.map_cons, List.mem_cons, not_or] at hmem
      rw [hothers cls name hmem.2, hbinds, if_neg hmem.1, hsame.1]

end Chain

/-! ## Programs -/

theorem same_of_note {e : Event} {x : Unit} (h : Yields (note e) u x u') : Same u u' := by
  obtain ⟨-, rfl⟩ := Prod.mk.inj (yields_modifyGet.1 h)
  exact ⟨rfl, rfl⟩

theorem chain_one {e : Event} (h : Yields (do
      let place ← findPlace (← get).table q.cls q.name
      note e
      lowerProcedure options {} place q.body : LowerUnit Fragment) u f u') :
    Chain options (fun _ _ => True) [q] u [f] u' := by
  simp only [yields_bind, yields_get, yields_liftExcept] at h
  obtain ⟨_, _, ⟨rfl, rfl⟩, place, _, ⟨hplace, rfl⟩, _, u₁, hnote, h⟩ := h
  exact .cons hplace trivial (same_of_note hnote) h (.nil ⟨rfl, rfl⟩)

theorem chain_methods {cls : String} (ds : List MethodDecl) {u u' : UnitWork} {fs : List Fragment}
    (h : Yields (ds.mapM (lowerMethod options {} cls)) u fs u') :
    Chain options (fun _ _ => True) (ds.map (·.procedure cls)) u fs u' := by
  induction ds generalizing u fs with
  | nil =>
    obtain ⟨rfl, rfl⟩ := yields_mapM_nil.1 h
    exact .nil ⟨rfl, rfl⟩
  | cons d rest ih =>
    obtain ⟨f, u₁, fs', hf, hfs, rfl⟩ := yields_mapM_cons.1 h
    have hfirst : Chain options _ [d.procedure cls] u [f] u₁ := chain_one hf
    exact hfirst.append (ih hfs)

theorem chain_classes (ds : List ClassDecl) {u u' : UnitWork} {fss : List (List Fragment)}
    (h : Yields (ds.mapM (lowerClass options {})) u fss u') :
    Chain options (fun _ _ => True) (ds.flatMap ClassDecl.procedures) u fss.flatten u' := by
  induction ds generalizing u fss with
  | nil =>
    obtain ⟨rfl, rfl⟩ := yields_mapM_nil.1 h
    exact .nil ⟨rfl, rfl⟩
  | cons d rest ih =>
    obtain ⟨fs, u₁, fss', hfs, hfss, rfl⟩ := yields_mapM_cons.1 h
    obtain ⟨_, u₂, hnote, hfs⟩ := yields_bind.1 hfs
    exact ((chain_methods d.methods hfs).of_same (same_of_note hnote)).append (ih hfss)

theorem same_of_dumps {format : DumpFormat} (fs : List Fragment) {u u' : UnitWork} {x : PUnit}
    (h : Yields (fs.forM (noteDump format)) u x u') : Same u u' := by
  induction fs generalizing u with
  | nil =>
    obtain ⟨-, rfl⟩ := yields_pure.1 h
    exact ⟨rfl, rfl⟩
  | cons f rest ih =>
    obtain ⟨_, u₁, hfirst, hrest⟩ := yields_bind.1 h
    obtain ⟨text, u₂, htext, hnote⟩ := yields_bind.1 hfirst
    obtain ⟨-, rfl⟩ := Prod.mk.inj (yields_modifyGet.1 htext)
    have hsame := (same_of_note hnote).trans (ih hrest)
    exact hsame

theorem chain_program {p : Program} (h : Yields (lowerProgram options {} p) u fs u') :
    Chain options (fun _ _ => True) p.procedures u fs u' := by
  simp only [lowerProgram, yields_bind] at h
  obtain ⟨f, u₁, hmain, fss, u₂, hclasses, h⟩ := h
  have hfirst : Chain options _ [p.main.procedure] u [f] u₁ := chain_one hmain
  have hall := hfirst.append (chain_classes p.classes hclasses)
  split at h
  next format _ =>
    simp only [yields_bind, yields_pure] at h
    obtain ⟨_, u₃, hdumps, rfl, rfl⟩ := h
    have hdumped : Chain options (fun _ _ => True) [] u₂ [] u₃ := .nil (same_of_dumps _ hdumps)
    have hwhole := hall.append hdumped
    rw [List.append_nil, List.append_nil] at hwhole
    exact hwhole
  next =>
    obtain ⟨rfl, rfl⟩ := yields_pure.1 h
    exact hall

end LowerUnit

open LowerUnit (Chain)

variable {p : Program} {options : Options} {fs : List Fragment}

theorem lower_chain {t : Table} (h : (lower p t options).1 = .ok fs) :
    Chain options (fun _ _ => True) p.procedures { table := t } fs (lower p t options).2 :=
  LowerUnit.chain_program (Prod.ext h rfl)

theorem lower_declared (hdeclare : (declare p).2 = []) (hlower : (lower p (declare p).1 options).1 = .ok fs) :
    Chain options (fun q place => Declared q.body place.method) p.procedures { table := (declare p).1 } fs
      (lower p (declare p).1 options).2 := by
  have houtline := declare_outline hdeclare
  exact (lower_chain hlower).declared (fun q hq => houtline.declared hq) houtline.nodup_keys

theorem lower_compiles (hdeclare : (declare p).2 = []) (hlower : (lower p (declare p).1 options).1 = .ok fs) :
    List.Forall₂ (fun q f => ∃ m, (lower p (declare p).1 options).2.table.method? q.cls q.name = some m ∧
      Compiled (options.linkage.linkName .println) q m f) p.procedures fs :=
  ((lower_declared hdeclare hlower).compiles (declare_outline hdeclare).nodup_keys).1

end Lowering
