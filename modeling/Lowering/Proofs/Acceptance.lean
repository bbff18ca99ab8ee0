import Lowering.Proofs.Scope.Refusal
import Lowering.Proofs.Scoping

/-!
# Which programs are lowered

Of the programs that are declared without a report, exactly those are lowered whose procedures can be
lowered by their source. All others are refused with an error that names what is wrong in the source.
-/

namespace Lowering

open Lowering.Tree (Temp Label Stm)
open Lowering.Source (VarDecl Stmt MethodDecl ClassDecl Program)

/-! ## Code comes from sources that can be lowered -/

section

variable {f : Frame} {println : String} {scopes : Scopes} {first : Nat} {place : String → Option Tree.Expr}
  {fresh : Temp → Prop} {visible : List String} {e : Source.Expr}

theorem ValueCode.isLowerable {c : Tree.Expr} (h : ValueCode place fresh e c)
    (hplace : ∀ x c, place x = some c → x ∈ visible) : e.isLowerable visible = true := by
  induction h with
  | literal h => simp [Source.Expr.isLowerable, h]
  | bool => rfl
  | ident h => simpa [Source.Expr.isLowerable] using hplace _ _ h
  | arithmetic hop _ _ hl hr =>
    simp [Source.Expr.isLowerable, hl, hr, Lower.isLazy_eq, hop]
  | comparison hop _ _ _ _ hl hr =>
    simp [Source.Expr.isLowerable, hl, hr, Lower.isLazy_eq, hop]
  | not _ h => exact h

theorem Frame.mem_names {x : String} {c : Tree.Expr} (h : f.place? scopes x = some c) : x ∈ scopes.names := by
  obtain ⟨n, hn, -⟩ := Option.bind_eq_some_iff.1 h
  exact Scopes.mem_names.2 ⟨n, hn⟩

theorem ValueCode.isLowerable_names {c : Tree.Expr} (h : ValueCode (f.place? scopes) fresh e c) :
    e.isLowerable scopes.names = true := h.isLowerable fun _ _ => Frame.mem_names

theorem BranchCode.isLowerable {yes no : Label} {st : Stm} (h : BranchCode (f.place? scopes) fresh yes no e st) :
    e.isLowerable scopes.names = true := by
  cases h with
  | comparison hop hl hr =>
    simp [Source.Expr.isLowerable, hl.isLowerable_names, hr.isLowerable_names,
      Lower.isLazy_eq, hop]
  | value h => exact h.isLowerable_names

mutual
theorem StmtCode.isLowerable {scopes : Scopes} {first : Nat} {st : Stmt} {c : Stm}
    (h : StmtCode f println scopes first st c) : st.isLowerable scopes.names = true := by
  cases h with
  | block _ hbody =>
    have := hbody.areLowerable
    rwa [Scopes.names_cons] at this
  | ifThen htest hbody => simp [Stmt.isLowerable, htest.isLowerable, hbody.isLowerable]
  | ifElse htest hbody hotherwise =>
    simp [Stmt.isLowerable, htest.isLowerable, hbody.isLowerable, hotherwise.isLowerable]
  | «while» htest hbody => simp [Stmt.isLowerable, htest.isLowerable, hbody.isLowerable]
  | println hvalue => exact hvalue.isLowerable_names
  | assign hplace hvalue => simp [Stmt.isLowerable, Frame.mem_names hplace, hvalue.isLowerable_names]
  | assignAt hplace hindex hvalue =>
    simp [Stmt.isLowerable, Frame.mem_names hplace, hindex.isLowerable_names, hvalue.isLowerable_names]

theorem StmtsCode.areLowerable {scopes : Scopes} {first : Nat} {stmts : List Stmt} {cs : List Stm}
    (h : StmtsCode f println scopes first stmts cs) : Stmt.areLowerable scopes.names stmts = true := by
  cases h with
  | nil => rfl
  | cons hst hrest => simp [Stmt.areLowerable, hst.isLowerable, hrest.areLowerable]
end

theorem BodyCode.isLowerable {b : Lower.Body} {c : Stm} (h : BodyCode f println b c) : b.isLowerable = true := by
  cases h with
  | mk _ _ hstmts hresult =>
    rw [Lower.Body.isLowerable, ← b.names_scopes, hstmts.areLowerable, Bool.true_and]
    generalize b.result = result at hresult
    cases hresult with
    | none => rfl
    | some hvalue => exact hvalue.isLowerable_names

end

/-! ## Units -/

namespace LowerUnit

variable {options : Options} {ok : Bool} {u u' : UnitWork} {q : Procedure} {qs qs' : List Procedure}
  {fs : List Fragment} {place : Place}

theorem stops_lowerProcedure {b : Lower.Body} {e : LowerError} (h : Stops (lowerProcedure options {} place b) u e) :
    Stops (Lower.lowerProcedure (surroundings options place u) b) (startOf place u) e := by
  unfold Stops at h ⊢
  rw [run_lowerProcedure] at h
  cases hbody : ((Lower.lowerProcedure (surroundings options place u) b).run.run (startOf place u)).1 with
  | error e' =>
    simp only [hbody] at h
    cases h
    rfl
  | ok body =>
    simp only [hbody] at h
    cases h

theorem careful_lowerProcedure {b : Lower.Body} (hdeclared : Declared b place.method) :
    Careful b.isLowerable (lowerProcedure options {} place b) u fun _ => True := by
  refine ⟨fun _ _ _ => trivial, fun e hstops => ?_⟩
  obtain ⟨hstart, hformals, -⟩ := starting_startOf hdeclared u
  have hcount : b.formals.length ≤ (startOf place u).frame.formals.length := by simp [hformals]
  exact (hstart.careful_procedure rfl hcount).stops e (stops_lowerProcedure hstops)

theorem careful_note (e : Event) : Careful ok (note e) u fun _ => True :=
  ⟨fun _ _ _ => trivial, fun _ h => absurd h not_stops_modifyGet⟩

theorem careful_one {e : Event} (h : Ready u q) : Careful q.body.isLowerable (do
      let place ← findPlace (← get).table q.cls q.name
      note e
      lowerProcedure options {} place q.body : LowerUnit Fragment) u fun _ => True := by
  obtain ⟨m, hm, hdeclared⟩ := h
  obtain ⟨place, hplace, rfl⟩ := findPlace_of_method? hm
  refine .bind .get fun _ _ hget _ => ?_
  obtain ⟨rfl, rfl⟩ := yields_get.1 hget
  refine (Careful.liftExcept hplace).bind fun _ _ _ hfound => (careful_note e).bind fun _ _ _ _ => ?_
  subst hfound
  exact careful_lowerProcedure hdeclared

/-- The procedures are declared, each under names of its own. If the unit is `ok`, all can be lowered. -/
structure Awaits (ok : Bool) (u : UnitWork) (qs : List Procedure) : Prop where
  ready : ∀ q ∈ qs, Ready u q
  nodup : (qs.map Procedure.key).Nodup
  lowerable : ok = true → ∀ q ∈ qs, q.body.isLowerable = true

namespace Awaits

theorem left (h : Awaits ok u (qs ++ qs')) : Awaits ok u qs :=
  ⟨fun q hq => h.ready q (List.mem_append_left _ hq), (List.nodup_append.1 (List.map_append ▸ h.nodup)).1,
    fun hok q hq => h.lowerable hok q (List.mem_append_left _ hq)⟩

theorem of_same (h : Awaits ok u qs) (hsame : Same u u') : Awaits ok u' qs := by
  refine ⟨fun q hq => ?_, h.nodup, h.lowerable⟩
  obtain ⟨m, hm, hdeclared⟩ := h.ready q hq
  exact ⟨m, by rw [hsame.1, hm], hdeclared⟩

theorem after (h : Awaits ok u (qs ++ qs')) (hchain : Chain options (fun _ _ => True) qs u fs u') :
    Awaits ok u' qs' := by
  have hnodup := h.nodup
  rw [List.map_append, List.nodup_append] at hnodup
  refine ⟨fun q hq => ?_, hnodup.2.1, fun hok q hq => h.lowerable hok q (List.mem_append_right _ hq)⟩
  obtain ⟨m, hm, hdeclared⟩ := h.ready q (List.mem_append_right _ hq)
  -- Only methods of `qs` are bound meanwhile, and none of `qs'` has the names of one of them.
  have hothers := ((hchain.declared h.left.ready hnodup.1).compiles hnodup.1).2
  refine ⟨m, (hothers _ _ fun hmem => ?_).trans hm, hdeclared⟩
  exact hnodup.2.2 _ hmem _ (List.mem_map_of_mem hq) rfl

end Awaits

theorem careful_methods {cls : String} (ds : List MethodDecl) {u : UnitWork}
    (h : Awaits ok u (ds.map (·.procedure cls))) :
    Careful ok (ds.mapM (lowerMethod options {} cls)) u fun _ => True := by
  induction ds generalizing u with
  | nil =>
    rw [List.mapM_nil]
    exact .pure trivial
  | cons d rest ih =>
    rw [List.map_cons] at h
    have hfirst : Careful (d.procedure cls).body.isLowerable (lowerMethod options {} cls d) u fun _ => True :=
      careful_one (h.ready _ List.mem_cons_self)
    rw [List.mapM_cons]
    refine (hfirst.weaken fun hok => h.lowerable hok _ List.mem_cons_self).bind fun f u₁ hf _ => ?_
    have hchain : Chain options (fun _ _ => True) [d.procedure cls] u [f] u₁ := chain_one hf
    exact (ih (h.after hchain)).bind fun _ _ _ _ => .pure trivial

theorem careful_classes (ds : List ClassDecl) {u : UnitWork} (h : Awaits ok u (ds.flatMap ClassDecl.procedures)) :
    Careful ok (ds.mapM (lowerClass options {})) u fun _ => True := by
  induction ds generalizing u with
  | nil =>
    rw [List.mapM_nil]
    exact .pure trivial
  | cons d rest ih =>
    rw [List.flatMap_cons] at h
    have hfirst : Careful ok (lowerClass options {} d) u fun _ => True :=
      (careful_note (.classStarted d.name.val)).bind fun _ _ hnote _ =>
        careful_methods d.methods (h.left.of_same (same_of_note hnote))
    rw [List.mapM_cons]
    refine hfirst.bind fun fs u₁ hfs _ => ?_
    obtain ⟨_, u₂, hnote, hfs⟩ := yields_bind.1 hfs
    have hchain := (chain_methods d.methods hfs).of_same (same_of_note hnote)
    exact (ih (h.after hchain)).bind fun _ _ _ _ => .pure trivial

theorem careful_dumps {format : DumpFormat} (fs : List Fragment) {u : UnitWork} :
    Careful ok (fs.forM (noteDump format)) u fun _ => True := by
  induction fs generalizing u with
  | nil => exact .pure trivial
  | cons f rest ih =>
    have hdump : Careful ok (noteDump format f) u fun _ => True :=
      .bind ⟨fun _ _ _ => trivial, fun _ h => absurd h not_stops_modifyGet⟩ fun _ _ _ _ => careful_note _
    exact hdump.bind fun _ _ _ _ => ih

theorem careful_program {p : Program} (h : Awaits ok u p.procedures) :
    Careful ok (lowerProgram options {} p) u fun _ => True := by
  have hmain : Careful p.main.procedure.body.isLowerable (lowerMain options {} p.main) u fun _ => True :=
    careful_one (h.ready _ List.mem_cons_self)
  unfold lowerProgram
  refine (hmain.weaken fun hok => h.lowerable hok _ List.mem_cons_self).bind fun f u₁ hf _ => ?_
  have hchain : Chain options (fun _ _ => True) [p.main.procedure] u [f] u₁ := chain_one hf
  have hrest : Awaits ok u₁ (p.classes.flatMap ClassDecl.procedures) := h.after hchain
  refine (careful_classes p.classes hrest).bind fun fss u₂ _ _ => ?_
  cases options.dumpFragments with
  | none => exact .pure trivial
  | some format => exact (careful_dumps _).bind fun _ _ _ _ => .pure trivial

end LowerUnit

/-! ## Programs -/

/-- All procedures can be lowered. In the main procedure the name of its argument is not visible. -/
def Source.Program.isLowerable (p : Program) : Bool := p.procedures.all (·.body.isLowerable)

theorem awaits_declare {p : Program} (hdeclare : (declare p).2 = []) :
    LowerUnit.Awaits p.isLowerable { table := (declare p).1 } p.procedures := by
  have houtline := declare_outline hdeclare
  exact ⟨fun q hq => houtline.declared hq, houtline.nodup_keys, fun hok => List.all_eq_true.1 hok⟩

theorem isLowerable_of_ok {p : Program} {options : Options} {fs : List Fragment} (hdeclare : (declare p).2 = [])
    (hlower : (lower p (declare p).1 options).1 = .ok fs) : p.isLowerable = true := by
  refine List.all_eq_true.2 fun q hq => ?_
  obtain ⟨f, -, m, -, hcompiled⟩ := exists_of_forall₂ (lower_compiles hdeclare hlower) hq
  exact hcompiled.code.isLowerable

/-- Of the programs declared without a report those are lowered that can be, procedure by procedure.
The others are refused for what their source says. -/
theorem lower_iff_isLowerable (p : Program) (options : Options) (hdeclare : (declare p).2 = []) :
    ((∃ fs, (lower p (declare p).1 options).1 = .ok fs) ↔ p.isLowerable = true) ∧
    (∀ fs, (lower p (declare p).1 options).1 = .ok fs → List.Forall₂ (fun q f =>
      f.frame.name = LowerUnit.procedureLabel q.cls q.name ∧
        BodyCode f.frame (options.linkage.linkName .println) q.body f.body) p.procedures fs) ∧
    ∀ e, (lower p (declare p).1 options).1 = .error e → Refusal e := by
  have hrefused : ∀ e, (lower p (declare p).1 options).1 = .error e → Refuses p.isLowerable e :=
    (LowerUnit.careful_program (awaits_declare hdeclare)).stops
  refine ⟨⟨fun ⟨fs, hfs⟩ => isLowerable_of_ok hdeclare hfs, fun hok => ?_⟩, fun fs hfs => ?_,
    fun e he => (hrefused e he).2⟩
  · cases hlower : (lower p (declare p).1 options).1 with
    | ok fs => exact ⟨fs, rfl⟩
    | error e => exact absurd hok (by simp [(hrefused e hlower).1])
  · refine (lower_compiles hdeclare hfs).imp fun q f hcompiled => ?_
    obtain ⟨m, -, hcompiled⟩ := hcompiled
    exact ⟨hcompiled.name, hcompiled.code⟩

/-- A field that is read, and a result whose parts are never looked at. -/
def unsupported : Program where
  main := {
    name := { val := "Main" }, method := { val := "main" }, args := { val := "a" }, locals := [intDecl "x"]
    body := [.assign {} "x" (.literal "1")] }
  classes := [{
    name := { val := "A" }, extends? := none, fields := [intDecl "f"]
    methods := [{
      returns := { val := .boolean }, name := { val := "run" }, formals := [intDecl "x"], locals := []
      body := [.ifThen {} (.ident "f") (.println {} (.ident "x"))]
      result := .binary .and (.ident "y") (.literal "") }] }]

theorem lower_iff_isLowerable_both : (declare shadowing).2 = [] ∧
    (∃ fs, (lower shadowing (declare shadowing).1 { linkage := .jvm }).1 = .ok fs ∧
      List.Forall₂ (fun q f => f.frame.name = LowerUnit.procedureLabel q.cls q.name ∧
        BodyCode f.frame "java/io/PrintStream/println(I)V" q.body f.body) shadowing.procedures fs) ∧
    (declare unsupported).2 = [] ∧
      ∃ e, (lower unsupported (declare unsupported).1 { linkage := .jvm }).1 = .error e ∧ Refusal e := by
  have hshadowing : (declare shadowing).2 = [] := by decide +kernel
  have hunsupported : (declare unsupported).2 = [] := by decide +kernel
  obtain ⟨hiff, hcode, -⟩ := lower_iff_isLowerable shadowing { linkage := .jvm } hshadowing
  obtain ⟨hiff', -, hrefusal⟩ := lower_iff_isLowerable unsupported { linkage := .jvm } hunsupported
  obtain ⟨fs, hfs⟩ := hiff.2 (by decide +kernel)
  refine ⟨hshadowing, ⟨fs, hfs, hcode fs hfs⟩, hunsupported, ?_⟩
  cases hlower : (lower unsupported (declare unsupported).1 { linkage := .jvm }).1 with
  | ok fs => exact absurd (hiff'.1 ⟨fs, hlower⟩) (by decide +kernel)
  | error e => exact ⟨e, rfl, hrefusal e hlower⟩

end Lowering
