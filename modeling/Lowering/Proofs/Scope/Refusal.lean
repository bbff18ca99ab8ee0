import Lowering.Proofs.Lowered.Refusal
import Lowering.Proofs.Scope.Body

/-!
# Refusals within scopes

In settled work every name of the scopes has a home. So a procedure is refused only for what its source
says: no variable is found unbound, and every block that is entered can be left.
-/

namespace Lowering

open Lowering.Tree (Label Stm)
open Lowering.Source (VarDecl Stmt namesOf)
open Lower (Sees careful_draw careful_resolve careful_lowerExpr careful_lowerValue careful_noted careful_inBlock)
open Lowered (Stems Tests)

variable {L P : List Slot} {w w' : Work} {env : Surroundings} {scopes : Scopes} {ok : Bool}

/-! ## Visible names -/

namespace Scopes

/-- The names that are visible. -/
def names (scopes : Scopes) : List String := scopes.flatMap (List.map Prod.fst)

theorem mem_names {x : String} : x ∈ scopes.names ↔ ∃ n, scopes.slot? x = some n := by
  rw [← Option.isSome_iff_exists, slot?, List.findSome?_isSome_iff, names, List.mem_flatMap]
  refine exists_congr fun scope => and_congr_right fun _ => ?_
  rw [List.lookup_isSome_iff, List.mem_map]
  exact exists_congr fun y => and_congr_right fun _ => by rw [beq_iff_eq, eq_comm]

theorem names_cons (first : Nat) (ds : List VarDecl) :
    Scopes.names (numbered first ds :: scopes) = namesOf ds ++ scopes.names := by
  rw [names, List.flatMap_cons, map_fst_numbered]
  rfl

/-- All numbers are those of the first `n` homes. -/
def Homed (scopes : Scopes) (n : Nat) : Prop := ∀ scope ∈ scopes, ∀ y ∈ scope, 1 ≤ y.2 ∧ y.2 ≤ n

theorem Homed.mono {m n : Nat} (h : scopes.Homed m) (hle : m ≤ n) : scopes.Homed n := by
  intro scope hscope y hy
  have := h scope hscope y hy
  omega

theorem homed_numbered {first n : Nat} {ds : List VarDecl} (h : scopes.Homed n) (hfirst : 1 ≤ first)
    (hle : first + ds.length ≤ n + 1) : Scopes.Homed (numbered first ds :: scopes) n := by
  refine List.forall_mem_cons.2 ⟨fun y hy => ?_, h⟩
  induction ds generalizing first with
  | nil => cases hy
  | cons d rest ih =>
    simp only [List.length_cons] at hle
    rcases List.mem_cons.1 hy with rfl | hy
    · exact ⟨hfirst, by omega⟩
    · exact ih (by omega) (by omega) hy

theorem Homed.slot? {n k : Nat} {x : String} (h : scopes.Homed n) (hx : scopes.slot? x = some k) : 1 ≤ k ∧ k ≤ n := by
  obtain ⟨scope, hscope, hlookup⟩ := List.exists_of_findSome?_eq_some hx
  obtain ⟨before, after, rfl, -⟩ := List.lookup_eq_some_iff.1 hlookup
  exact h _ hscope (x, k) (by simp)

end Scopes

theorem Lower.Body.names_scopes (b : Lower.Body) : b.scopes.names = b.visible := by
  rw [Lower.Body.scopes, Scopes.names_cons, Scopes.names_cons, Scopes.names, List.flatMap_nil, List.append_nil,
    Lower.Body.visible]

/-! ## Standing in scopes -/

/-- Settled work in the midst of scopes, all names of which have homes. -/
structure Standing (L P : List Slot) (scopes : Scopes) (w : Work) : Prop where
  settled : Settled L P w
  scope : InScope L P w.method.blocks scopes
  homed : scopes.Homed w.frame.locals.length

namespace Standing

theorem after {j n : Nat} {a : List Label} {p : Frame → Scopes → Prop} (h : Standing L P scopes w)
    (hl : Lowers L P w w' j n a p) : Standing L P scopes w' := by
  refine ⟨hl.settled, by rw [hl.advance.blocks_eq]; exact h.scope, h.homed.mono ?_⟩
  have := hl.advance.length_eq
  omega

theorem place (h : Standing L P scopes w) {x : String} (hx : x ∈ scopes.names) : ∃ c, Lower.placeIn w x = some c := by
  obtain ⟨n, hn⟩ := Scopes.mem_names.1 hx
  have hbound := h.homed.slot? hn
  rw [h.settled.placeIn_eq h.scope, Frame.place?, hn, Option.bind_some, Frame.home?,
    List.getElem?_eq_getElem (by omega)]
  exact ⟨_, rfl⟩

theorem sees (h : Standing L P scopes w) : Sees scopes.names w := by
  refine ⟨fun x => h.place, fun x v hv hnone => ?_⟩
  have hslot := h.scope.slot? w.method h.settled.locals h.settled.parameters x
  have hlookup : (w.method.local? x).or (w.method.parameter? x) =
      (w.method.blocks.findSome? (w.method.localIn? x)).or (w.method.parameter? x) := rfl
  rw [← hlookup, hv] at hslot
  obtain ⟨c, hc⟩ := h.place (Scopes.mem_names.2 ⟨_, hslot.symm⟩)
  simp [Lower.placeIn, hv, hnone] at hc

end Standing

/-! ## Locals -/

theorem careful_alloc : Careful ok (Lower.alloc env) w fun _ => True :=
  ⟨fun _ _ _ => trivial, fun _ h => absurd h not_stops_modifyGet⟩

theorem careful_set {w₁ : Work} : Careful ok (set w₁ : Lower PUnit) w fun _ => True :=
  ⟨fun _ _ _ => trivial, fun _ h => absurd h not_stops_set⟩

theorem careful_lowerLocal {d : VarDecl} {v : Variable} (henv : env.storage.localsEscape = false)
    (hv : w.method.local? d.name.val = some v) : Careful ok (Lower.lowerLocal env d) w (Stems ok) := by
  unfold Lower.lowerLocal
  refine careful_alloc.bind fun a w₁ ha _ => .bind .get fun _ _ hget _ => ?_
  obtain ⟨rfl, rfl⟩ := (Lower.yields_alloc henv).1 ha
  obtain ⟨rfl, rfl⟩ := yields_get.1 hget
  have hbind : w.housing.method.bindLocal? d.name.val (.inReg (Tree.nextTemp w.supply)) = some { w.method with
      locals := Method.setAccess v.index (.inReg (Tree.nextTemp w.supply)) w.method.locals } := by
    change (w.method.local? d.name.val).map _ = _
    rw [hv]
    rfl
  rw [hbind]
  exact careful_set.bind fun _ _ _ _ => Lower.careful_framePointer.bind fun _ _ _ _ => .pure (.test .value)

theorem Settled.careful_locals (henv : env.storage.localsEscape = false) (ds : List VarDecl) {w : Work}
    {b : Block} {outer : List Block} {scope : List (String × Nat)} (h : Settled L P w)
    (hblocks : w.method.blocks = b :: outer) (hscope : ∀ x, (findSlot L x b).map Slot.index = scope.lookup x)
    (hnext : ∀ y ∈ numbered (w.frame.locals.length + 1) ds, scope.lookup y.1 = some y.2) :
    Careful ok (ds.mapM (Lower.lowerLocal env)) w fun ls => ∀ l ∈ ls, Stems ok l := by
  induction ds generalizing w with
  | nil =>
    rw [List.mapM_nil]
    exact .pure nofun
  | cons d rest ih =>
    -- The local has the next number, so lookup finds it and it can be bound.
    have hindex := h.index_local? hblocks ((hscope _).trans (hnext _ List.mem_cons_self))
    obtain ⟨v, hv, -⟩ := Option.map_eq_some_iff.1 hindex
    rw [List.mapM_cons]
    refine (careful_lowerLocal henv hv).bind fun l w₁ hl hstems => ?_
    have hfirst := h.lowerLocal henv hl hindex
    have hlength := hfirst.advance.length_eq
    refine (ih hfirst.settled (hfirst.advance.blocks_eq.trans hblocks) fun y hy => ?_).bind fun ls _ _ hls =>
      .pure (List.forall_mem_cons.2 ⟨hstems, hls⟩)
    rw [hlength] at hy
    exact hnext y (List.mem_cons_of_mem _ hy)

/-! ## Statements -/

theorem Standing.careful_test {e : Source.Expr} (h : Standing L P scopes w)
    (hok : ok = true → e.isLowerable scopes.names = true) : Careful ok (Lower.lowerExpr env e) w (Tests ok) :=
  ((careful_lowerExpr e h.sees).weaken hok).imp fun _ htests => htests.weaken hok

theorem Standing.careful_value {e : Source.Expr} (h : Standing L P scopes w)
    (hok : ok = true → e.isLowerable scopes.names = true) : Careful ok (Lower.lowerValue env e) w fun _ => True :=
  (careful_lowerValue e h.sees).weaken hok

theorem Standing.careful_target {x : String} (h : Standing L P scopes w)
    (hok : ok = true → scopes.names.contains x = true) : Careful ok (Lower.resolve env x) w (Tests ok) :=
  ((careful_resolve h.sees x).weaken hok).imp fun _ htests => htests.weaken hok

theorem Settled.standing {locals : List VarDecl} {declared : List Lowered} {b : Block} {outer : List Block}
    (henv : env.storage.localsEscape = false) (h : Settled L P w) (hblocks : w.method.blocks = b :: outer)
    (hscope : InScope L P outer scopes) (hhomed : scopes.Homed w.frame.locals.length)
    (hlocals : BlockFound L b (w.frame.locals.length + 1) locals)
    (hdeclared : Yields (locals.mapM (Lower.lowerLocal env)) w declared w') :
    Standing L P (numbered (w.frame.locals.length + 1) locals :: scopes) w' ∧ w'.method.blocks = b :: outer ∧
      w'.method.nextBlock.next = w.method.nextBlock.next ∧
      w'.frame.locals.length + 1 = w.frame.locals.length + 1 + locals.length := by
  have hlowers := h.lowerLocals henv locals hdeclared hblocks hlocals.lookup fun _ => lookup_numbered hlocals.names
  have hlength := hlowers.advance.length_eq
  refine ⟨⟨hlowers.settled, ?_, ?_⟩, hlowers.advance.blocks_eq.trans hblocks, hlowers.advance.next_eq, hlength⟩
  · rw [hlowers.advance.blocks_eq, hblocks]
    exact .block hlocals.lookup hscope
  · exact Scopes.homed_numbered (hhomed.mono (by omega)) (by omega) (by omega)

mutual
theorem Standing.careful_stmt (henv : env.storage.localsEscape = false) (st : Stmt) {w : Work} {scopes : Scopes}
    (h : Standing L P scopes w) (hopen : w.method.blocks ≠ [])
    (hfound : st.Found L w.method.nextBlock.next (w.frame.locals.length + 1)) :
    Careful (st.isLowerable scopes.names) (Lower.lowerStmt env st) w (Stems (st.isLowerable scopes.names)) := by
  cases st with
  | block site locals body =>
    have hentered : Settled L P w.entering := h.settled.of_same rfl rfl rfl le_rfl
    rw [Lower.lowerStmt]
    refine careful_noted (careful_inBlock ?_ fun l w' hl => ?_)
    · refine (hentered.careful_locals henv locals rfl hfound.1.lookup fun _ => lookup_numbered hfound.1.names).bind
        fun declared w₁ hdeclared hlocals => ?_
      obtain ⟨hstanding, hblocks, hnext, hlength⟩ := hentered.standing henv rfl h.scope h.homed hfound.1 hdeclared
      have hbody := hstanding.careful_stmts henv body (by simp [hblocks]) (by rw [hnext, hlength]; exact hfound.2)
      rw [Scopes.names_cons] at hbody
      exact hbody.bind fun run w₂ _ hrun => careful_draw
        (Lowered.careful_fold (List.forall_mem_append.2 ⟨hlocals, hrun⟩))
    -- The block is the innermost one again when its statements are done, so it can be left.
    · simp only [yields_bind, Lower.yields_draw] at hl
      obtain ⟨declared, w₁, hdeclared, run, w₂, hrun, s, hfold, rfl⟩ := hl
      have hcontents := hentered.lowerContents henv (fun _ _ _ => Settled.lowerStmts henv body) rfl hfound.1
        hfound.2 hdeclared hrun
      simp [hcontents.advance.blocks_eq, Work.entering, Method.enter]
  | ifThen site cond body =>
    rw [Lower.lowerStmt]
    refine careful_noted ((h.careful_test fun hok => (Bool.and_eq_true_iff.1 hok).1).bind fun c w₁ hc htests => ?_)
    have hcond := h.settled.lowerExpr hc
    have hbody := (h.after hcond).careful_stmt henv body (by rwa [hcond.advance.blocks_eq])
      (by rwa [hcond.advance.next_eq, hcond.advance.length_eq])
    exact (Lowered.careful_weaken hbody fun hok => (Bool.and_eq_true_iff.1 hok).2).bind fun b _ _ hb =>
      .pure (.ifThen htests hb)
  | ifElse site cond body otherwise =>
    have hparts : ∀ {a b c : Bool}, (a && (b && c)) = true → a = true ∧ b = true ∧ c = true := by simp
    rw [Lower.lowerStmt]
    refine careful_noted ((h.careful_test fun hok => (hparts hok).1).bind fun c w₁ hc htests => ?_)
    have hcond := h.settled.lowerExpr hc
    have hopen₁ : w₁.method.blocks ≠ [] := by rwa [hcond.advance.blocks_eq]
    have hfound₁ : body.Found L w₁.method.nextBlock.next (w₁.frame.locals.length + 1) := by
      rw [hcond.advance.next_eq, hcond.advance.length_eq]
      exact hfound.1
    have hbody := (h.after hcond).careful_stmt henv body hopen₁ hfound₁
    refine (Lowered.careful_weaken hbody fun hok => (hparts hok).2.1).bind fun b w₂ hb hstems => ?_
    have hboth := hcond.trans (hcond.settled.lowerStmt henv body hb hopen₁ hfound₁)
    have hotherwise := (h.after hboth).careful_stmt henv otherwise (by rwa [hboth.advance.blocks_eq]) (by
      rw [hboth.advance.next_eq, hboth.advance.length_eq, Nat.zero_add, Nat.zero_add]
      exact hfound.2)
    exact (Lowered.careful_weaken hotherwise fun hok => (hparts hok).2.2).bind fun o _ _ ho =>
      .pure (.ifElse htests hstems ho)
  | «while» site cond body =>
    rw [Lower.lowerStmt]
    refine careful_noted ((careful_draw Lowered.careful_label).bind fun test _ htest _ =>
      (careful_draw Lowered.careful_label).bind fun inside _ hinside _ =>
      (careful_draw Lowered.careful_label).bind fun exit _ hexit _ => ?_)
    simp only [Lower.yields_draw, yields_liftState] at htest hinside hexit
    obtain ⟨s₁, htest, rfl⟩ := htest
    obtain ⟨s₂, hinside, rfl⟩ := hinside
    obtain ⟨s₃, hexit, rfl⟩ := hexit
    have hlabels := (((Lowers.refl h.settled).label htest).label hinside).label hexit
    refine ((h.after hlabels).careful_test fun hok => (Bool.and_eq_true_iff.1 hok).1).bind fun c w₁ hc htests =>
      htests.toBranch.bind fun branch _ hbranch _ => ?_
    obtain ⟨-, rfl⟩ := yields_liftExcept.1 hbranch
    have hcond := hlabels.trans (hlabels.settled.lowerExpr hc)
    have hbody := (h.after hcond).careful_stmt henv body (by rwa [hcond.advance.blocks_eq])
      (by rwa [hcond.advance.next_eq, hcond.advance.length_eq])
    exact (Lowered.careful_weaken hbody fun hok => (Bool.and_eq_true_iff.1 hok).2).bind fun b _ _ hb =>
      (careful_draw hb.toStm).bind fun _ _ _ _ => .pure .effect
  | println site value =>
    rw [Lower.lowerStmt]
    exact careful_noted ((careful_lowerValue value h.sees).bind fun _ _ _ _ => .pure (.test .value))
  | assign site x value =>
    rw [Lower.lowerStmt]
    refine careful_noted ((h.careful_target fun hok => (Bool.and_eq_true_iff.1 hok).1).bind fun r w₁ hr htests => ?_)
    obtain ⟨rfl, -⟩ := Lower.yields_resolve hr
    cases htests with
    | value =>
      exact (h.careful_value fun hok => (Bool.and_eq_true_iff.1 hok).2).bind fun _ _ _ _ => .pure .effect
    | relation => exact .pure (.test .relation)
    -- The whole assignment is missing, and its value is not looked at.
    | missing hfalse => exact .pure (.test (.missing hfalse))
  | assignAt site x index value =>
    rw [Lower.lowerStmt]
    refine careful_noted ((h.careful_target fun hok => (Bool.and_eq_true_iff.1 hok).1).bind fun r w₁ hr htests => ?_)
    obtain ⟨rfl, -⟩ := Lower.yields_resolve hr
    cases htests with
    | value =>
      refine (h.careful_value fun hok => ?_).bind fun i w₂ hi _ => ?_
      · exact (Bool.and_eq_true_iff.1 (Bool.and_eq_true_iff.1 hok).2).1
      refine ((h.after (h.settled.lowerValue hi)).careful_value fun hok => ?_).bind fun _ _ _ _ => .pure .effect
      exact (Bool.and_eq_true_iff.1 (Bool.and_eq_true_iff.1 hok).2).2
    | relation => exact .pure (.test .relation)
    | missing hfalse => exact .pure (.test (.missing hfalse))

theorem Standing.careful_stmts (henv : env.storage.localsEscape = false) (stmts : List Stmt) {w : Work}
    {scopes : Scopes} (h : Standing L P scopes w) (hopen : w.method.blocks ≠ [])
    (hfound : Stmt.FoundAll L stmts w.method.nextBlock.next (w.frame.locals.length + 1)) :
    Careful (Stmt.areLowerable scopes.names stmts) (Lower.lowerStmts env stmts) w
      fun ls => ∀ l ∈ ls, Stems (Stmt.areLowerable scopes.names stmts) l := by
  cases stmts with
  | nil =>
    rw [Lower.lowerStmts]
    exact .pure nofun
  | cons st rest =>
    rw [Lower.lowerStmts]
    have hfirst := h.careful_stmt henv st hopen hfound.1
    refine (Lowered.careful_weaken hfirst fun hok => (Bool.and_eq_true_iff.1 hok).1).bind fun l w₁ hl hstems => ?_
    have hlowers := h.settled.lowerStmt henv st hl hopen hfound.1
    have hrest := (h.after hlowers).careful_stmts henv rest (by rwa [hlowers.advance.blocks_eq])
      (by rw [hlowers.advance.next_eq, hlowers.advance.length_eq]; exact hfound.2)
    have hok : Stmt.areLowerable scopes.names (st :: rest) = true → Stmt.areLowerable scopes.names rest = true :=
      fun hok => (Bool.and_eq_true_iff.1 hok).2
    refine (hrest.weaken hok).bind fun ls _ _ hls => .pure (List.forall_mem_cons.2 ⟨hstems, fun l' hl' => ?_⟩)
    exact (hls l' hl').weaken hok
end

/-! ## Bodies -/

theorem careful_lowerFormal {d : VarDecl} {v : Variable} {incoming : Access} (henv : env.storage.localsEscape = false)
    (hv : w.method.parameter? d.name.val = some v) (hincoming : v.access = some incoming) :
    Careful ok (Lower.lowerFormal env d) w (Stems ok) := by
  unfold Lower.lowerFormal
  refine careful_alloc.bind fun a w₁ ha _ => .bind .get fun _ _ hget _ => ?_
  obtain ⟨rfl, rfl⟩ := (Lower.yields_alloc henv).1 ha
  obtain ⟨rfl, rfl⟩ := yields_get.1 hget
  have hmethod : w.housing.method = w.method := rfl
  rw [hmethod, Method.bindParameter?, hv]
  simp only [Option.map_some, hincoming]
  exact careful_set.bind fun _ _ _ _ => Lower.careful_framePointer.bind fun _ _ _ _ => .pure (.test .value)

theorem Arriving.careful_formals (henv : env.storage.localsEscape = false) (ds : List VarDecl) {w : Work}
    (h : Arriving P w) (hcount : w.frame.locals.length + ds.length ≤ w.frame.formals.length)
    (hnext : ∀ y ∈ numbered (w.frame.locals.length + 1) ds, (P.find? (·.name == y.1)).map Slot.index = some y.2) :
    Careful ok (ds.mapM (Lower.lowerFormal env)) w fun ls => ∀ l ∈ ls, Stems ok l := by
  induction ds generalizing w with
  | nil =>
    rw [List.mapM_nil]
    exact .pure nofun
  | cons d rest ih =>
    have hfirst := hnext _ List.mem_cons_self
    have hindex := w.method.index_parameter? d.name.val
    rw [h.parameters, hfirst] at hindex
    obtain ⟨v, hv, hindex⟩ := Option.map_eq_some_iff.1 hindex
    have haccess := h.homed v (List.mem_of_find?_eq_some hv)
    rw [List.length_cons] at hcount
    rw [hindex, Nat.add_sub_cancel, List.getElem?_eq_none le_rfl, Option.none_or,
      List.getElem?_eq_getElem (by omega)] at haccess
    rw [List.mapM_cons]
    refine (careful_lowerFormal henv hv haccess).bind fun l w₁ hl hstems => ?_
    obtain ⟨hadvance, harriving, -, -⟩ := h.lowerFormal henv hl hfirst
    have hlength := hadvance.length_eq
    obtain ⟨_, hframe, -, -⟩ := hadvance.frame
    have hformals : w₁.frame.formals = w.frame.formals := by rw [hframe]
    refine (ih harriving (by rw [hformals]; omega) fun y hy => ?_).bind fun ls _ _ hls =>
      .pure (List.forall_mem_cons.2 ⟨hstems, hls⟩)
    rw [hlength] at hy
    exact hnext y (List.mem_cons_of_mem _ hy)

theorem Standing.careful_result {result : Option Source.Expr} (h : Standing L P scopes w)
    (hok : ok = true → result.all (·.isLowerable scopes.names) = true) :
    Careful ok (Lower.lowerResult env result) w fun ls => ∀ l ∈ ls, Stems ok l := by
  cases result with
  | none => exact .pure nofun
  | some e =>
    refine (h.careful_value hok).bind fun v _ _ _ => .bind .get fun _ _ _ _ => .pure fun l hl => ?_
    rw [List.mem_singleton.1 hl]
    exact .effect

theorem Starting.careful_body {b : Lower.Body} (henv : env.storage.localsEscape = false) (h : Starting b w)
    (hcount : b.formals.length ≤ w.frame.formals.length) :
    Careful b.isLowerable (Lower.lowerBody env b) w.entering (Stems b.isLowerable) := by
  have hroom : w.entering.frame.locals.length + b.formals.length ≤ w.entering.frame.formals.length := by
    simpa [Work.entering, h.empty] using hcount
  have hstmts : b.isLowerable = true → Stmt.areLowerable b.visible b.stmts = true :=
    fun hok => (Bool.and_eq_true_iff.1 hok).1
  unfold Lower.lowerBody
  refine (h.entered.careful_formals henv b.formals hroom h.nextFormal).bind fun formals w₁ hformals hf => ?_
  obtain ⟨-, hhoused, -⟩ := h.lowerFormals henv hformals
  obtain ⟨hblock, hall⟩ := h.found
  rw [← hhoused.length] at hblock
  refine (hhoused.settled.careful_locals henv b.locals hhoused.blocks hblock.lookup
    fun _ => lookup_numbered hblock.names).bind fun locals w₂ hlocals hl => ?_
  have hhomed : Scopes.Homed [numbered 1 b.formals] w₁.frame.locals.length :=
    Scopes.homed_numbered nofun le_rfl (by rw [hhoused.length, Nat.add_comm])
  obtain ⟨hstanding, hblocks, hnext, hlength⟩ :=
    hhoused.settled.standing henv hhoused.blocks Housed.inScope hhomed hblock hlocals
  have hnames : Scopes.names [numbered (w₁.frame.locals.length + 1) b.locals, numbered 1 b.formals] = b.visible := by
    rw [hhoused.length]
    exact b.names_scopes
  have hopen : w₂.method.blocks ≠ [] := by simp [hblocks]
  have hfound : Stmt.FoundAll b.localSlots.reverse b.stmts w₂.method.nextBlock.next (w₂.frame.locals.length + 1) := by
    rwa [hnext, hhoused.next, hlength, hhoused.length]
  have hrun := hstanding.careful_stmts henv b.stmts hopen hfound
  rw [hnames] at hrun
  refine (hrun.weaken hstmts).bind fun stmts w₃ hyields hs => ?_
  have hafter := hstanding.after (hstanding.settled.lowerStmts henv b.stmts hyields hopen hfound)
  refine (hafter.careful_result ?_).bind fun result w₄ _ hr => careful_draw (Lowered.careful_fold ?_)
  · rw [hnames]
    exact fun hok => (Bool.and_eq_true_iff.1 hok).2
  · simp only [List.forall_mem_append]
    exact ⟨⟨⟨hf, hl⟩, fun l hl => (hs l hl).weaken hstmts⟩, hr⟩

/-! ## Procedures -/

theorem careful_checkBalanced (h : w.method.blocks = []) : Careful ok Lower.checkBalanced w fun _ => True := by
  unfold Lower.checkBalanced
  refine .bind .get fun _ _ hget _ => ?_
  obtain ⟨rfl, rfl⟩ := yields_get.1 hget
  rw [if_neg (by simp [Method.depth, h])]
  exact .pure trivial

theorem Starting.careful_procedure {b : Lower.Body} (henv : env.storage.localsEscape = false) (h : Starting b w)
    (hcount : b.formals.length ≤ w.frame.formals.length) :
    Careful b.isLowerable (Lower.lowerProcedure env b) w fun _ => True := by
  unfold Lower.lowerProcedure
  refine (careful_checkBalanced h.blocks).bind fun _ _ hcheck _ => ?_
  obtain rfl := Lower.yields_checkBalanced hcheck
  have hblocks : ∀ l w₁, Yields (Lower.lowerBody env b) w.entering l w₁ → w₁.method.blocks = [⟨0⟩] := by
    intro l w₁ hl
    rw [(h.lowerBody henv hl).advance.blocks_eq]
    simp [Work.entering, Method.enter, h.blocks, h.nextBlock, Counter.draw]
  refine (careful_inBlock (h.careful_body henv hcount) fun l w₁ hl => by simp [hblocks l w₁ hl]).bind
    fun l w₂ hblock hstems => ?_
  obtain ⟨w₁, blk, method, hinside, hleave, rfl⟩ := Lower.yields_inBlock.1 hblock
  obtain ⟨outer, houter, rfl⟩ := Method.leave_eq_ok.1 hleave
  cases (hblocks l w₁ hinside).symm.trans houter
  refine (careful_checkBalanced rfl).bind fun _ _ _ _ => (careful_draw hstems.toStm).bind fun s _ _ _ =>
    .bind .get fun _ _ _ _ => (Lower.careful_note _).bind fun _ _ _ _ => .pure trivial

end Lowering
