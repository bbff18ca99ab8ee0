import Lowering.Proofs.Linear.Flat
import Lowering.Proofs.Lowered.Agreement
import Lowering.Proofs.Scope.Body

/-!
# Every temp that is drawn stands in the code

Lowering draws a temp for the home of a variable or for the verdict of a comparison, and puts it into
the code in the same breath. Only then does it nest a statement in an expression. So code for which
no temp was drawn is flat.
-/

namespace Lowering

open Lowering.Tree (Temp Label Stm AllFlat nextTemp)
open Lowering.Source (VarDecl Stmt)
open Lower (DrawnIn placeIn)

/-! ## Temps of pieces -/

namespace Tree

theorem allFlat_parts {c : Stm} (h : c.isFlat = true) : AllFlat c.parts := by
  cases c with
  | seq a b => cases h
  | _ => exact List.forall_mem_singleton.2 h

theorem allFlat_parts_ofList {cs : List Stm} (h : ∀ c ∈ cs, AllFlat c.parts) : AllFlat (Stm.ofList cs).parts := by
  fun_induction Stm.ofList cs with
  | case1 => exact allFlat_parts rfl
  | case2 c => exact h c List.mem_cons_self
  | case3 c rest _ ih =>
    obtain ⟨hc, hrest⟩ := List.forall_mem_cons.1 h
    exact List.forall_mem_append.2 ⟨hc, ih hrest⟩

end Tree

namespace Lowered

/-- No statement stands inside an expression of the piece. -/
def Flat : Lowered → Prop
  | .value e => e.isFlat = true
  | .effect s => AllFlat s.parts
  | .ifThen cond body => cond.Flat ∧ body.Flat
  | .ifElse cond body otherwise => cond.Flat ∧ body.Flat ∧ otherwise.Flat
  | .relation _ left right => left.isFlat = true ∧ right.isFlat = true
  | .missing _ => True

/-- The statement has all temps of the piece, and it is a chain of flat statements if the piece is flat. -/
structure Becomes (l : Lowered) (st : Stm) : Prop where
  temps : ∀ t ∈ l.temps, t ∈ st.temps
  flat : l.Flat → AllFlat st.parts

variable {l : Lowered} {ls : List Lowered} {s s' : Supply} {st : Stm}

theorem becomes_toBranch {t f : Label} (h : l.toBranch t f = .ok st) : l.Becomes st := by
  cases l with
  | value e =>
    cases h
    refine ⟨by simp [Lowered.temps, Stm.temps, Tree.Expr.temps], fun hflat => Tree.allFlat_parts ?_⟩
    exact Bool.and_eq_true_iff.2 ⟨hflat, rfl⟩
  | relation op left right =>
    cases h
    exact ⟨fun _ h => h, fun hflat => Tree.allFlat_parts (Bool.and_eq_true_iff.2 hflat)⟩
  | effect _ | ifThen _ _ | ifElse _ _ _ | missing _ => cases h

theorem becomes_toStm (h : Yields l.toStm s st s') : s'.temps = s.temps ∧ l.Becomes st := by
  induction l generalizing s st s' with
  | value e =>
    obtain ⟨rfl, rfl⟩ := yields_toStm_value.1 h
    exact ⟨rfl, fun _ h => h, fun hflat => Tree.allFlat_parts hflat⟩
  | effect x =>
    obtain ⟨rfl, rfl⟩ := yields_toStm_effect.1 h
    exact ⟨rfl, fun _ h => h, fun hflat => hflat⟩
  | ifThen cond body _ ih =>
    obtain ⟨t, s₁, f, s₂, test, b, ht, hf, htest, hb, rfl⟩ := yields_toStm_ifThen.1 h
    obtain ⟨-, rfl⟩ := gives_label.1 ht
    obtain ⟨-, rfl⟩ := gives_label.1 hf
    obtain ⟨hsame, hbody⟩ := ih hb
    have hcond := becomes_toBranch htest
    refine ⟨hsame, fun u hu => ?_, fun hflat => Tree.allFlat_parts_ofList ?_⟩
    · have := hcond.temps u
      have := hbody.temps u
      simp only [Lowered.temps, List.mem_append, Stm.temps_ofList, List.flatMap_cons, List.flatMap_nil] at hu ⊢
      tauto
    · simp only [List.forall_mem_cons]
      exact ⟨hcond.flat hflat.1, Tree.allFlat_parts rfl, hbody.flat hflat.2, Tree.allFlat_parts rfl, by simp⟩
  | ifElse cond body otherwise _ ihb iho =>
    obtain ⟨t, s₁, f, s₂, join, s₃, test, b, s₄, o, ht, hf, hjoin, htest, hb, ho, rfl⟩ := yields_toStm_ifElse.1 h
    obtain ⟨-, rfl⟩ := gives_label.1 ht
    obtain ⟨-, rfl⟩ := gives_label.1 hf
    obtain ⟨-, rfl⟩ := gives_label.1 hjoin
    obtain ⟨hsame₁, hbody⟩ := ihb hb
    obtain ⟨hsame₂, hotherwise⟩ := iho ho
    have hcond := becomes_toBranch htest
    refine ⟨hsame₂.trans hsame₁, fun u hu => ?_, fun hflat => Tree.allFlat_parts_ofList ?_⟩
    · have := hcond.temps u
      have := hbody.temps u
      have := hotherwise.temps u
      simp only [Lowered.temps, List.mem_append, Stm.temps_ofList, List.flatMap_cons, List.flatMap_nil] at hu ⊢
      tauto
    · simp only [List.forall_mem_cons]
      exact ⟨hcond.flat hflat.1, Tree.allFlat_parts rfl, hbody.flat hflat.2.1, Tree.allFlat_parts rfl,
        Tree.allFlat_parts rfl, hotherwise.flat hflat.2.2, Tree.allFlat_parts rfl, by simp⟩
  | relation op left right =>
    obtain ⟨join, hjoin, rfl⟩ := yields_toStm_relation.1 h
    obtain ⟨-, rfl⟩ := gives_label.1 hjoin
    refine ⟨rfl, fun u hu => ?_, fun hflat => Tree.allFlat_parts_ofList ?_⟩
    · rw [Stm.temps_ofList, List.flatMap_cons]
      exact List.mem_append_left _ hu
    · simp only [List.forall_mem_cons]
      exact ⟨Tree.allFlat_parts (Bool.and_eq_true_iff.2 hflat), Tree.allFlat_parts rfl, by simp⟩
  | missing c => exact absurd h (not_yields_throw _)

theorem becomes_mapM {cs : List Stm} (h : Yields (ls.mapM toStm) s cs s') :
    s'.temps = s.temps ∧ List.Forall₂ Becomes ls cs := by
  induction ls generalizing s cs with
  | nil =>
    obtain ⟨rfl, rfl⟩ := yields_mapM_nil.1 h
    exact ⟨rfl, .nil⟩
  | cons l rest ih =>
    obtain ⟨c, s₁, cs', hc, hcs, rfl⟩ := yields_mapM_cons.1 h
    obtain ⟨hsame₁, hfirst⟩ := becomes_toStm hc
    obtain ⟨hsame₂, hrest⟩ := ih hcs
    exact ⟨hsame₂.trans hsame₁, .cons hfirst hrest⟩

theorem becomes_ofList {cs : List Stm} (h : List.Forall₂ Becomes ls cs) :
    (∀ t ∈ ls.flatMap temps, t ∈ (Stm.ofList cs).temps) ∧
      ((∀ l ∈ ls, l.Flat) → AllFlat (Stm.ofList cs).parts) := by
  rw [Stm.temps_ofList]
  constructor
  · induction h with
    | nil => simp
    | cons hfirst _ ih =>
      simp only [List.flatMap_cons, List.mem_append]
      exact fun t => Or.imp (hfirst.temps t) (ih t)
  · intro hflat
    refine Tree.allFlat_parts_ofList ?_
    induction h with
    | nil => simp
    | cons hfirst _ ih =>
      rw [List.forall_mem_cons] at hflat ⊢
      exact ⟨hfirst.flat hflat.1, ih hflat.2⟩

theorem fold_keeps (h : Yields (fold ls) s l s') :
    s'.temps = s.temps ∧ (∀ t ∈ ls.flatMap temps, t ∈ l.temps) ∧ ((∀ l ∈ ls, l.Flat) → l.Flat) := by
  unfold fold at h
  split at h
  next =>
    obtain ⟨rfl, rfl⟩ := yields_pure.1 h
    exact ⟨rfl, by simp, fun _ => rfl⟩
  next l =>
    obtain ⟨rfl, rfl⟩ := yields_pure.1 h
    exact ⟨rfl, by simp, fun hflat => hflat _ List.mem_cons_self⟩
  next =>
    simp only [yields_bind, yields_pure] at h
    obtain ⟨cs, _, hcs, rfl, rfl⟩ := h
    obtain ⟨hsame, hall⟩ := becomes_mapM hcs
    exact ⟨hsame, becomes_ofList hall⟩

end Lowered

/-! ## Temps of a work -/

/-- Neither the frame nor the next temp differs. -/
def SameTemps (w w' : Work) : Prop := w'.frame = w.frame ∧ w'.supply.temps = w.supply.temps

/-- From `w` to `w'` code comes about that has the temps `ts`. They include every temp that is drawn, new
locals of the frame are drawn temps, and if no temp is drawn, then `flat` holds. -/
structure Covers (w w' : Work) (ts : List Temp) (flat : Prop) : Prop where
  frame : w'.frame.fp = w.frame.fp ∧ w'.frame.rv = w.frame.rv
  locals : ∀ a ∈ w'.frame.locals, a ∈ w.frame.locals ∨ ∃ t, a = .inReg t ∧ DrawnIn w w' t
  le : w.supply.temps.next ≤ w'.supply.temps.next
  drawn : ∀ t, DrawnIn w w' t → t ∈ ts
  flat : w'.supply.temps.next = w.supply.temps.next → flat

variable {w w' w₁ w₂ : Work} {env : Surroundings} {ts ts' : List Temp} {flat flat' : Prop}

namespace Covers

theorem of_same (hsame : SameTemps w w') (hflat : flat) : Covers w w' ts flat where
  frame := by rw [hsame.1]; exact ⟨rfl, rfl⟩
  locals a ha := .inl (hsame.1 ▸ ha)
  le := by rw [hsame.2]
  drawn t ht := by
    unfold DrawnIn at ht
    rw [hsame.2] at ht
    omega
  flat _ := hflat

theorem trans (h : Covers w w₁ ts flat) (h' : Covers w₁ w₂ ts' flat') : Covers w w₂ (ts ++ ts') (flat ∧ flat') where
  frame := ⟨h'.frame.1.trans h.frame.1, h'.frame.2.trans h.frame.2⟩
  locals a ha := by
    rcases h'.locals a ha with ha | ⟨t, rfl, ht⟩
    · rcases h.locals a ha with ha | ⟨t, rfl, ht⟩
      · exact .inl ha
      · exact .inr ⟨t, rfl, ht.1, ht.2.trans_le h'.le⟩
    · exact .inr ⟨t, rfl, h.le.trans ht.1, ht.2⟩
  le := h.le.trans h'.le
  drawn t ht := by
    rcases Nat.lt_or_ge t.index w₁.supply.temps.next with hlt | hge
    · exact List.mem_append_left _ (h.drawn t ⟨ht.1, hlt⟩)
    · exact List.mem_append_right _ (h'.drawn t ⟨hge, ht.2⟩)
  flat heq := by
    have := h.le
    have := h'.le
    exact ⟨h.flat (by omega), h'.flat (by omega)⟩

theorem imp (h : Covers w w' ts flat) (htemps : ∀ t ∈ ts, t ∈ ts') (hflat : flat → flat') : Covers w w' ts' flat' :=
  { h with drawn := fun t ht => htemps t (h.drawn t ht), flat := fun heq => hflat (h.flat heq) }

theorem still (h : Covers w w₁ ts flat) (hsame : SameTemps w₁ w') : Covers w w' ts flat := by
  have hrest : Covers w₁ w' [] True := of_same hsame trivial
  exact (h.trans hrest).imp (by simp) And.left

theorem after (h : Covers w₁ w' ts flat) (hsame : SameTemps w w₁) : Covers w w' ts flat := by
  have hfirst : Covers w w₁ [] True := of_same hsame trivial
  exact (hfirst.trans h).imp (by simp) And.right

theorem one (hframe : w'.frame.fp = w.frame.fp ∧ w'.frame.rv = w.frame.rv)
    (hlocals : ∀ a ∈ w'.frame.locals, a ∈ w.frame.locals ∨ a = .inReg (nextTemp w.supply))
    (hnext : w'.supply.temps.next = w.supply.temps.next + 1) (hts : nextTemp w.supply ∈ ts) : Covers w w' ts flat where
  frame := hframe
  locals a ha := (hlocals a ha).imp_right fun heq =>
    ⟨_, heq, le_rfl, by rw [hnext]; exact Nat.lt_succ_self _⟩
  le := by omega
  drawn t ht := by
    have hnew : t = nextTemp w.supply := by
      unfold DrawnIn at ht
      exact congrArg Temp.mk (show t.index = w.supply.temps.next by omega)
    exact hnew ▸ hts
  flat heq := by omega

theorem home (method : Method) (hts : nextTemp w.supply ∈ ts) : Covers w { w.housing with method } ts flat := by
  refine one ⟨rfl, rfl⟩ (fun a ha => ?_) rfl hts
  simpa [Work.housing] using ha

end Covers

/-! ## Expressions -/

def CoversPiece (w w' : Work) (l : Lowered) : Prop := Covers w w' l.temps l.Flat

def CoversPieces (w w' : Work) (ls : List Lowered) : Prop := Covers w w' (ls.flatMap Lowered.temps) (∀ l ∈ ls, l.Flat)

theorem isFlat_of_isPlace {c : Tree.Expr} (h : IsPlace c) : c.isFlat = true := by
  obtain ⟨fp, _ | _, rfl⟩ := h <;> rfl

theorem covers_toExpr {e : Source.Expr} {place : String → Option Tree.Expr} {fresh : Temp → Prop} {l : Lowered}
    {c : Tree.Expr} {s : Supply} (h : CoversPiece w w' l) (hpiece : PieceCode place fresh e l)
    (hc : Yields l.toExpr w'.supply c s) : Covers w { w' with supply := s } c.temps (c.isFlat = true) := by
  cases hpiece with
  | value _ =>
    obtain ⟨rfl, rfl⟩ := Lowered.yields_toExpr_value.1 hc
    exact h
  | @relation _ _ _ _ a b _ _ _ =>
    obtain ⟨r, s₁, t, s₂, f, hr, ht, hf, rfl⟩ := Lowered.yields_toExpr_relation.1 hc
    obtain ⟨rfl, rfl⟩ := Tree.gives_temp.1 hr
    obtain ⟨-, rfl⟩ := gives_label.1 ht
    obtain ⟨-, rfl⟩ := gives_label.1 hf
    have hdrawn : Covers w' { w' with supply := w'.supply.temp.2.label.2.label.2 } [nextTemp w'.supply] False :=
      .one ⟨rfl, rfl⟩ (fun _ ha => .inl ha) rfl List.mem_cons_self
    refine (h.trans hdrawn).imp (fun u hu => ?_) fun hflat => hflat.2.elim
    rw [Lowered.mem_temps_verdict]
    exact (List.mem_append.1 hu).symm.imp_left List.mem_singleton.1
  | missing => exact absurd hc Lowered.not_yields_toExpr_missing

/-- Lowering the expression gives a piece that shows what was drawn. -/
def ExprCovers (env : Surroundings) (e : Source.Expr) : Prop :=
  ∀ w l w', Yields (Lower.lowerExpr env e) w l w' → CoversPiece w w' l

theorem ExprCovers.value {e : Source.Expr} {c : Tree.Expr} (h : ExprCovers env e)
    (hc : Yields (Lower.lowerValue env e) w c w') : Covers w w' c.temps (c.isFlat = true) := by
  obtain ⟨l, w₁, hl, hdraw⟩ := yields_bind.1 hc
  obtain ⟨s, hexpr, rfl⟩ := Lower.yields_draw.1 hdraw
  exact covers_toExpr (h _ _ _ hl) (Lower.lowerExpr_lowers e _ _ _ hl).2 hexpr

theorem exprCovers (e : Source.Expr) : ExprCovers env e := by
  intro w l w' h
  cases e with
  | binary op left right =>
    rw [Lower.lowerExpr] at h
    split at h
    next k hk =>
      obtain ⟨rfl, rfl⟩ := yields_pure.1 h
      exact .of_same ⟨rfl, rfl⟩ trivial
    next o ho =>
      obtain ⟨a, w₁, b, ha, hb, rfl⟩ := Lower.yields_operands.1 h
      have hboth := ((exprCovers left).value ha).trans ((exprCovers right).value hb)
      exact hboth.imp (fun _ ht => ht) Bool.and_eq_true_iff.2
    next o ho =>
      obtain ⟨a, w₁, b, ha, hb, rfl⟩ := Lower.yields_operands.1 h
      exact ((exprCovers left).value ha).trans ((exprCovers right).value hb)
  | not operand =>
    obtain ⟨piece, w₁, hpiece, hdraw⟩ := yields_bind.1 h
    obtain ⟨s, hnegate, rfl⟩ := Lower.yields_draw.1 hdraw
    obtain ⟨c, hc, rfl⟩ := Lowered.yields_negate.1 hnegate
    have hvalue : Yields (Lower.lowerValue env operand) w c { w₁ with supply := s } :=
      yields_bind.2 ⟨piece, w₁, hpiece, Lower.yields_draw.2 ⟨s, hc, rfl⟩⟩
    exact ((exprCovers operand).value hvalue).imp (fun _ ht => ht) fun hflat => Bool.and_eq_true_iff.2 ⟨rfl, hflat⟩
  | literal spelling =>
    rw [Lower.lowerExpr] at h
    split at h
    next v hv =>
      obtain ⟨rfl, rfl⟩ := yields_pure.1 h
      refine .of_same ⟨rfl, rfl⟩ ?_
      cases v <;> rfl
    next => exact absurd h (not_yields_throw _)
  | bool value =>
    obtain ⟨rfl, rfl⟩ := yields_pure.1 h
    exact .of_same ⟨rfl, rfl⟩ rfl
  | ident name =>
    obtain ⟨rfl, ⟨c, hc, rfl⟩ | ⟨k, rfl⟩⟩ := Lower.yields_resolve h
    · exact .of_same ⟨rfl, rfl⟩ (isFlat_of_isPlace (Lower.isPlace_placeIn hc))
    · exact .of_same ⟨rfl, rfl⟩ trivial
  | invoke _ _ _ | index _ _ | length _ | new _ | newArray _ | this =>
    obtain ⟨rfl, rfl⟩ := yields_pure.1 h
    exact .of_same ⟨rfl, rfl⟩ trivial

theorem covers_value {e : Source.Expr} {c : Tree.Expr} (h : Yields (Lower.lowerValue env e) w c w') :
    Covers w w' c.temps (c.isFlat = true) := (exprCovers e).value h

/-! ## Statements -/

theorem covers_local {d : VarDecl} {l : Lowered} (henv : env.storage.localsEscape = false)
    (h : Yields (Lower.lowerLocal env d) w l w') : CoversPiece w w' l := by
  obtain ⟨v, -, rfl, rfl⟩ := Lower.yields_lowerLocal henv h
  exact .home _ List.mem_cons_self

theorem covers_formal {d : VarDecl} {l : Lowered} (henv : env.storage.localsEscape = false)
    (h : Yields (Lower.lowerFormal env d) w l w') : CoversPiece w w' l := by
  obtain ⟨v, incoming, -, -, rfl, rfl⟩ := Lower.yields_lowerFormal henv h
  exact .home _ List.mem_cons_self

theorem CoversPieces.cons {l : Lowered} {ls : List Lowered} (h : CoversPiece w w₁ l) (h' : CoversPieces w₁ w' ls) :
    CoversPieces w w' (l :: ls) := (h.trans h').imp (fun _ ht => ht) List.forall_mem_cons.2

theorem CoversPieces.append {ls ls' : List Lowered} (h : CoversPieces w w₁ ls) (h' : CoversPieces w₁ w' ls') :
    CoversPieces w w' (ls ++ ls') := by
  refine (h.trans h').imp (fun t ht => ?_) List.forall_mem_append.2
  rwa [List.flatMap_append]

theorem CoversPieces.nil (w : Work) : CoversPieces w w [] := .of_same ⟨rfl, rfl⟩ (by simp)

theorem CoversPieces.fold {ls : List Lowered} {l : Lowered} {s : Supply} (h : CoversPieces w w' ls)
    (hfold : Yields (Lowered.fold ls) w'.supply l s) : CoversPiece w { w' with supply := s } l := by
  obtain ⟨hsame, htemps, hflat⟩ := Lowered.fold_keeps hfold
  exact (h.imp htemps hflat).still ⟨rfl, hsame⟩

theorem covers_mapM {α : Type} {f : α → Lower Lowered} (hf : ∀ {a w l w'}, Yields (f a) w l w' → CoversPiece w w' l)
    (as : List α) {w w' : Work} {ls : List Lowered} (h : Yields (as.mapM f) w ls w') : CoversPieces w w' ls := by
  induction as generalizing w ls with
  | nil =>
    obtain ⟨rfl, rfl⟩ := yields_mapM_nil.1 h
    exact .nil _
  | cons a rest ih =>
    obtain ⟨l, w₁, ls', hl, hls, rfl⟩ := yields_mapM_cons.1 h
    exact .cons (hf hl) (ih hls)

mutual
theorem covers_stmt (henv : env.storage.localsEscape = false) (st : Stmt) {w w' : Work} {l : Lowered}
    (h : Yields (Lower.lowerStmt env st) w l w') : CoversPiece w w' l := by
  cases st with
  | block site locals body =>
    obtain ⟨declared, w₁, run, w₂, s, b, method, hdeclared, hrun, hfold, hleave, rfl⟩ := Lower.yields_block h
    have hcontents := (covers_mapM (covers_local henv) locals hdeclared).append (covers_stmts henv body hrun)
    have hblock : CoversPiece w { w₂ with supply := s } l := (hcontents.fold hfold).after ⟨rfl, rfl⟩
    exact hblock.still ⟨rfl, rfl⟩
  | ifThen site cond body =>
    obtain ⟨c, w₁, b, w₂, hc, hb, rfl, rfl⟩ := Lower.yields_ifThen h
    exact ((exprCovers cond _ _ _ hc).trans (covers_stmt henv body hb)).still ⟨rfl, rfl⟩
  | ifElse site cond body otherwise =>
    obtain ⟨c, w₁, b, w₂, o, w₃, hc, hb, ho, rfl, rfl⟩ := Lower.yields_ifElse h
    have hbranches := (covers_stmt henv body hb).trans (covers_stmt henv otherwise ho)
    exact ((exprCovers cond _ _ _ hc).trans hbranches).still ⟨rfl, rfl⟩
  | «while» site cond body =>
    obtain ⟨start, s₁, inside, s₂, exit, s₃, c, w₁, branch, b, w₂, b', s, hstart, hinside, hexit, hc, hbranch,
      hb, hb', rfl, rfl⟩ := Lower.yields_while h
    obtain ⟨-, rfl⟩ := gives_label.1 hstart
    obtain ⟨-, rfl⟩ := gives_label.1 hinside
    obtain ⟨-, rfl⟩ := gives_label.1 hexit
    obtain ⟨hsame, hbody⟩ := Lowered.becomes_toStm hb'
    have htest := Lowered.becomes_toBranch hbranch
    have hcond : CoversPiece w w₁ c := (exprCovers cond _ _ _ hc).after ⟨rfl, rfl⟩
    have hboth := hcond.trans (covers_stmt henv body hb)
    have hstill : SameTemps w₂ { w₂ with supply := s } := ⟨rfl, hsame⟩
    refine ((hboth.still hstill).imp (fun t ht => ?_) fun hflat => ?_).still ⟨rfl, rfl⟩
    · have := htest.temps t
      have := hbody.temps t
      simp only [Lowered.temps, Stm.temps_ofList, List.flatMap_cons, List.mem_append] at ht ⊢
      tauto
    · refine Tree.allFlat_parts_ofList ?_
      simp only [List.forall_mem_cons]
      exact ⟨Tree.allFlat_parts rfl, htest.flat hflat.1, Tree.allFlat_parts rfl, hbody.flat hflat.2,
        Tree.allFlat_parts rfl, Tree.allFlat_parts rfl, by simp⟩
  | println site value =>
    obtain ⟨v, w₁, hv, rfl, rfl⟩ := Lower.yields_println h
    refine ((covers_value hv).imp (fun t ht => ?_) fun hflat => ?_).still ⟨rfl, rfl⟩
    · simpa [Lowered.temps, externalCall, Tree.Expr.temps, Tree.Expr.tempsAll] using ht
    · simpa [Lowered.Flat, externalCall, Tree.Expr.isFlat, Tree.Expr.areFlat] using hflat
  | assign site x value =>
    obtain ⟨target, v, w₁, htarget, hv, rfl, rfl⟩ | ⟨k, rfl, rfl⟩ := Lower.yields_assign h
    · refine ((covers_value hv).imp (fun t ht => List.mem_append_right _ ht) fun hflat => ?_).still ⟨rfl, rfl⟩
      exact Tree.allFlat_parts
        (Bool.and_eq_true_iff.2 ⟨isFlat_of_isPlace (Lower.isPlace_placeIn htarget), hflat⟩)
    · exact .of_same ⟨rfl, rfl⟩ trivial
  | assignAt site x index value =>
    obtain ⟨base, i, w₁, v, w₂, hbase, hi, hv, rfl, rfl⟩ | ⟨k, rfl, rfl⟩ := Lower.yields_assignAt h
    · refine (((covers_value hi).trans (covers_value hv)).imp (fun t ht => ?_) fun hflat => ?_).still ⟨rfl, rfl⟩
      · simp only [Lowered.temps, Stm.temps, Tree.Expr.temps, List.mem_append] at ht ⊢
        tauto
      · refine Tree.allFlat_parts ?_
        simp [Stm.isFlat, Tree.Expr.isFlat, hflat.1, hflat.2, isFlat_of_isPlace (Lower.isPlace_placeIn hbase)]
    · exact .of_same ⟨rfl, rfl⟩ trivial

theorem covers_stmts (henv : env.storage.localsEscape = false) (stmts : List Stmt) {w w' : Work}
    {ls : List Lowered} (h : Yields (Lower.lowerStmts env stmts) w ls w') : CoversPieces w w' ls := by
  cases stmts with
  | nil =>
    obtain ⟨rfl, rfl⟩ := Lower.yields_lowerStmts_nil.1 h
    exact .nil _
  | cons st rest =>
    obtain ⟨l, w₁, ls', hl, hls, rfl⟩ := Lower.yields_lowerStmts_cons.1 h
    exact .cons (covers_stmt henv st hl) (covers_stmts henv rest hls)
end

/-! ## Procedures -/

theorem covers_result {result : Option Source.Expr} {ls : List Lowered}
    (h : Yields (Lower.lowerResult env result) w ls w') : CoversPieces w w' ls := by
  cases result with
  | none =>
    obtain ⟨rfl, rfl⟩ := yields_pure.1 h
    exact .nil _
  | some e =>
    simp only [Lower.lowerResult, yields_bind, yields_get, yields_pure] at h
    obtain ⟨v, w₁, hv, _, _, ⟨rfl, rfl⟩, rfl, rfl⟩ := h
    refine (covers_value hv).imp (fun t ht => ?_) fun hflat => List.forall_mem_singleton.2 ?_
    · simp [Lowered.temps, Stm.temps, ht]
    · exact Tree.allFlat_parts (Bool.and_eq_true_iff.2 ⟨rfl, hflat⟩)

theorem covers_body {b : Lower.Body} {l : Lowered} (henv : env.storage.localsEscape = false)
    (h : Yields (Lower.lowerBody env b) w l w') : CoversPiece w w' l := by
  obtain ⟨formals, w₁, locals, w₂, stmts, w₃, result, w₄, s, hformals, hlocals, hstmts, hresult, hfold, rfl⟩ :=
    Lower.yields_lowerBody h
  have hdeclared := (covers_mapM (covers_formal henv) b.formals hformals).append
    (covers_mapM (covers_local henv) b.locals hlocals)
  exact ((hdeclared.append (covers_stmts henv b.stmts hstmts)).append (covers_result hresult)).fold hfold

theorem covers_procedure {b : Lower.Body} {body : Stm} (henv : env.storage.localsEscape = false)
    (h : Yields (Lower.lowerProcedure env b) w body w') : Covers w w' body.temps (AllFlat body.parts) := by
  obtain ⟨l, w₁, block, method, s, supply, hinside, hleave, hs, rfl, rfl⟩ := Lower.yields_lowerProcedure h
  obtain ⟨hsame, hstm⟩ := Lowered.becomes_toStm hs
  have hinner : CoversPiece w w₁ l := (covers_body henv hinside).after ⟨rfl, rfl⟩
  have hstill : SameTemps w₁ { w₁ with supply } := ⟨rfl, hsame⟩
  refine ((hinner.still hstill).imp (fun t ht => ?_) fun hflat => Tree.allFlat_parts_ofList ?_).still ⟨rfl, rfl⟩
  · rw [Frame.bracket, Stm.temps_ofList]
    simp [hstm.temps t ht]
  · simp only [List.forall_mem_cons]
    exact ⟨Tree.allFlat_parts rfl, hstm.flat hflat, Tree.allFlat_parts rfl, by simp⟩

end Lowering
