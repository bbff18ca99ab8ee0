import Lowering.Proofs.Scope.Storage

/-!
# Lowering statements within scopes

In settled work a statement lowers to its code, and the blocks and declarations in it are those that
the walk over the source counts.
-/

namespace Lowering

open Lowering.Tree (Temp Label Stm)
open Lowering.Source (VarDecl Stmt)
open Supply (Before labelsBetween)

variable {L P : List Slot} {w w' w₁ w₂ : Work} {env : Surroundings} {l : Lowered}

/-! ## Blocks -/

theorem Lowers.inBlock {k n : Nat} {a : List Label} {p : Frame → Scopes → Prop} {b : Block} {method : Method}
    (h : Lowers L P w.entering w' k n a p) (hopen : w.method.blocks ≠ [])
    (hleave : w'.method.leave = (.ok b, method)) :
    Lowers L P w { w' with method } (k + 1) n a fun f scopes => ∀ scope,
      (∀ x, (findSlot L x ⟨w.method.nextBlock.next⟩).map Slot.index = scope.lookup x) →
        p f (scope :: scopes) := by
  have hblocks : w'.method.blocks = ⟨w.method.nextBlock.next⟩ :: w.method.blocks := h.advance.blocks_eq
  have hnext : w'.method.nextBlock.next = w.method.nextBlock.next + 1 + k := h.advance.next_eq
  obtain ⟨outer, houter, rfl⟩ := Method.leave_eq_ok.1 hleave
  cases hblocks.symm.trans houter
  refine ⟨⟨?_, h.advance.frame, h.advance.before, h.advance.labels⟩, h.settled.of_same rfl rfl rfl le_rfl, ?_⟩
  · rw [h.advance.method]
    simp only [List.isEmpty_iff, hopen, if_false]
    simp only [Work.entering, Method.enter, Counter.draw]
    rw [Nat.add_assoc, Nat.add_comm 1]
  · intro f scopes hf hscope scope hhere
    exact h.code f (scope :: scopes) ⟨hf.same, hf.locals⟩ (.block hhere hscope)

/-- The statements lower to their code. -/
def LowersAll (env : Surroundings) (L P : List Slot) (stmts : List Stmt) : Prop :=
  ∀ ⦃w ls w'⦄, Yields (Lower.lowerStmts env stmts) w ls w' → Settled L P w → w.method.blocks ≠ [] →
    Stmt.FoundAll L stmts w.method.nextBlock.next (w.frame.locals.length + 1) →
    Lowers L P w w' (Stmt.blockCountAll stmts) (Stmt.declarationsAll stmts).length
      (ls.flatMap Lowered.labels) fun f scopes => ∀ cs, List.Forall₂ Lowered.GivesStm ls cs →
        StmtsCode f env.println scopes (w.frame.locals.length + 1) stmts cs

theorem Settled.lowerContents {locals : List VarDecl} {stmts : List Stmt} {declared run : List Lowered}
    {b : Block} {outer : List Block} (henv : env.storage.localsEscape = false)
    (hstmts : LowersAll env L P stmts) (h : Settled L P w) (hblocks : w.method.blocks = b :: outer)
    (hlocals : BlockFound L b (w.frame.locals.length + 1) locals)
    (hfound : Stmt.FoundAll L stmts w.method.nextBlock.next (w.frame.locals.length + 1 + locals.length))
    (hdeclared : Yields (locals.mapM (Lower.lowerLocal env)) w declared w₁)
    (hrun : Yields (Lower.lowerStmts env stmts) w₁ run w₂) :
    Lowers L P w w₂ (Stmt.blockCountAll stmts) (locals ++ Stmt.declarationsAll stmts).length
      ((declared ++ run).flatMap Lowered.labels) fun f scopes => ∀ ds cs,
        List.Forall₂ Lowered.GivesStm declared ds → List.Forall₂ Lowered.GivesStm run cs →
          LocalsCode f (w.frame.locals.length + 1) locals ds ∧
          StmtsCode f env.println scopes (w.frame.locals.length + 1 + locals.length) stmts cs := by
  have hfirst := h.lowerLocals henv locals hdeclared hblocks hlocals.lookup fun _ => lookup_numbered hlocals.names
  have hlength := hfirst.advance.length_eq
  have hnext : w₁.method.nextBlock.next = w.method.nextBlock.next := hfirst.advance.next_eq
  have hrest := hstmts hrun hfirst.settled (by simp [hfirst.advance.blocks_eq, hblocks]) (by rwa [hnext, hlength])
  have hboth := hfirst.trans hrest
  rw [List.length_append, List.flatMap_append]
  rw [hlength, Nat.zero_add] at hboth
  exact hboth.imp fun f scopes hcode ds cs hds hcs => ⟨hcode.1 ds hds, hcode.2 cs hcs⟩

/-! ## Statements -/

theorem Lowered.not_givesStm_missing {k : Construct} {c : Stm} : ¬ (Lowered.missing k).GivesStm c := by
  rintro ⟨s, s', h⟩
  exact not_yields_throw _ h

theorem labels_externalCall (name : String) (v : Tree.Expr) : (externalCall name [v]).labels = v.labels := by
  have hcall : [Tree.Mark.call 1].filterMap Tree.Mark.label? = [] := rfl
  simp [externalCall, Tree.Expr.labels, Tree.Expr.marks, Tree.Expr.marksAll, hcall]

theorem forall₂_append_left {α β : Type} {R : α → β → Prop} {a b : List α} {cs : List β}
    (h : List.Forall₂ R (a ++ b) cs) :
    ∃ ds es, cs = ds ++ es ∧ List.Forall₂ R a ds ∧ List.Forall₂ R b es := by
  induction a generalizing cs with
  | nil => exact ⟨[], cs, rfl, .nil, h⟩
  | cons x rest ih =>
    cases h with
    | cons hx hrest =>
      obtain ⟨ds, es, rfl, hds, hes⟩ := ih hrest
      exact ⟨_ :: ds, es, rfl, .cons hx hds, hes⟩

mutual
theorem Settled.lowerStmt (henv : env.storage.localsEscape = false) (st : Stmt) {w w' : Work} {l : Lowered}
    (hl : Yields (Lower.lowerStmt env st) w l w') (h : Settled L P w) (hopen : w.method.blocks ≠ [])
    (hfound : st.Found L w.method.nextBlock.next (w.frame.locals.length + 1)) :
    Lowers L P w w' st.blockCount st.declarations.length l.labels fun f scopes => ∀ c, l.GivesStm c →
      StmtCode f env.println scopes (w.frame.locals.length + 1) st c := by
  cases st with
  | block site locals body =>
    obtain ⟨declared, w₁, run, w₂, s, b, method, hdeclared, hrun, hfold, hleave, rfl⟩ :=
      Lower.yields_block hl
    have hentered : Settled L P w.entering := h.of_same rfl rfl rfl le_rfl
    have hcontents := hentered.lowerContents henv (fun _ _ _ => Settled.lowerStmts henv body) rfl hfound.1
      hfound.2 hdeclared hrun
    have hblock := (hcontents.draw (Lowered.fold_spends _) hfold).inBlock hopen hleave
    refine (hblock.noting _).imp fun f scopes hcode c hc => ?_
    obtain ⟨cs, rfl, hcs⟩ := Lowered.givesStm_fold hfold hc
    obtain ⟨ds, es, rfl, hds, hes⟩ := forall₂_append_left hcs
    obtain ⟨hlocals, hstmts⟩ := hcode (numbered (w.frame.locals.length + 1) locals) hfound.1.lookup ds es hds hes
    exact .block hlocals hstmts
  | ifThen site cond body =>
    obtain ⟨c, w₁, b, w₂, hc, hb, rfl, rfl⟩ := Lower.yields_ifThen hl
    have hcond := h.lowerExpr hc
    have hlength := hcond.advance.length_eq
    have hbody := Settled.lowerStmt henv body hb hcond.settled (by rwa [hcond.advance.blocks_eq])
      (by rwa [hcond.advance.next_eq, hlength])
    have hboth := hcond.trans hbody
    rw [hlength, Nat.zero_add, Nat.zero_add] at hboth
    refine (hboth.noting _).imp fun f scopes hcode st hst => ?_
    obtain ⟨s, s', hst⟩ := hst
    obtain ⟨yes, _, no, _, test, b', -, -, htest, hb', rfl⟩ := Lowered.yields_toStm_ifThen.1 hst
    exact .ifThen (hcode.1.toBranch htest) (hcode.2 b' ⟨_, _, hb'⟩)
  | ifElse site cond body otherwise =>
    obtain ⟨c, w₁, b, w₂, o, w₃, hc, hb, ho, rfl, rfl⟩ := Lower.yields_ifElse hl
    have hcond := h.lowerExpr hc
    have hlength := hcond.advance.length_eq
    have hbody := Settled.lowerStmt henv body hb hcond.settled (by rwa [hcond.advance.blocks_eq])
      (by rw [hcond.advance.next_eq, hlength]; exact hfound.1)
    have hboth := hcond.trans hbody
    rw [hlength, Nat.zero_add, Nat.zero_add] at hboth
    have hlength' := hboth.advance.length_eq
    have hotherwise := Settled.lowerStmt henv otherwise ho hboth.settled (by rwa [hboth.advance.blocks_eq])
      (by rw [hboth.advance.next_eq, hlength']; exact hfound.2)
    have hall := hboth.trans hotherwise
    rw [hlength', List.append_assoc, ← List.length_append] at hall
    refine (hall.noting _).imp fun f scopes hcode st hst => ?_
    obtain ⟨s, s', hst⟩ := hst
    obtain ⟨yes, _, no, _, join, _, test, b', _, o', -, -, -, htest, hb', ho', rfl⟩ :=
      Lowered.yields_toStm_ifElse.1 hst
    exact .ifElse (hcode.1.1.toBranch htest) (hcode.1.2 b' ⟨_, _, hb'⟩) (hcode.2 o' ⟨_, _, ho'⟩)
  | «while» site cond body =>
    obtain ⟨start, s₁, inside, s₂, exit, s₃, c, w₁, branch, b, w₂, b', s, hstart, hinside, hexit, hc, hbranch,
      hb, hb', rfl, rfl⟩ := Lower.yields_while hl
    have hlabels := (((Lowers.refl h).label hstart).label hinside).label hexit
    have hcond := hlabels.trans (hlabels.settled.lowerExpr hc)
    have hlength := hcond.advance.length_eq
    have hbody := Settled.lowerStmt henv body hb hcond.settled (by rwa [hcond.advance.blocks_eq])
      (by rwa [hcond.advance.next_eq, hlength])
    have hall := (hcond.trans hbody).draw (b.toStm_spends.append_left _) hb'
    rw [hlength, Nat.zero_add, Nat.zero_add] at hall
    have hperm : (Lowered.effect (.ofList [.label start, branch, .label inside, b', .jumpTo start,
        .label exit])).labels.Perm ([] ++ [start] ++ [inside] ++ [exit] ++ c.labels ++ b'.labels) := by
      refine List.perm_iff_count.2 fun x => ?_
      simp only [Lowered.labels, Stm.labels_ofList, Tree.labelsOf_cons, Stm.labels_label,
        Lowered.labels_toBranch hbranch, Stm.labels_jumpTo, Tree.labelsOf_nil, List.count_append, List.count_nil]
      omega
    refine ((hall.perm hperm).noting _).imp fun f scopes hcode st hst => ?_
    obtain ⟨s', s'', hst⟩ := hst
    obtain ⟨rfl, -⟩ := Lowered.yields_toStm_effect.1 hst
    exact .while (hcode.1.2.toBranch hbranch) (hcode.2 b' ⟨_, _, hb'⟩)
  | println site value =>
    obtain ⟨v, w₁, hv, rfl, rfl⟩ := Lower.yields_println hl
    have hvalue := h.lowerValue hv
    rw [← labels_externalCall env.println] at hvalue
    refine (hvalue.noting _).imp fun f scopes hcode st hst => ?_
    obtain ⟨s, s', hst⟩ := hst
    obtain ⟨rfl, -⟩ := Lowered.yields_toStm_value.1 hst
    exact .println hcode
  | assign site x value =>
    obtain ⟨target, v, w₁, htarget, hv, rfl, rfl⟩ | ⟨k, rfl, rfl⟩ := Lower.yields_assign hl
    · have hall := (h.resolve htarget).trans (h.lowerValue hv)
      rw [← Stm.labels_move] at hall
      refine (hall.noting _).imp fun f scopes hcode st hst => ?_
      obtain ⟨s, s', hst⟩ := hst
      obtain ⟨rfl, -⟩ := Lowered.yields_toStm_effect.1 hst
      exact .assign hcode.1 hcode.2
    · exact ((Lowers.refl h).noting _).imp fun f scopes _ c hc => absurd hc Lowered.not_givesStm_missing
  | assignAt site x index value =>
    obtain ⟨base, i, w₁, v, w₂, hbase, hi, hv, rfl, rfl⟩ | ⟨k, rfl, rfl⟩ := Lower.yields_assignAt hl
    · have haddress := (h.resolve hbase).trans (h.lowerValue hi)
      have hall := haddress.trans (haddress.settled.lowerValue hv)
      rw [← Tree.Expr.labels_binOp _ _ .plus, ← Stm.labels_move] at hall
      refine (hall.noting _).imp fun f scopes hcode st hst => ?_
      obtain ⟨s, s', hst⟩ := hst
      obtain ⟨rfl, -⟩ := Lowered.yields_toStm_effect.1 hst
      exact .assignAt hcode.1.1 hcode.1.2 hcode.2
    · exact ((Lowers.refl h).noting _).imp fun f scopes _ c hc => absurd hc Lowered.not_givesStm_missing

theorem Settled.lowerStmts (henv : env.storage.localsEscape = false) (stmts : List Stmt) {w w' : Work}
    {ls : List Lowered} (hls : Yields (Lower.lowerStmts env stmts) w ls w') (h : Settled L P w)
    (hopen : w.method.blocks ≠ [])
    (hfound : Stmt.FoundAll L stmts w.method.nextBlock.next (w.frame.locals.length + 1)) :
    Lowers L P w w' (Stmt.blockCountAll stmts) (Stmt.declarationsAll stmts).length
      (ls.flatMap Lowered.labels) fun f scopes => ∀ cs, List.Forall₂ Lowered.GivesStm ls cs →
        StmtsCode f env.println scopes (w.frame.locals.length + 1) stmts cs := by
  cases stmts with
  | nil =>
    obtain ⟨rfl, rfl⟩ := Lower.yields_lowerStmts_nil.1 hls
    refine (Lowers.refl h).imp fun f scopes _ cs hcs => ?_
    cases hcs
    exact .nil
  | cons st rest =>
    obtain ⟨l, w₁, ls', hl, hls', rfl⟩ := Lower.yields_lowerStmts_cons.1 hls
    have hfirst := Settled.lowerStmt henv st hl h hopen hfound.1
    have hlength := hfirst.advance.length_eq
    have hrest := Settled.lowerStmts henv rest hls' hfirst.settled (by rwa [hfirst.advance.blocks_eq])
      (by rw [hfirst.advance.next_eq, hlength]; exact hfound.2)
    have hall := hfirst.trans hrest
    rw [hlength, ← List.length_append] at hall
    refine hall.imp fun f scopes hcode cs hcs => ?_
    cases hcs with
    | cons hc hcs => exact .cons (hcode.1 _ hc) (hcode.2 _ hcs)
end

end Lowering
