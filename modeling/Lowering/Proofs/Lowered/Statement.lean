import Lowering.Proofs.Lowered.Value

/-!
# What statements lower to

For each form of statement, the pieces it is lowered to and the states of the work in between. The same
for the body of a procedure.
-/

namespace Lowering

open Lowering.Tree (Label Stm)
open Lowering.Source (Site Stmt VarDecl)

namespace Work

/-- The work after a line in the journal. -/
def noting (w : Work) (e : Event) : Work := { w with journal := w.journal.push e }

/-- The work inside a new block. -/
def entering (w : Work) : Work := { w with method := w.method.enter.2 }

end Work

namespace Lower

variable {w w' : Work} {env : Surroundings} {site : Site} {l : Lowered}

/-! ## Bookkeeping -/

theorem yields_note {e : Event} {u : Unit} : Yields (note e) w u w' ↔ w' = w.noting e := by
  rw [note, yields_modify, eq_comm]
  rfl

theorem yields_noted {x : Lower Lowered} : Yields (noted site x) w l w' ↔
    ∃ w₁, Yields x w l w₁ ∧ w' = w₁.noting (.stmtLowered site l.form) := by
  simp only [noted, yields_bind, yields_note, yields_pure]
  grind

theorem run_inBlock {α : Type} (x : Lower α) (w : Work) : (inBlock x).run.run w =
    match (x.run.run w.entering).2.method.leave with
    | (.ok _, method) => ((x.run.run w.entering).1, { (x.run.run w.entering).2 with method })
    | (.error e, method) => ((x.run.run w.entering).1.bind fun _ => .error (.scope e),
        { (x.run.run w.entering).2 with method }) := rfl

theorem yields_inBlock {α : Type} {x : Lower α} {a : α} : Yields (inBlock x) w a w' ↔
    ∃ w₁ b method, Yields x w.entering a w₁ ∧ w₁.method.leave = (.ok b, method) ∧
      w' = { w₁ with method } := by
  unfold Yields
  rw [run_inBlock]
  rcases x.run.run w.entering with ⟨result, w₁⟩
  constructor
  · intro h
    simp only at h
    split at h
    next b method hleave =>
      cases h
      exact ⟨w₁, b, method, rfl, hleave, rfl⟩
    next => cases result <;> cases h
  · rintro ⟨_, b, method, hx, hleave, rfl⟩
    cases hx
    simp only [hleave]

/-! ## The forms of statements -/

section

variable {cond value index : Source.Expr} {body otherwise : Stmt} {x : String}

theorem yields_block {locals : List VarDecl} {stmts : List Stmt}
    (h : Yields (lowerStmt env (.block site locals stmts)) w l w') :
    ∃ declared w₁ run w₂ s b method, Yields (locals.mapM (lowerLocal env)) w.entering declared w₁ ∧
      Yields (lowerStmts env stmts) w₁ run w₂ ∧ Yields (Lowered.fold (declared ++ run)) w₂.supply l s ∧
      w₂.method.leave = (.ok b, method) ∧
      w' = Work.noting { w₂ with supply := s, method } (.stmtLowered site l.form) := by
  rw [lowerStmt, yields_noted] at h
  obtain ⟨w₃, h, rfl⟩ := h
  obtain ⟨w₄, b, method, hinside, hleave, rfl⟩ := yields_inBlock.1 h
  simp only [yields_bind, yields_draw] at hinside
  obtain ⟨declared, w₁, hdeclared, run, w₂, hrun, s, hfold, rfl⟩ := hinside
  exact ⟨declared, w₁, run, w₂, s, b, method, hdeclared, hrun, hfold, hleave, rfl⟩

theorem yields_ifThen (h : Yields (lowerStmt env (.ifThen site cond body)) w l w') :
    ∃ c w₁ b w₂, Yields (lowerExpr env cond) w c w₁ ∧ Yields (lowerStmt env body) w₁ b w₂ ∧
      l = .ifThen c b ∧ w' = w₂.noting (.stmtLowered site l.form) := by
  rw [lowerStmt, yields_noted] at h
  obtain ⟨w₂, h, rfl⟩ := h
  simp only [yields_bind, yields_pure] at h
  obtain ⟨c, w₁, hc, b, _, hb, rfl, rfl⟩ := h
  exact ⟨c, w₁, b, _, hc, hb, rfl, rfl⟩

theorem yields_ifElse (h : Yields (lowerStmt env (.ifElse site cond body otherwise)) w l w') :
    ∃ c w₁ b w₂ o w₃, Yields (lowerExpr env cond) w c w₁ ∧ Yields (lowerStmt env body) w₁ b w₂ ∧
      Yields (lowerStmt env otherwise) w₂ o w₃ ∧ l = .ifElse c b o ∧
      w' = w₃.noting (.stmtLowered site l.form) := by
  rw [lowerStmt, yields_noted] at h
  obtain ⟨w₃, h, rfl⟩ := h
  simp only [yields_bind, yields_pure] at h
  obtain ⟨c, w₁, hc, b, w₂, hb, o, _, ho, rfl, rfl⟩ := h
  exact ⟨c, w₁, b, w₂, o, _, hc, hb, ho, rfl, rfl⟩

theorem yields_while (h : Yields (lowerStmt env (.while site cond body)) w l w') :
    ∃ test s₁ inside s₂ exit s₃ c w₁ branch b w₂ st s, Gives Fresh.label w.supply test s₁ ∧
      Gives Fresh.label s₁ inside s₂ ∧ Gives Fresh.label s₂ exit s₃ ∧
      Yields (lowerExpr env cond) { w with supply := s₃ } c w₁ ∧ c.toBranch inside exit = .ok branch ∧
      Yields (lowerStmt env body) w₁ b w₂ ∧ Yields b.toStm w₂.supply st s ∧
      l = .effect (.ofList [.label test, branch, .label inside, st, .jumpTo test, .label exit]) ∧
      w' = Work.noting { w₂ with supply := s } (.stmtLowered site l.form) := by
  rw [lowerStmt, yields_noted] at h
  obtain ⟨w₃, h, rfl⟩ := h
  simp only [yields_bind, yields_draw, yields_liftState, yields_liftExcept, yields_pure] at h
  obtain ⟨test, _, ⟨s₁, htest, rfl⟩, inside, _, ⟨s₂, hinside, rfl⟩, exit, _, ⟨s₃, hexit, rfl⟩, c, w₁, hc,
    branch, _, ⟨hbranch, rfl⟩, b, w₂, hb, st, _, ⟨s, hst, rfl⟩, rfl, rfl⟩ := h
  exact ⟨test, s₁, inside, s₂, exit, s₃, c, _, branch, b, w₂, st, s, htest, hinside, hexit, hc, hbranch, hb,
    hst, rfl, rfl⟩

theorem yields_println (h : Yields (lowerStmt env (.println site value)) w l w') :
    ∃ v w₁, Yields (lowerValue env value) w v w₁ ∧ l = .value (externalCall env.println [v]) ∧
      w' = w₁.noting (.stmtLowered site l.form) := by
  rw [lowerStmt, yields_noted] at h
  obtain ⟨w₁, h, rfl⟩ := h
  simp only [yields_bind, yields_pure] at h
  obtain ⟨v, _, hv, rfl, rfl⟩ := h
  exact ⟨v, _, hv, rfl, rfl⟩

theorem yields_assign (h : Yields (lowerStmt env (.assign site x value)) w l w') :
    (∃ target v w₁, placeIn w x = some target ∧ Yields (lowerValue env value) w v w₁ ∧
      l = .effect (.move target v) ∧ w' = w₁.noting (.stmtLowered site l.form)) ∨
    ∃ k, l = .missing k ∧ w' = w.noting (.stmtLowered site l.form) := by
  rw [lowerStmt, yields_noted] at h
  obtain ⟨w₁, h, rfl⟩ := h
  obtain ⟨r, w₂, hr, h⟩ := yields_bind.1 h
  obtain ⟨rfl, ⟨target, htarget, rfl⟩ | ⟨k, rfl⟩⟩ := yields_resolve hr
  · simp only [yields_bind, yields_pure] at h
    obtain ⟨v, _, hv, rfl, rfl⟩ := h
    exact .inl ⟨target, v, _, htarget, hv, rfl, rfl⟩
  · obtain ⟨rfl, rfl⟩ := yields_pure.1 h
    exact .inr ⟨k, rfl, rfl⟩

theorem yields_assignAt (h : Yields (lowerStmt env (.assignAt site x index value)) w l w') :
    (∃ base i w₁ v w₂, placeIn w x = some base ∧ Yields (lowerValue env index) w i w₁ ∧
      Yields (lowerValue env value) w₁ v w₂ ∧ l = .effect (.move (.binOp .plus base i) v) ∧
      w' = w₂.noting (.stmtLowered site l.form)) ∨
    ∃ k, l = .missing k ∧ w' = w.noting (.stmtLowered site l.form) := by
  rw [lowerStmt, yields_noted] at h
  obtain ⟨w₁, h, rfl⟩ := h
  obtain ⟨r, w₂, hr, h⟩ := yields_bind.1 h
  obtain ⟨rfl, ⟨base, hbase, rfl⟩ | ⟨k, rfl⟩⟩ := yields_resolve hr
  · simp only [yields_bind, yields_pure] at h
    obtain ⟨i, w₃, hi, v, _, hv, rfl, rfl⟩ := h
    exact .inl ⟨base, i, w₃, v, _, hbase, hi, hv, rfl, rfl⟩
  · obtain ⟨rfl, rfl⟩ := yields_pure.1 h
    exact .inr ⟨k, rfl, rfl⟩

theorem yields_lowerStmts_nil {ls : List Lowered} :
    Yields (lowerStmts env []) w ls w' ↔ ls = [] ∧ w' = w := by
  rw [lowerStmts, yields_pure, eq_comm, eq_comm (a := w)]

theorem yields_lowerStmts_cons {rest : List Stmt} {ls : List Lowered} :
    Yields (lowerStmts env (body :: rest)) w ls w' ↔ ∃ l w₁ ls', Yields (lowerStmt env body) w l w₁ ∧
      Yields (lowerStmts env rest) w₁ ls' w' ∧ ls = l :: ls' := by
  simp only [lowerStmts, yields_bind, yields_pure]
  grind

end

/-! ## Whole bodies -/

section

variable {b : Body}

theorem yields_lowerBody (h : Yields (lowerBody env b) w l w') :
    ∃ formals w₁ locals w₂ stmts w₃ result w₄ s, Yields (b.formals.mapM (lowerFormal env)) w formals w₁ ∧
      Yields (b.locals.mapM (lowerLocal env)) w₁ locals w₂ ∧ Yields (lowerStmts env b.stmts) w₂ stmts w₃ ∧
      Yields (lowerResult env b.result) w₃ result w₄ ∧
      Yields (Lowered.fold (formals ++ locals ++ stmts ++ result)) w₄.supply l s ∧ w' = { w₄ with supply := s } := by
  simp only [lowerBody, yields_bind, yields_draw] at h
  obtain ⟨formals, w₁, hformals, locals, w₂, hlocals, stmts, w₃, hstmts, result, w₄, hresult, s, hfold, rfl⟩ := h
  exact ⟨formals, w₁, locals, w₂, stmts, w₃, result, w₄, s, hformals, hlocals, hstmts, hresult, hfold, rfl⟩

theorem yields_checkBalanced {u : Unit} (h : Yields checkBalanced w u w') : w = w' := by
  simp only [checkBalanced, yields_bind, yields_get] at h
  obtain ⟨_, _, ⟨rfl, rfl⟩, h⟩ := h
  split at h
  next => exact absurd h (not_yields_throw _)
  next => exact (yields_pure.1 h).2

theorem yields_lowerProcedure {body : Stm} (h : Yields (lowerProcedure env b) w body w') :
    ∃ l w₁ block method s supply, Yields (lowerBody env b) w.entering l w₁ ∧
      w₁.method.leave = (.ok block, method) ∧ Yields l.toStm w₁.supply s supply ∧ body = w₁.frame.bracket s ∧
      w' = Work.noting { w₁ with method, supply } (.bodyLowered w₁.frame.name body) := by
  simp only [lowerProcedure, yields_bind, yields_get, yields_pure, yields_note, yields_draw] at h
  obtain ⟨_, _, hcheck, l, _, hblock, _, _, hcheck', s, _, ⟨supply, hs, rfl⟩, _, _, ⟨rfl, rfl⟩, _, _, rfl, rfl,
    rfl⟩ := h
  obtain rfl := yields_checkBalanced hcheck
  obtain rfl := yields_checkBalanced hcheck'
  obtain ⟨w₁, block, method, hinside, hleave, rfl⟩ := yields_inBlock.1 hblock
  exact ⟨l, w₁, block, method, s, supply, hinside, hleave, hs, rfl, rfl⟩

end

end Lower

end Lowering
