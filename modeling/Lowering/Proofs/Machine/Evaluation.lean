import Lowering.Machine.Run
import Lowering.Proofs.Outcome
import Lowering.Proofs.Tree.Marks

/-!
# Evaluation on a machine

What each expression yields, and what evaluation leaves alone: only a call changes anything, and a
call changes neither temps nor memory.
-/

namespace Lowering

open Lowering.Tree (Temp Label Expr Stm)

variable {m m' M : Machine} {w : Word}

theorem getElem?_insert_ne {t u : Temp} (h : t ≠ u) (temps : Std.ExtTreeMap Temp Word) (w : Word) :
    (temps.insert t w)[u]? = temps[u]? := by
  rw [Std.ExtTreeMap.getElem?_insert, if_neg fun hc => h (Std.LawfulEqCmp.eq_of_compare hc)]

namespace Exec

/-! ## What expressions yield -/

theorem yields_const {v : Int32} : Yields (eval (.const v)) m w m' ↔ w = .narrow v ∧ m = m' := by
  rw [eval, yields_pure, eq_comm]

theorem yields_longConst {v : Int64} : Yields (eval (.longConst v)) m w m' ↔ w = .wide v ∧ m = m' := by
  rw [eval, yields_pure, eq_comm]

theorem yields_temp {t : Temp} : Yields (eval (.temp t)) m w m' ↔ m.temps[t]? = some w ∧ m = m' := by
  simp only [eval, yields_bind, yields_get]
  constructor
  · rintro ⟨_, _, ⟨rfl, rfl⟩, h⟩
    split at h
    next u hu =>
      obtain ⟨rfl, rfl⟩ := yields_pure.1 h
      exact ⟨hu, rfl⟩
    next => exact absurd h (not_yields_throw _)
  · rintro ⟨h, rfl⟩
    exact ⟨m, m, ⟨rfl, rfl⟩, by simp [h, yields_pure]⟩

theorem yields_binOp {op : BinOp} {l r : Expr} : Yields (eval (.binOp op l r)) m w m' ↔
    ∃ a m₁ b, Yields (eval l) m a m₁ ∧ Yields (eval r) m₁ b m' ∧ w = Word.combine op a b := by
  simp only [eval, yields_bind, yields_pure]
  grind

theorem yields_mem {a : Expr} : Yields (eval (.mem a)) m w m' ↔
    ∃ address, Yields (eval a) m address m' ∧ w = m'.loadWord address.value := by
  simp only [eval, yields_bind, yields_get, yields_pure]
  grind

theorem yields_answer {name : String} {args : List Int64} : Yields (call name args) m w m' ↔
    ∃ v, m.answer name args = (.ok v, m') ∧ w = Word.ofValue v := by
  simp only [call, yields_bind, yields_mk_modifyGet, yields_pure]
  grind

theorem yields_call {l : Label} {args : List Expr} : Yields (eval (.call (.name l) args)) m w m' ↔
    ∃ values m₁ v, Yields (evalAll args) m values m₁ ∧ m₁.answer l.name values = (.ok v, m') ∧
      w = Word.ofValue v := by
  simp only [eval, yields_bind, yields_answer]
  grind

theorem not_yields_name {l : Label} : ¬ Yields (eval (.name l)) m w m' := by
  rw [eval]
  exact not_yields_throw _

theorem not_yields_eseq {s : Stm} {e : Expr} : ¬ Yields (eval (.eseq s e)) m w m' := by
  rw [eval]
  exact not_yields_throw _

theorem target_of_yields_call {f : Expr} {args : List Expr} (h : Yields (eval (.call f args)) m w m') :
    ∃ l, f = .name l := by
  cases f with
  | name l => exact ⟨l, rfl⟩
  | _ => exact absurd h (by rw [eval]; exact not_yields_throw _; simp)

theorem yields_evalAll_nil {values : List Int64} :
    Yields (evalAll []) m values m' ↔ values = [] ∧ m = m' := by
  rw [evalAll, yields_pure, eq_comm]

theorem yields_evalAll_cons {e : Expr} {rest : List Expr} {values : List Int64} :
    Yields (evalAll (e :: rest)) m values m' ↔ ∃ w m₁ values', Yields (eval e) m w m₁ ∧
      Yields (evalAll rest) m₁ values' m' ∧ values = w.value :: values' := by
  simp only [evalAll, yields_bind, yields_pure]
  grind

/-! ## What evaluation leaves alone -/

end Exec

/-- All that a call looks at and all that it changes. -/
theorem Machine.answer_ok {name : String} {args : List Int64} {v : Int64} (h : m.answer name args = (.ok v, m')) :
    ∃ cells output calls, m' = { m with cells, output, calls } ∧
      ∀ M : Machine, M.printers = m.printers → M.routines = m.routines → M.cells = m.cells →
        M.output = m.output → M.calls = m.calls → M.answer name args = (.ok v, { M with cells, output, calls }) := by
  unfold Machine.answer at h
  split at h
  next hp =>
    cases h
    refine ⟨m.cells, _, _, rfl, fun M hprinters _ hcells houtput hcalls => ?_⟩
    rw [Machine.answer, hprinters, if_pos hp, houtput, hcalls, ← hcells]
  next hp =>
    split at h
    next => cases h
    next r hr =>
      cases h
      refine ⟨_, m.output, _, rfl, fun M hprinters hroutines hcells houtput hcalls => ?_⟩
      simp only [Machine.answer, hprinters, if_neg hp, hroutines, hr, hcells, hcalls, ← houtput]

theorem Machine.answer_keeps {name : String} {args : List Int64} {v : Int64}
    (h : m.answer name args = (.ok v, m')) : m'.temps = m.temps ∧ m'.memory = m.memory := by
  obtain ⟨_, _, _, rfl, -⟩ := Machine.answer_ok h
  exact ⟨rfl, rfl⟩

namespace Exec

mutual
theorem eval_keeps (e : Expr) {m m' : Machine} {w : Word} (h : Yields (eval e) m w m') :
    m'.temps = m.temps ∧ m'.memory = m.memory := by
  cases e with
  | const v => simp [(yields_const.1 h).2]
  | longConst v => simp [(yields_longConst.1 h).2]
  | name l => exact absurd h not_yields_name
  | temp t => simp [(yields_temp.1 h).2]
  | binOp op l r =>
    obtain ⟨_, m₁, _, hl, hr, -⟩ := yields_binOp.1 h
    obtain ⟨htemps, hmemory⟩ := eval_keeps l hl
    rw [← htemps, ← hmemory]
    exact eval_keeps r hr
  | mem a =>
    obtain ⟨_, ha, -⟩ := yields_mem.1 h
    exact eval_keeps a ha
  | call f args =>
    obtain ⟨l, rfl⟩ := target_of_yields_call h
    obtain ⟨_, m₁, _, hargs, hanswer, -⟩ := yields_call.1 h
    obtain ⟨htemps, hmemory⟩ := evalAll_keeps args hargs
    rw [← htemps, ← hmemory]
    exact Machine.answer_keeps hanswer
  | eseq s e => exact absurd h not_yields_eseq

theorem evalAll_keeps (es : List Expr) {m m' : Machine} {values : List Int64}
    (h : Yields (evalAll es) m values m') : m'.temps = m.temps ∧ m'.memory = m.memory := by
  cases es with
  | nil => simp [(yields_evalAll_nil.1 h).2]
  | cons e rest =>
    obtain ⟨_, m₁, _, he, hrest, -⟩ := yields_evalAll_cons.1 h
    obtain ⟨htemps, hmemory⟩ := eval_keeps e he
    rw [← htemps, ← hmemory]
    exact evalAll_keeps rest hrest
end

theorem eval_of_no_call (e : Expr) {m m' : Machine} {w : Word} (hcall : e.hasCall = false)
    (h : Yields (eval e) m w m') :
    m' = m ∧ ∀ M : Machine, M.temps = m.temps → M.memory = m.memory → Yields (eval e) M w M := by
  cases e with
  | const v =>
    obtain ⟨rfl, rfl⟩ := yields_const.1 h
    exact ⟨rfl, fun M _ _ => yields_const.2 ⟨rfl, rfl⟩⟩
  | longConst v =>
    obtain ⟨rfl, rfl⟩ := yields_longConst.1 h
    exact ⟨rfl, fun M _ _ => yields_longConst.2 ⟨rfl, rfl⟩⟩
  | name l => exact absurd h not_yields_name
  | temp t =>
    obtain ⟨ht, rfl⟩ := yields_temp.1 h
    exact ⟨rfl, fun M htemps _ => yields_temp.2 ⟨htemps ▸ ht, rfl⟩⟩
  | binOp op l r =>
    obtain ⟨hcl, hcr⟩ : l.hasCall = false ∧ r.hasCall = false := by
      simpa [Expr.hasCall, Expr.marks] using hcall
    obtain ⟨a, m₁, b, hl, hr, rfl⟩ := yields_binOp.1 h
    obtain ⟨rfl, hl'⟩ := eval_of_no_call l hcl hl
    obtain ⟨rfl, hr'⟩ := eval_of_no_call r hcr hr
    exact ⟨rfl, fun M ht hm => yields_binOp.2 ⟨a, M, b, hl' M ht hm, hr' M ht hm, rfl⟩⟩
  | mem a =>
    have hca : a.hasCall = false := by simpa [Expr.hasCall, Expr.marks] using hcall
    obtain ⟨address, ha, rfl⟩ := yields_mem.1 h
    obtain ⟨rfl, ha'⟩ := eval_of_no_call a hca ha
    refine ⟨rfl, fun M ht hm => yields_mem.2 ⟨address, ha' M ht hm, ?_⟩⟩
    simp [Machine.loadWord, hm]
  | call f args => simp [Expr.hasCall, Expr.marks, Tree.Mark.isCall] at hcall
  | eseq s e => exact absurd h not_yields_eseq

/-! ## Statements -/

theorem yields_storeWord {address : Word} {u : PUnit} : Yields (storeWord address w) m u m' ↔
    m' = { m with memory := m.memory.insert address.value w } := by
  rw [storeWord, yields_modify, eq_comm]

theorem yields_assign_temp {t : Temp} {u : PUnit} : Yields (assign (.temp t) w) m u m' ↔
    m' = { m with temps := m.temps.insert t w } := by
  simp only [assign]
  rw [yields_modify, eq_comm]

/-- The expression that a place outside the temps takes its address from. -/
def addressOf : Expr → Expr
  | .mem a => a
  | e => e

theorem yields_assign {target : Expr} {u : PUnit} (h : ∀ t, target ≠ .temp t) :
    Yields (assign target w) m u m' ↔ ∃ address m₁, Yields (eval (addressOf target)) m address m₁ ∧
      m' = { m₁ with memory := m₁.memory.insert address.value w } := by
  cases target with
  | temp t => exact absurd rfl (h t)
  | _ => simp only [assign, addressOf, yields_bind, yields_storeWord]

theorem yields_step_label {l : Label} {next : Option Label} :
    Yields (step (.label l)) m next m' ↔ next = none ∧ m = m' := by
  rw [step, yields_pure, eq_comm]

theorem yields_step_move {target source : Expr} {next : Option Label} :
    Yields (step (.move target source)) m next m' ↔ ∃ w m₁, Yields (eval source) m w m₁ ∧
      Yields (assign target w) m₁ ⟨⟩ m' ∧ next = none := by
  simp only [step, yields_bind, yields_pure]
  grind

theorem yields_step_exp {e : Expr} {next : Option Label} :
    Yields (step (.exp e)) m next m' ↔ ∃ w, Yields (eval e) m w m' ∧ next = none := by
  simp only [step, yields_bind, yields_pure]
  grind

theorem yields_step_jump {l : Label} {labels : List Label} {next : Option Label} :
    Yields (step (.jump (.name l) labels)) m next m' ↔ next = some l ∧ m = m' := by
  rw [step, yields_pure, eq_comm]

theorem yields_step_cjump {op : RelOp} {l r : Expr} {ifTrue ifFalse : Label} {next : Option Label} :
    Yields (step (.cjump op l r ifTrue ifFalse)) m next m' ↔ ∃ a m₁ b, Yields (eval l) m a m₁ ∧
      Yields (eval r) m₁ b m' ∧ next = some (if op.holds a.value b.value then ifTrue else ifFalse) := by
  simp only [step, yields_bind, yields_pure]
  grind

theorem not_yields_step_seq {a b : Stm} {next : Option Label} :
    ¬ Yields (step (.seq a b)) m next m' := by
  rw [step]
  exact not_yields_throw _

end Exec

end Lowering
