import Lowering.Proofs.Lowered.Value
import Lowering.Proofs.Machine.Evaluation
import Lowering.Proofs.Source.Execution
import Lowering.Proofs.Tree.Meaning

/-!
# What the code of a value does

It computes a word and writes the temps of verdicts. Neither memory nor any other temp changes.
-/

namespace Lowering

open Lowering.Tree

variable {place : String → Option Tree.Expr} {fresh : Temp → Prop} {e : Source.Expr} {c : Tree.Expr}

/-! ## Verdicts -/

/-- The comparison runs with a one in the temp, and a zero goes there if it fails. -/
theorem eval_verdict {o : RelOp} {a b : Tree.Expr} {result : Temp} {t f : Label} {m m₁ m₂ : Machine}
    {x y : Word} (ha : Eval { m with temps := m.temps.insert result (.narrow 1) } a x m₁)
    (hb : Eval m₁ b y m₂) (hresult : m₂.temps[result]? = some (.narrow 1)) :
    ∃ m', Eval m (Lowered.verdict o a b result t f) (Word.ofBool (o.holds x.value y.value)) m' ∧
      m' = if o.holds x.value y.value then m₂
        else { m₂ with temps := m₂.temps.insert result (.narrow 0) } := by
  let chain := [Stm.move (.temp result) (.const 1), .cjump o a b t f, .label f,
    .move (.temp result) (.const 0), .label t]
  have hjump : Step { m with temps := m.temps.insert result (.narrow 1) } (.cjump o a b t f)
    (some (if o.holds x.value y.value then t else f)) m₂ := .cjump ha hb
  cases hholds : o.holds x.value y.value with
  | true =>
    rw [if_pos hholds] at hjump
    have hruns : Runs chain chain m m₂ :=
      .next (.move (.temp .const)) (.goto hjump (show chain = chain.take 4 ++ _ from rfl) (.next .label .done))
    exact ⟨m₂, .eseq hruns (.temp hresult), rfl⟩
  | false =>
    rw [if_neg (by simp [hholds])] at hjump
    have hruns : Runs chain chain m { m₂ with temps := m₂.temps.insert result (.narrow 0) } :=
      .next (.move (.temp .const)) (.goto hjump (show chain = chain.take 2 ++ _ from rfl)
        (.next .label (.next (.move (.temp .const)) (.next .label .done))))
    exact ⟨_, .eseq hruns (.temp Std.ExtTreeMap.getElem?_insert_self), rfl⟩

/-! ## Values leave memory alone -/

theorem IsPlace.memory_eq {m m' : Machine} {w : Word} (h : IsPlace c) (he : Eval m c w m') :
    m'.memory = m.memory := by
  obtain ⟨fp, offset | t, rfl⟩ := h
  · cases he with
    | mem ha =>
      cases ha with
      | binOp hl hr =>
        cases hl
        cases hr
        rfl
  · cases he
    rfl

theorem Tree.Runs.memory_eq : ∀ {parts rest : List Stm} {m m' : Machine}, Runs parts rest m m' →
    (∀ st ∈ rest, st ∈ parts) →
    (∀ st ∈ parts, ∀ {m next m'}, Step m st next m' → m'.memory = m.memory) → m'.memory = m.memory
  | _, _, _, _, .done, _, _ => rfl
  | _, _, _, _, .next hstep hruns, hrest, hparts => by
    rw [hruns.memory_eq (fun st hst => hrest st (List.mem_cons_of_mem _ hst)) hparts]
    exact hparts _ (hrest _ List.mem_cons_self) hstep
  | _, _, _, _, .goto hstep hlabel hruns, hrest, hparts => by
    rw [hruns.memory_eq (fun st hst => by rw [hlabel]; exact List.mem_append_right _ hst) hparts]
    exact hparts _ (hrest _ List.mem_cons_self) hstep

theorem memory_eq_of_verdict {o : RelOp} {a b : Tree.Expr} {result : Temp} {t f : Label}
    (ha : ∀ {m w m'}, Eval m a w m' → m'.memory = m.memory)
    (hb : ∀ {m w m'}, Eval m b w m' → m'.memory = m.memory) {m m' : Machine} {w : Word}
    (he : Eval m (Lowered.verdict o a b result t f) w m') : m'.memory = m.memory := by
  cases he with
  | eseq hruns htemp =>
    cases htemp
    refine hruns.memory_eq (fun _ h => h) fun st hst m next m' hstep => ?_
    have hset : ∀ {v}, Step m (.move (.temp result) (.const v)) next m' → m'.memory = m.memory := by
      intro v hmove
      cases hmove with
      | move hassign =>
        cases hassign with
        | temp hconst =>
          cases hconst
          rfl
    simp only [Stm.ofList, Stm.parts, List.cons_append, List.nil_append, List.mem_cons,
      List.not_mem_nil, or_false] at hst
    rcases hst with rfl | rfl | rfl | rfl | rfl
    · exact hset hstep
    · cases hstep with
      | cjump hl hr => rw [hb hr, ha hl]
    · cases hstep
      rfl
    · exact hset hstep
    · cases hstep
      rfl

theorem ValueCode.memory_eq {m m' : Machine} {w : Word} (h : ValueCode place fresh e c)
    (hplace : ∀ x c, place x = some c → IsPlace c) (he : Eval m c w m') : m'.memory = m.memory := by
  induction h generalizing m w m' with
  | @literal _ v _ =>
    cases v <;> cases he <;> rfl
  | bool =>
    cases he
    rfl
  | ident h => exact (hplace _ _ h).memory_eq he
  | arithmetic _ _ _ hl hr =>
    cases he with
    | binOp hel her => rw [hr her, hl hel]
  | comparison _ _ _ _ _ hl hr => exact memory_eq_of_verdict hl hr he
  | not _ h =>
    cases he with
    | binOp hone hc =>
      cases hone
      exact h hc

/-! ## Values are computed -/

theorem Source.Op.result?_arithmetic {op : Source.Op} {o : BinOp} (h : Lower.meaning op = .arithmetic o)
    (a b : Word) : op.result? a b = some (Word.combine o a b) := by
  cases op <;> simp only [Lower.meaning, Lower.Meaning.arithmetic.injEq, reduceCtorEq] at h <;> subst h <;>
    cases a <;> cases b <;> simp [Source.Op.result?, Source.atWidth, Word.combine, BinOp.apply, Word.value]

theorem Source.Op.result?_comparison {op : Source.Op} {o : RelOp} (h : Lower.meaning op = .comparison o)
    (a b : Word) : op.result? a b = some (.ofBool (o.holds a.value b.value)) := by
  cases op <;> simp only [Lower.meaning, Lower.Meaning.comparison.injEq, reduceCtorEq] at h <;> subst h <;>
    simp [Source.Op.result?, RelOp.holds, beq_eq_decide, bne]

/-- Nothing but the temps in `ts` has changed. -/
structure WritesOnly (ts : List Temp) (m m' : Machine) : Prop where
  same : m' = { m with temps := m'.temps }
  temps : ∀ t ∉ ts, m'.temps[t]? = m.temps[t]?

namespace WritesOnly

variable {ts us : List Temp} {m m₁ m₂ : Machine}

theorem refl (m : Machine) : WritesOnly [] m m := ⟨rfl, fun _ _ => rfl⟩

theorem trans (h : WritesOnly ts m m₁) (h' : WritesOnly us m₁ m₂) : WritesOnly (ts ++ us) m m₂ := by
  refine ⟨by rw [h'.same, h.same], fun t ht => ?_⟩
  rw [List.mem_append, not_or] at ht
  rw [h'.temps t ht.2, h.temps t ht.1]

theorem insert (m : Machine) (t : Temp) (w : Word) :
    WritesOnly [t] m { m with temps := m.temps.insert t w } := by
  refine ⟨rfl, fun u hu => getElem?_insert_ne (fun heq => ?_) _ _⟩
  exact hu (List.mem_singleton.2 heq.symm)

end WritesOnly

/-- Every variable that has a value is kept in a temp, and none of these temps is `fresh`. -/
def Knows (place : String → Option Tree.Expr) (fresh : Temp → Prop) (env : Source.Env) (m : Machine) : Prop :=
  ∀ x c v, place x = some c → env.read x = some v → ∃ t, c = .temp t ∧ ¬ fresh t ∧ m.temps[t]? = some v

theorem Knows.after {env : Source.Env} {ts : List Temp} {m m' : Machine} (h : Knows place fresh env m)
    (hwrites : WritesOnly ts m m') (hts : ∀ t ∈ ts, fresh t) : Knows place fresh env m' := by
  intro x c v hx hv
  obtain ⟨t, rfl, ht, hget⟩ := h x c v hx hv
  exact ⟨t, rfl, ht, (hwrites.temps t fun hmem => ht (hts t hmem)).trans hget⟩

theorem ValueCode.evaluates {env : Source.Env} {m : Machine} {w : Word} (h : ValueCode place fresh e c)
    (hplace : ∀ x c, place x = some c → IsPlace c) (hw : e.value? env = some w)
    (hknows : Knows place fresh env m) : ∃ m', Eval m c w m' ∧ WritesOnly c.written m m' := by
  induction h generalizing m w with
  | @literal _ v hv =>
    cases hv.symm.trans hw
    cases v
    · exact ⟨m, .const, .refl m⟩
    · exact ⟨m, .longConst, .refl m⟩
  | @bool b =>
    cases hw
    exact ⟨m, .const, .refl m⟩
  | ident hx =>
    obtain ⟨t, rfl, -, hget⟩ := hknows _ _ _ hx hw
    exact ⟨m, .temp hget, .refl m⟩
  | @arithmetic op o l r a b hop hl _ ihl ihr =>
    simp only [Source.Expr.value?, Option.bind_eq_bind, Option.bind_eq_some_iff] at hw
    obtain ⟨x, hx, y, hy, hw⟩ := hw
    cases (Source.Op.result?_arithmetic hop x y).symm.trans hw
    obtain ⟨m₁, heval, hwrites⟩ := ihl hx hknows
    obtain ⟨m₂, heval', hwrites'⟩ := ihr hy (hknows.after hwrites (hl.written_fresh hplace))
    exact ⟨m₂, .binOp heval heval', hwrites.trans hwrites'⟩
  | @comparison op o l r a b result t f hop hl hr hfresh hnew ihl ihr =>
    simp only [Source.Expr.value?, Option.bind_eq_bind, Option.bind_eq_some_iff] at hw
    obtain ⟨x, hx, y, hy, hw⟩ := hw
    cases (Source.Op.result?_comparison hop x y).symm.trans hw
    rw [List.mem_append, not_or] at hnew
    have hwrites₀ := WritesOnly.insert m result (.narrow 1)
    have hknows₀ := hknows.after hwrites₀ (by simpa using hfresh)
    obtain ⟨m₁, heval, hwrites⟩ := ihl hx hknows₀
    obtain ⟨m₂, heval', hwrites'⟩ := ihr hy (hknows₀.after hwrites (hl.written_fresh hplace))
    have hresult : m₂.temps[result]? = some (.narrow 1) := by
      rw [hwrites'.temps result hnew.2, hwrites.temps result hnew.1]
      exact Std.ExtTreeMap.getElem?_insert_self
    obtain ⟨m', hverdict, rfl⟩ := @eval_verdict o a b result t f _ _ _ _ _ heval heval' hresult
    refine ⟨_, hverdict, ?_⟩
    rw [Lowered.written_verdict]
    refine hwrites₀.trans (hwrites.trans (hwrites'.trans ?_))
    split
    · exact ⟨rfl, fun _ _ => rfl⟩
    · exact .insert m₂ result _
  | not _ ih =>
    simp only [Source.Expr.value?, Option.bind_eq_bind, Option.bind_eq_some_iff] at hw
    obtain ⟨x, hx, hw⟩ := hw
    have hsub : Lower.meaning .sub = .arithmetic .minus := rfl
    cases (Source.Op.result?_arithmetic hsub (.narrow 1) x).symm.trans hw
    obtain ⟨m', heval, hwrites⟩ := ih hx hknows
    exact ⟨m', .binOp .const heval, hwrites⟩

end Lowering
