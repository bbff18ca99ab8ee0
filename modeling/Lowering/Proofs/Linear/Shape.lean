import Lowering.Proofs.Outcome
import Lowering.Tree.Linear

/-!
# What linear code is made of

For each construct of tree code, the parts of its linear code and the supplies they were drawn
from. Everything else about linear code is read off these equations.
-/

namespace Lowering.Tree

variable {s s' : Supply}

/-! ## Saving a value -/

/-- The temp that comes next. -/
def nextTemp (s : Supply) : Temp := ⟨s.temps.next⟩

@[grind =] theorem nextTemp_index : (nextTemp s).index = s.temps.next := rfl

@[grind =] theorem temps_next_temp : s.temp.2.temps.next = s.temps.next + 1 := rfl

theorem gives_temp {t : Temp} : Gives Fresh.temp s t s' ↔ t = nextTemp s ∧ s' = s.temp.2 := by
  constructor
  · intro h
    cases h
    exact ⟨rfl, rfl⟩
  · rintro ⟨rfl, rfl⟩
    rfl

namespace Hoisted

/-- The value in a temp, after the statements that put it there. -/
def savedIn (h : Hoisted) (t : Temp) : Hoisted := ⟨h.before ++ [.move (.temp t) h.value], .temp t⟩

theorem gives_saveFrom {h h' : Hoisted} {later : List Stm} :
    Gives (h.saveFrom later) s h' s' ↔
      ((later = [] ∨ h.value.isSteady = true) ∧ h' = h ∧ s' = s) ∨
      (later ≠ [] ∧ h.value.isSteady = false ∧ h' = h.savedIn (nextTemp s) ∧ s' = s.temp.2) := by
  unfold saveFrom
  split
  next hc =>
    rw [gives_pure]
    grind
  next hc =>
    simp only [gives_bind, gives_pure, gives_temp, savedIn]
    grind

/-! ## Operands -/

theorem gives_pair {l r : Fresh Hoisted} {p : Pair} :
    Gives (pair l r) s p s' ↔ ∃ hl s₁ hr s₂ hl', Gives l s hl s₁ ∧ Gives r s₁ hr s₂ ∧
      Gives (hl.saveFrom hr.before) s₂ hl' s' ∧
      p = ⟨hl'.before ++ hr.before, hl'.value, hr.value⟩ := by
  simp only [pair, gives_bind, gives_pure]
  grind

theorem gives_join_nil {code : List Stm × List Expr} :
    Gives (join []) s code s' ↔ code = ([], []) ∧ s' = s := gives_pure

theorem gives_join_cons {h : Hoisted} {rest : List Hoisted} {code : List Stm × List Expr} :
    Gives (join (h :: rest)) s code s' ↔ ∃ later values s₁ h', Gives (join rest) s (later, values) s₁ ∧
      Gives (h.saveFrom later) s₁ h' s' ∧ code = (h'.before ++ later, h'.value :: values) := by
  simp only [join, gives_bind, gives_pure, Prod.exists]
  grind

theorem gives_binOp {op : BinOp} {l r : Fresh Hoisted} {h : Hoisted} :
    Gives (binOp op l r) s h s' ↔
      ∃ p, Gives (pair l r) s p s' ∧ h = ⟨p.before, .binOp op p.left p.right⟩ := by
  simp only [binOp, gives_bind, gives_pure]
  grind

theorem gives_call {f : Fresh Hoisted} {args : Fresh (List Hoisted)} {h : Hoisted} :
    Gives (call f args) s h s' ↔ ∃ hf s₁ hs s₂ later values s₃ hf', Gives f s hf s₁ ∧
      Gives args s₁ hs s₂ ∧ Gives (join hs) s₂ (later, values) s₃ ∧
      Gives (hf.saveFrom later) s₃ hf' s' ∧ h = ⟨hf'.before ++ later, .call hf'.value values⟩ := by
  simp only [call, gives_bind, gives_pure, Prod.exists]
  grind

theorem gives_store {target source : Fresh Hoisted} {code : List Stm} :
    Gives (store target source) s code s' ↔
      ∃ p, Gives (pair target source) s p s' ∧ code = p.before ++ [.move p.left p.right] := by
  simp only [store, gives_bind, gives_pure]
  grind

end Hoisted

/-! ## Expressions -/

theorem gives_hoist_mem {a : Expr} {h : Hoisted} :
    Gives (Expr.hoist (.mem a)) s h s' ↔ ∃ ha, Gives a.hoist s ha s' ∧ h = ⟨ha.before, .mem ha.value⟩ := by
  simp only [Expr.hoist, gives_bind, gives_pure]
  grind

theorem gives_hoist_eseq {first : Stm} {e : Expr} {h : Hoisted} :
    Gives (Expr.hoist (.eseq first e)) s h s' ↔ ∃ code s₁ he, Gives first.straighten s code s₁ ∧
      Gives e.hoist s₁ he s' ∧ h = ⟨code ++ he.before, he.value⟩ := by
  simp only [Expr.hoist, gives_bind, gives_pure]
  grind

theorem gives_hoistAll_cons {e : Expr} {rest : List Expr} {hs : List Hoisted} :
    Gives (Expr.hoistAll (e :: rest)) s hs s' ↔ ∃ h s₁ hs', Gives e.hoist s h s₁ ∧
      Gives (Expr.hoistAll rest) s₁ hs' s' ∧ hs = h :: hs' := by
  simp only [Expr.hoistAll, gives_bind, gives_pure]
  grind

/-! ## Destinations -/

theorem gives_receive_temp {t : Temp} {source : Fresh Hoisted} {code : List Stm} :
    Gives (Expr.receive (.temp t) source) s code s' ↔
      ∃ h, Gives source s h s' ∧ code = h.before ++ [.move (.temp t) h.value] := by
  simp only [Expr.receive, gives_bind, gives_pure]
  grind

theorem gives_receive_mem {a : Expr} {source : Fresh Hoisted} {code : List Stm} :
    Gives (Expr.receive (.mem a) source) s code s' ↔ ∃ p, Gives (Hoisted.pair a.hoist source) s p s' ∧
      code = p.before ++ [.move (.mem p.left) p.right] := by
  simp only [Expr.receive, gives_bind, gives_pure]
  grind

theorem gives_receive_eseq {first : Stm} {target : Expr} {source : Fresh Hoisted} {code : List Stm} :
    Gives (Expr.receive (.eseq first target) source) s code s' ↔ ∃ c s₁ c', Gives first.straighten s c s₁ ∧
      Gives (target.receive source) s₁ c' s' ∧ code = c ++ c' := by
  simp only [Expr.receive, gives_bind, gives_pure]
  grind

/-! ## Statements -/

theorem gives_straighten_exp {e : Expr} {code : List Stm} :
    Gives (Stm.straighten (.exp e)) s code s' ↔ ∃ h, Gives e.hoist s h s' ∧
      code = if (Stm.exp h.value).isNop then h.before else h.before ++ [.exp h.value] := by
  simp only [Stm.straighten, gives_bind, gives_pure]
  grind

theorem gives_straighten_jump {target : Expr} {labels : List Label} {code : List Stm} :
    Gives (Stm.straighten (.jump target labels)) s code s' ↔
      ∃ h, Gives target.hoist s h s' ∧ code = h.before ++ [.jump h.value labels] := by
  simp only [Stm.straighten, gives_bind, gives_pure]
  grind

theorem gives_straighten_cjump {op : RelOp} {l r : Expr} {ifTrue ifFalse : Label} {code : List Stm} :
    Gives (Stm.straighten (.cjump op l r ifTrue ifFalse)) s code s' ↔
      ∃ p, Gives (Hoisted.pair l.hoist r.hoist) s p s' ∧
        code = p.before ++ [.cjump op p.left p.right ifTrue ifFalse] := by
  simp only [Stm.straighten, gives_bind, gives_pure]
  grind

theorem gives_straighten_seq {a b : Stm} {code : List Stm} :
    Gives (Stm.straighten (.seq a b)) s code s' ↔ ∃ c s₁ c', Gives a.straighten s c s₁ ∧
      Gives b.straighten s₁ c' s' ∧ code = c ++ c' := by
  simp only [Stm.straighten, gives_bind, gives_pure]
  grind

/-! ## Temps are drawn in order -/

/-- No temp is given back. -/
def Advances {α : Type} (x : Fresh α) : Prop :=
  ∀ s a s', Gives x s a s' → s.temps.next ≤ s'.temps.next

namespace Advances

variable {α β : Type}

theorem pure (a : α) : Advances (pure a) := by
  intro s _ s' h
  rw [(gives_pure.1 h).2]

theorem bind {x : Fresh α} {f : α → Fresh β} (hx : Advances x) (hf : ∀ a, Advances (f a)) :
    Advances (x >>= f) := by
  intro s b s'' h
  obtain ⟨a, s', ha, hb⟩ := gives_bind.1 h
  exact (hx _ _ _ ha).trans (hf a _ _ _ hb)

theorem saveFrom (h : Hoisted) (later : List Stm) : Advances (h.saveFrom later) := by
  intro s h' s' hsave
  rcases Hoisted.gives_saveFrom.1 hsave with ⟨-, -, rfl⟩ | ⟨-, -, -, rfl⟩
  · exact le_rfl
  · exact Nat.le_succ _

theorem pair {l r : Fresh Hoisted} (hl : Advances l) (hr : Advances r) :
    Advances (Hoisted.pair l r) :=
  hl.bind fun _ => hr.bind fun _ => (saveFrom _ _).bind fun _ => .pure _

theorem join (hs : List Hoisted) : Advances (Hoisted.join hs) := by
  induction hs with
  | nil => exact .pure _
  | cons h rest ih => exact ih.bind fun _ => (saveFrom _ _).bind fun _ => .pure _

theorem call {f : Fresh Hoisted} {args : Fresh (List Hoisted)} (hf : Advances f)
    (hargs : Advances args) : Advances (Hoisted.call f args) :=
  hf.bind fun _ => hargs.bind fun _ => (join _).bind fun _ => (saveFrom _ _).bind fun _ => .pure _

theorem store {target source : Fresh Hoisted} (ht : Advances target) (hs : Advances source) :
    Advances (Hoisted.store target source) := (ht.pair hs).bind fun _ => .pure _

end Advances

mutual
theorem Expr.hoist_advances (e : Expr) : Advances e.hoist := by
  cases e with
  | const _ | longConst _ | name _ | temp _ => exact .pure _
  | binOp op l r => exact (l.hoist_advances.pair r.hoist_advances).bind fun _ => .pure _
  | mem a => exact a.hoist_advances.bind fun _ => .pure _
  | call f args => exact f.hoist_advances.call (Expr.hoistAll_advances args)
  | eseq first e =>
    exact first.straighten_advances.bind fun _ => e.hoist_advances.bind fun _ => .pure _

theorem Expr.hoistAll_advances (es : List Expr) : Advances (Expr.hoistAll es) := by
  cases es with
  | nil => exact .pure _
  | cons e rest =>
    exact e.hoist_advances.bind fun _ => (Expr.hoistAll_advances rest).bind fun _ => .pure _

theorem Expr.receive_advances (target : Expr) {source : Fresh Hoisted} (hsource : Advances source) :
    Advances (target.receive source) := by
  cases target with
  | temp t => exact hsource.bind fun _ => .pure _
  | mem a => exact (a.hoist_advances.pair hsource).bind fun _ => .pure _
  | eseq first target =>
    exact first.straighten_advances.bind fun _ =>
      (target.receive_advances hsource).bind fun _ => .pure _
  | binOp op l r =>
    exact .store ((l.hoist_advances.pair r.hoist_advances).bind fun _ => .pure _) hsource
  | call f args => exact .store (f.hoist_advances.call (Expr.hoistAll_advances args)) hsource
  | const _ | longConst _ | name _ => exact .store (.pure _) hsource

theorem Stm.straighten_advances (st : Stm) : Advances st.straighten := by
  cases st with
  | move target source => exact target.receive_advances source.hoist_advances
  | exp e => exact e.hoist_advances.bind fun _ => .pure _
  | jump target labels => exact target.hoist_advances.bind fun _ => .pure _
  | cjump op l r t f => exact (l.hoist_advances.pair r.hoist_advances).bind fun _ => .pure _
  | seq a b => exact a.straighten_advances.bind fun _ => b.straighten_advances.bind fun _ => .pure _
  | label l => exact .pure _
end

end Lowering.Tree
