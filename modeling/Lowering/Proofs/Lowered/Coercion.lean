import Lowering.Lowered.Coercion
import Lowering.Proofs.Linear.Shape
import Lowering.Proofs.Tree.Marks

/-!
# Labels of coerced pieces

Each label of a supply is drawn once and comes to stand in one place. So the labels of a coerced
piece are those of the piece and the ones drawn for the coercion.
-/

namespace Lowering

open Lowering.Tree (Label Expr Stm labelsOf gives_temp nextTemp)

variable {s s' s'' : Supply}

/-! ## Labels of a supply -/

namespace Supply

/-- The label of a number. -/
def labelNamed (k : Nat) : Label := ⟨"L" ++ toString k⟩

theorem labelNamed_injective : Function.Injective labelNamed := by
  intro a b h
  exact Nat.repr_injective ((String.append_right_inj "L").1 (congrArg Label.name h))

/-- Nothing is given back between the two. -/
def Before (s s' : Supply) : Prop := s.temps.next ≤ s'.temps.next ∧ s.labels.next ≤ s'.labels.next

theorem Before.refl (s : Supply) : Before s s := ⟨le_rfl, le_rfl⟩

theorem Before.trans (h : Before s s') (h' : Before s' s'') : Before s s'' :=
  ⟨h.1.trans h'.1, h.2.trans h'.2⟩

/-- The labels drawn from `s` up to `s'`. -/
def labelsBetween (s s' : Supply) : List Label :=
  (List.range' s.labels.next (s'.labels.next - s.labels.next)).map labelNamed

@[simp] theorem labelsBetween_self (s : Supply) : labelsBetween s s = [] := by simp [labelsBetween]

theorem labelsBetween_trans (h : Before s s') (h' : Before s' s'') :
    labelsBetween s s'' = labelsBetween s s' ++ labelsBetween s' s'' := by
  have hmid : s'.labels.next = s.labels.next + (s'.labels.next - s.labels.next) := by
    have := h.2
    omega
  have hsum : s''.labels.next - s.labels.next =
      (s'.labels.next - s.labels.next) + (s''.labels.next - s'.labels.next) := by
    have := h.2
    have := h'.2
    omega
  simp only [labelsBetween, ← List.map_append]
  rw [hsum, ← List.range'_append_1, ← hmid]

theorem nodup_labelsBetween (s s' : Supply) : (labelsBetween s s').Nodup :=
  List.Nodup.map labelNamed_injective List.nodup_range'

theorem before_label (s : Supply) : Before s s.label.2 := ⟨le_rfl, Nat.le_succ _⟩

theorem before_temp (s : Supply) : Before s s.temp.2 := ⟨Nat.le_succ _, le_rfl⟩

theorem labelsBetween_label (s : Supply) : labelsBetween s s.label.2 = [labelNamed s.labels.next] := by
  simp [labelsBetween, Supply.label, Counter.draw]

theorem labelsBetween_temp (s : Supply) : labelsBetween s s.temp.2 = [] := by
  simp [labelsBetween, Supply.temp]

end Supply

open Supply (Before labelsBetween labelNamed)

theorem gives_label {l : Label} :
    Gives Fresh.label s l s' ↔ l = labelNamed s.labels.next ∧ s' = s.label.2 := by
  constructor
  · intro h
    cases h
    exact ⟨rfl, rfl⟩
  · rintro ⟨rfl, rfl⟩
    rfl

theorem labelsBetween_of_gives {l : Label} (h : Gives Fresh.label s l s') :
    Before s s' ∧ labelsBetween s s' = [l] := by
  obtain ⟨rfl, rfl⟩ := gives_label.1 h
  exact ⟨s.before_label, s.labelsBetween_label⟩

/-! ## What coercions give -/

namespace Lowered

variable {cond body otherwise l : Lowered} {st : Stm} {e : Expr} {op : RelOp} {left right : Expr}

theorem yields_toStm_value : Yields (toStm (.value e)) s st s' ↔ st = .exp e ∧ s' = s := by
  rw [toStm, yields_pure, eq_comm, eq_comm (a := s)]

theorem yields_toStm_effect {x : Stm} : Yields (toStm (.effect x)) s st s' ↔ st = x ∧ s' = s := by
  rw [toStm, yields_pure, eq_comm, eq_comm (a := s)]

theorem yields_toStm_ifThen : Yields (toStm (.ifThen cond body)) s st s' ↔ ∃ t s₁ f s₂ test b,
    Gives Fresh.label s t s₁ ∧ Gives Fresh.label s₁ f s₂ ∧ cond.toBranch t f = .ok test ∧
      Yields body.toStm s₂ b s' ∧ st = .ofList [test, .label t, b, .label f] := by
  simp only [toStm, yields_bind, yields_liftState, yields_liftExcept, yields_pure]
  grind

theorem yields_toStm_ifElse : Yields (toStm (.ifElse cond body otherwise)) s st s' ↔
    ∃ t s₁ f s₂ join s₃ test b s₄ o, Gives Fresh.label s t s₁ ∧ Gives Fresh.label s₁ f s₂ ∧
      Gives Fresh.label s₂ join s₃ ∧ cond.toBranch t f = .ok test ∧ Yields body.toStm s₃ b s₄ ∧
      Yields otherwise.toStm s₄ o s' ∧
      st = .ofList [test, .label t, b, .jumpTo join, .label f, o, .label join] := by
  simp only [toStm, yields_bind, yields_liftState, yields_liftExcept, yields_pure]
  grind

theorem yields_toStm_relation : Yields (toStm (.relation op left right)) s st s' ↔
    ∃ join, Gives Fresh.label s join s' ∧ st = .ofList [.cjump op left right join join, .label join] := by
  simp only [toStm, yields_bind, yields_liftState, yields_pure]
  grind

/-- One in the temp, or zero if the comparison fails. -/
def verdict (op : RelOp) (left right : Expr) (result : Tree.Temp) (t f : Label) : Expr :=
  .eseq
    (.ofList [.move (.temp result) (.const 1), .cjump op left right t f, .label f,
      .move (.temp result) (.const 0), .label t])
    (.temp result)

theorem yields_toExpr_value {x : Expr} : Yields (toExpr (.value x)) s e s' ↔ e = x ∧ s' = s := by
  rw [toExpr, yields_pure, eq_comm, eq_comm (a := s)]

theorem yields_toExpr_relation : Yields (toExpr (.relation op left right)) s e s' ↔
    ∃ r s₁ t s₂ f, Gives Fresh.temp s r s₁ ∧ Gives Fresh.label s₁ t s₂ ∧ Gives Fresh.label s₂ f s' ∧
      e = verdict op left right r t f := by
  simp only [toExpr, yields_bind, yields_liftState, yields_pure, verdict]
  grind

theorem yields_toExpr_statement (hvalue : ∀ x, l ≠ .value x) (hrelation : ∀ o a b, l ≠ .relation o a b)
    (hmissing : ∀ c, l ≠ .missing c) (h : Yields l.toExpr s e s') :
    ∃ st, Yields l.toStm s st s' ∧ e = .eseq st (.const 0) := by
  unfold toExpr at h
  split at h
  next x => exact absurd rfl (hvalue x)
  next o a b => exact absurd rfl (hrelation o a b)
  next c => exact absurd rfl (hmissing c)
  next =>
    simp only [yields_bind, yields_pure] at h
    obtain ⟨st, _, hst, rfl, rfl⟩ := h
    exact ⟨st, hst, rfl⟩

theorem not_yields_toExpr_missing {c : Construct} : ¬ Yields (toExpr (.missing c)) s e s' :=
  not_yields_throw _

theorem yields_negate : Yields l.negate s body s' ↔
    ∃ e, Yields l.toExpr s e s' ∧ body = .value (.binOp .minus (.const 1) e) := by
  simp only [negate, yields_bind, yields_pure]
  grind

/-! ## Conservation -/

/-- The labels that stand in a piece. -/
def labels : Lowered → List Label
  | .value e => e.labels
  | .effect s => s.labels
  | .ifThen cond body => cond.labels ++ body.labels
  | .ifElse cond body otherwise => cond.labels ++ (body.labels ++ otherwise.labels)
  | .relation _ left right => left.labels ++ right.labels
  | .missing _ => []

end Lowered

/-- Labels are neither lost nor doubled: those of the result are the ones that were there and the
ones drawn. -/
def Spends {α : Type} (x : Draw α) (labels : α → List Label) (there : List Label) : Prop :=
  ∀ s a s', Yields x s a s' → Before s s' ∧ (labels a).Perm (there ++ labelsBetween s s')

theorem Spends.append_left {α : Type} {x : Draw α} {labels : α → List Label} {there : List Label}
    (h : Spends x labels there) (others : List Label) :
    Spends x (fun a => others ++ labels a) (others ++ there) := by
  intro s a s' hx
  obtain ⟨hle, hperm⟩ := h s a s' hx
  rw [List.append_assoc]
  exact ⟨hle, hperm.append_left others⟩

namespace Lowered

theorem labels_toBranch {l : Lowered} {t f : Label} {test : Stm} (h : l.toBranch t f = .ok test) :
    test.labels = l.labels := by
  cases l with
  | value e =>
    cases h
    simp [labels]
  | relation op left right =>
    cases h
    simp [labels]
  | effect _ | ifThen _ _ | ifElse _ _ _ | missing _ => cases h

theorem toStm_spends (l : Lowered) : Spends l.toStm Stm.labels l.labels := by
  induction l with
  | value e =>
    intro s st s' h
    obtain ⟨rfl, rfl⟩ := yields_toStm_value.1 h
    exact ⟨.refl _, by simp [labels]⟩
  | effect x =>
    intro s st s' h
    obtain ⟨rfl, rfl⟩ := yields_toStm_effect.1 h
    exact ⟨.refl _, by simp [labels]⟩
  | ifThen cond body _ ih =>
    intro s st s' h
    obtain ⟨t, s₁, f, s₂, test, b, ht, hf, htest, hb, rfl⟩ := yields_toStm_ifThen.1 h
    obtain ⟨h₁, hbetween₁⟩ := labelsBetween_of_gives ht
    obtain ⟨h₂, hbetween₂⟩ := labelsBetween_of_gives hf
    obtain ⟨h₃, hperm⟩ := ih _ _ _ hb
    refine ⟨h₁.trans (h₂.trans h₃), List.perm_iff_count.2 fun x => ?_⟩
    have hcount := hperm.count_eq x
    rw [Supply.labelsBetween_trans h₁ (h₂.trans h₃), Supply.labelsBetween_trans h₂ h₃, hbetween₁,
      hbetween₂]
    simp only [Stm.labels_ofList, Tree.labelsOf_cons, labels_toBranch htest, Stm.labels_label, labels,
      Tree.labelsOf_nil, List.count_append, List.count_nil] at hcount ⊢
    omega
  | ifElse cond body otherwise _ ihb iho =>
    intro s st s' h
    obtain ⟨t, s₁, f, s₂, join, s₃, test, b, s₄, o, ht, hf, hjoin, htest, hb, ho, rfl⟩ :=
      yields_toStm_ifElse.1 h
    obtain ⟨h₁, hbetween₁⟩ := labelsBetween_of_gives ht
    obtain ⟨h₂, hbetween₂⟩ := labelsBetween_of_gives hf
    obtain ⟨h₃, hbetween₃⟩ := labelsBetween_of_gives hjoin
    obtain ⟨h₄, hpermb⟩ := ihb _ _ _ hb
    obtain ⟨h₅, hpermo⟩ := iho _ _ _ ho
    refine ⟨h₁.trans (h₂.trans (h₃.trans (h₄.trans h₅))), List.perm_iff_count.2 fun x => ?_⟩
    have hcountb := hpermb.count_eq x
    have hcounto := hpermo.count_eq x
    rw [Supply.labelsBetween_trans h₁ (h₂.trans (h₃.trans (h₄.trans h₅))),
      Supply.labelsBetween_trans h₂ (h₃.trans (h₄.trans h₅)),
      Supply.labelsBetween_trans h₃ (h₄.trans h₅), Supply.labelsBetween_trans h₄ h₅, hbetween₁,
      hbetween₂, hbetween₃]
    simp only [Stm.labels_ofList, Tree.labelsOf_cons, labels_toBranch htest, Stm.labels_label,
      Stm.labels_jumpTo, labels, Tree.labelsOf_nil, List.count_append, List.count_nil] at hcountb hcounto ⊢
    omega
  | relation op left right =>
    intro s st s' h
    obtain ⟨join, hjoin, rfl⟩ := yields_toStm_relation.1 h
    obtain ⟨h₁, hbetween⟩ := labelsBetween_of_gives hjoin
    exact ⟨h₁, by simp [labels, hbetween]⟩
  | missing c =>
    intro s st s' h
    exact absurd h (not_yields_throw _)

theorem toExpr_spends (l : Lowered) : Spends l.toExpr Expr.labels l.labels := by
  intro s e s' h
  cases l with
  | value x =>
    obtain ⟨rfl, rfl⟩ := yields_toExpr_value.1 h
    exact ⟨.refl _, by simp [labels]⟩
  | relation op left right =>
    obtain ⟨r, s₁, t, s₂, f, hr, ht, hf, rfl⟩ := yields_toExpr_relation.1 h
    obtain ⟨-, rfl⟩ := gives_temp.1 hr
    have h₀ := s.before_temp
    obtain ⟨h₁, hbetween₁⟩ := labelsBetween_of_gives ht
    obtain ⟨h₂, hbetween₂⟩ := labelsBetween_of_gives hf
    refine ⟨h₀.trans (h₁.trans h₂), List.perm_iff_count.2 fun x => ?_⟩
    rw [Supply.labelsBetween_trans h₀ (h₁.trans h₂), Supply.labelsBetween_trans h₁ h₂,
      s.labelsBetween_temp, hbetween₁, hbetween₂]
    simp only [verdict, Expr.labels_eseq, Stm.labels_ofList, Tree.labelsOf_cons, Stm.labels_move,
      Expr.labels_temp, Expr.labels_const, Stm.labels_cjump, Stm.labels_label, labels,
      Tree.labelsOf_nil, List.count_append, List.count_nil]
    omega
  | missing c => exact absurd h not_yields_toExpr_missing
  | effect _ | ifThen _ _ | ifElse _ _ _ =>
    obtain ⟨st, hst, rfl⟩ := yields_toExpr_statement (by simp) (by simp) (by simp) h
    obtain ⟨hle, hperm⟩ := toStm_spends _ _ _ _ hst
    exact ⟨hle, by simpa using hperm⟩

theorem mapM_toStm_spends (ls : List Lowered) :
    Spends (ls.mapM toStm) labelsOf (ls.flatMap labels) := by
  induction ls with
  | nil =>
    intro s cs s' h
    obtain ⟨rfl, rfl⟩ := yields_mapM_nil.1 h
    exact ⟨.refl _, by simp⟩
  | cons l rest ih =>
    intro s cs s' h
    obtain ⟨c, s₁, cs', hc, hcs, rfl⟩ := yields_mapM_cons.1 h
    obtain ⟨h₁, hperm⟩ := l.toStm_spends _ _ _ hc
    obtain ⟨h₂, hperm'⟩ := ih _ _ _ hcs
    refine ⟨h₁.trans h₂, List.perm_iff_count.2 fun x => ?_⟩
    have hcount := hperm.count_eq x
    have hcount' := hperm'.count_eq x
    rw [Supply.labelsBetween_trans h₁ h₂]
    simp only [Tree.labelsOf_cons, List.flatMap_cons, List.count_append] at hcount hcount' ⊢
    omega

theorem fold_spends (ls : List Lowered) : Spends (fold ls) Lowered.labels (ls.flatMap labels) := by
  intro s l s' h
  unfold fold at h
  split at h
  next =>
    obtain ⟨rfl, rfl⟩ := yields_pure.1 h
    exact ⟨.refl _, by simp [zero, labels]⟩
  next l =>
    obtain ⟨rfl, rfl⟩ := yields_pure.1 h
    exact ⟨.refl _, by simp⟩
  next =>
    simp only [yields_bind, yields_pure] at h
    obtain ⟨cs, _, hcs, rfl, rfl⟩ := h
    obtain ⟨hle, hperm⟩ := mapM_toStm_spends ls _ _ _ hcs
    exact ⟨hle, by simpa [labels] using hperm⟩

/-! ## Folded pieces -/

/-- `c` is the statement that the piece gives, from some supply. -/
def GivesStm (l : Lowered) (c : Stm) : Prop := ∃ s s', Yields l.toStm s c s'

theorem givesStm_mapM {ls : List Lowered} {cs : List Stm} (h : Yields (ls.mapM toStm) s cs s') :
    List.Forall₂ GivesStm ls cs := by
  induction ls generalizing s cs with
  | nil =>
    obtain ⟨rfl, -⟩ := yields_mapM_nil.1 h
    exact .nil
  | cons l rest ih =>
    obtain ⟨c, s₁, cs', hc, hcs, rfl⟩ := yields_mapM_cons.1 h
    exact .cons ⟨_, _, hc⟩ (ih hcs)

theorem givesStm_fold {ls : List Lowered} {l : Lowered} {c : Stm} (h : Yields (fold ls) s l s')
    (hc : l.GivesStm c) : ∃ cs, c = .ofList cs ∧ List.Forall₂ GivesStm ls cs := by
  obtain ⟨s₁, s₁', hc⟩ := hc
  unfold fold at h
  split at h
  next =>
    obtain ⟨rfl, -⟩ := yields_pure.1 h
    obtain ⟨rfl, -⟩ := yields_toStm_value.1 hc
    exact ⟨[], rfl, .nil⟩
  next l =>
    obtain ⟨rfl, -⟩ := yields_pure.1 h
    exact ⟨[c], rfl, .cons ⟨_, _, hc⟩ .nil⟩
  next =>
    simp only [yields_bind, yields_pure] at h
    obtain ⟨cs, _, hcs, rfl, -⟩ := h
    obtain ⟨rfl, -⟩ := yields_toStm_effect.1 hc
    exact ⟨cs, rfl, givesStm_mapM hcs⟩

end Lowered

end Lowering
