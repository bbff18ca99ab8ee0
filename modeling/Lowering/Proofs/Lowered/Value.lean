import Lowering.Procedure
import Lowering.Proofs.Lowered.Coercion

/-!
# What expressions lower to

The code of an expression follows its source. A variable is read where it is kept, an operator
becomes the operator of the machine, and a comparison leaves its verdict in a temp that is fresh.
Nothing but the supply changes while an expression is lowered.
-/

namespace Lowering

open Lowering.Tree (Temp Label Stm)
open Supply (Before labelsBetween)

/-! ## Code of values and conditions -/

section

variable (place : String → Option Tree.Expr) (fresh : Temp → Prop)

/-- The code of the value of an expression. Variables are kept where `place` says. The temp of a
verdict is `fresh`, and no operand of the comparison writes it. -/
inductive ValueCode : Source.Expr → Tree.Expr → Prop
  | literal {spelling w} :
    Source.Literal.parse? spelling = some w → ValueCode (.literal spelling) (.ofWord w)
  | bool {b} : ValueCode (.bool b) (.const (if b then 1 else 0))
  | ident {x c} : place x = some c → ValueCode (.ident x) c
  | arithmetic {op o l r a b} :
    Lower.meaning op = .arithmetic o → ValueCode l a → ValueCode r b →
      ValueCode (.binary op l r) (.binOp o a b)
  | comparison {op o l r a b result t f} :
    Lower.meaning op = .comparison o → ValueCode l a → ValueCode r b → fresh result →
      result ∉ a.written ++ b.written →
      ValueCode (.binary op l r) (Lowered.verdict o a b result t f)
  | not {e c} : ValueCode e c → ValueCode (.not e) (.binOp .minus (.const 1) c)

/-- The branch on a condition. A comparison branches by itself, a value on being non-zero. -/
inductive BranchCode (t f : Label) : Source.Expr → Stm → Prop
  | comparison {op o l r a b} :
    Lower.meaning op = .comparison o → ValueCode place fresh l a → ValueCode place fresh r b →
      BranchCode t f (.binary op l r) (.cjump o a b t f)
  | value {e c} : ValueCode place fresh e c → BranchCode t f e (.cjump .ne c (.const 0) t f)

/-- What lowering makes of an expression: its value, or a comparison that is not tied to labels. -/
inductive PieceCode : Source.Expr → Lowered → Prop
  | value {e c} : ValueCode place fresh e c → PieceCode e (.value c)
  | relation {op o l r a b} :
    Lower.meaning op = .comparison o → ValueCode place fresh l a → ValueCode place fresh r b →
      PieceCode (.binary op l r) (.relation o a b)
  | missing {e c} : PieceCode e (.missing c)

end

variable {place place' : String → Option Tree.Expr} {fresh fresh' : Temp → Prop} {e : Source.Expr}

theorem ValueCode.mono {c : Tree.Expr} (h : ValueCode place fresh e c)
    (hplace : ∀ x c, place x = some c → place' x = some c) (hfresh : ∀ t, fresh t → fresh' t) :
    ValueCode place' fresh' e c := by
  induction h with
  | literal h => exact .literal h
  | bool => exact .bool
  | ident h => exact .ident (hplace _ _ h)
  | arithmetic h _ _ hl hr => exact .arithmetic h hl hr
  | comparison h _ _ hf hw hl hr => exact .comparison h hl hr (hfresh _ hf) hw
  | not _ h => exact .not h

theorem PieceCode.mono {l : Lowered} (h : PieceCode place fresh e l)
    (hplace : ∀ x c, place x = some c → place' x = some c) (hfresh : ∀ t, fresh t → fresh' t) :
    PieceCode place' fresh' e l := by
  cases h with
  | value h => exact .value (h.mono hplace hfresh)
  | relation h hl hr => exact .relation h (hl.mono hplace hfresh) (hr.mono hplace hfresh)
  | missing => exact .missing

theorem PieceCode.toBranch {l : Lowered} {t f : Label} {test : Stm} (h : PieceCode place fresh e l)
    (htest : l.toBranch t f = .ok test) : BranchCode place fresh t f e test := by
  cases h with
  | value h =>
    cases htest
    exact .value h
  | relation h hl hr =>
    cases htest
    exact .comparison h hl hr
  | missing => cases htest

/-- The code of a variable, whatever its storage. -/
def IsPlace (c : Tree.Expr) : Prop := ∃ fp a, c = Access.exp (.temp fp) a

theorem IsPlace.hasCall {c : Tree.Expr} (h : IsPlace c) : c.hasCall = false := by
  obtain ⟨fp, _ | _, rfl⟩ := h <;> rfl

theorem ValueCode.hasCall {c : Tree.Expr} (h : ValueCode place fresh e c)
    (hplace : ∀ x c, place x = some c → IsPlace c) : c.hasCall = false := by
  induction h with
  | @literal _ w _ => cases w <;> rfl
  | bool => rfl
  | ident h => exact (hplace _ _ h).hasCall
  | arithmetic _ _ _ hl hr => simp_all [Tree.Expr.hasCall, Tree.Expr.marks]
  | comparison _ _ _ _ _ hl hr =>
    simp_all [Tree.Expr.hasCall, Tree.Expr.marks, Lowered.verdict, Stm.ofList, Stm.marks, Tree.Mark.isCall]
  | not _ h => simpa [Tree.Expr.hasCall, Tree.Expr.marks] using h

theorem IsPlace.written {c : Tree.Expr} (h : IsPlace c) : c.written = [] := by
  obtain ⟨fp, _ | _, rfl⟩ := h <;> rfl

@[simp] theorem Lowered.written_verdict (op : RelOp) (l r : Tree.Expr) (result : Temp) (t f : Label) :
    (Lowered.verdict op l r result t f).written = result :: (l.written ++ (r.written ++ [result])) := by
  simp [Lowered.verdict, Stm.ofList, Tree.Expr.written, Stm.written]

theorem ValueCode.written_fresh {c : Tree.Expr} (h : ValueCode place fresh e c)
    (hplace : ∀ x c, place x = some c → IsPlace c) : ∀ t ∈ c.written, fresh t := by
  induction h with
  | @literal _ w _ => cases w <;> simp [Tree.Expr.ofWord, Tree.Expr.written]
  | bool => simp [Tree.Expr.written]
  | ident h => simp [(hplace _ _ h).written]
  | arithmetic _ _ _ hl hr =>
    intro t ht
    rcases List.mem_append.1 ht with ht | ht
    · exact hl t ht
    · exact hr t ht
  | comparison _ _ _ hf _ hl hr =>
    intro t ht
    rw [Lowered.written_verdict] at ht
    simp only [List.mem_cons, List.mem_append, List.not_mem_nil, or_false] at ht
    rcases ht with rfl | ht | ht | rfl
    · exact hf
    · exact hl t ht
    · exact hr t ht
    · exact hf
  | not _ h => exact h

theorem PieceCode.toExpr {l : Lowered} {s s' : Supply} {c : Tree.Expr}
    (h : PieceCode place fresh e l) (hc : Yields l.toExpr s c s')
    (hplace : ∀ x c, place x = some c → IsPlace c) (hbelow : ∀ t, fresh t → t.index < s.temps.next)
    (hfresh : ∀ t, fresh t → fresh' t)
    (hfresh' : ∀ t : Temp, s.temps.next ≤ t.index → t.index < s'.temps.next → fresh' t) :
    ValueCode place fresh' e c := by
  cases h with
  | value h =>
    obtain ⟨rfl, -⟩ := Lowered.yields_toExpr_value.1 hc
    exact h.mono (fun _ _ h => h) hfresh
  | relation h hl hr =>
    obtain ⟨r, s₁, t, s₂, f, hr', ht, hf, rfl⟩ := Lowered.yields_toExpr_relation.1 hc
    obtain ⟨rfl, rfl⟩ := Tree.gives_temp.1 hr'
    have hle : Before s.temp.2 s' :=
      (labelsBetween_of_gives ht).1.trans (labelsBetween_of_gives hf).1
    refine .comparison h (hl.mono (fun _ _ h => h) hfresh) (hr.mono (fun _ _ h => h) hfresh)
      (hfresh' _ le_rfl hle.1) fun hmem => ?_
    have hwritten : fresh (Tree.nextTemp s) := by
      rcases List.mem_append.1 hmem with hmem | hmem
      · exact hl.written_fresh hplace _ hmem
      · exact hr.written_fresh hplace _ hmem
    exact absurd (hbelow _ hwritten) (lt_irrefl _)
  | missing => exact absurd hc Lowered.not_yields_toExpr_missing

/-! ## Lowering an expression -/

namespace Lower

variable {w w' : Work} {env : Surroundings}

theorem yields_draw {α : Type} {x : Draw α} {a : α} :
    Yields (draw x) w a w' ↔ ∃ s, Yields x w.supply a s ∧ w' = { w with supply := s } := by
  unfold draw
  rw [yields_mk_modifyGet]
  constructor
  · intro h
    obtain ⟨h₁, h₂⟩ := Prod.mk.inj h
    exact ⟨_, Prod.ext h₁ rfl, h₂.symm⟩
  · rintro ⟨s, hx, rfl⟩
    rw [show x.run.run w.supply = (.ok a, s) from hx]

/-- Where the variable that a name resolves to is kept. -/
def placeIn (w : Work) (x : String) : Option Tree.Expr :=
  ((w.method.local? x).or (w.method.parameter? x)).bind fun v =>
    v.access.map (Access.exp (.temp w.frame.fp))

theorem isPlace_placeIn {x : String} {c : Tree.Expr} (h : placeIn w x = some c) : IsPlace c := by
  obtain ⟨v, -, hv⟩ := Option.bind_eq_some_iff.1 h
  obtain ⟨a, -, rfl⟩ := Option.map_eq_some_iff.1 hv
  exact ⟨_, a, rfl⟩

theorem labels_placeIn {x : String} {c : Tree.Expr} (h : placeIn w x = some c) : c.labels = [] := by
  obtain ⟨fp, a, rfl⟩ := isPlace_placeIn h
  cases a <;> simp [Access.exp]

theorem yields_resolve {x : String} {l : Lowered} (h : Yields (resolve env x) w l w') :
    w' = w ∧ ((∃ c, placeIn w x = some c ∧ l = .value c) ∨ ∃ k, l = .missing k) := by
  simp only [resolve, yields_bind, yields_get] at h
  obtain ⟨_, _, ⟨rfl, rfl⟩, h⟩ := h
  split at h
  next v hv =>
    split at h
    next access haccess =>
      simp only [framePointer, yields_bind, yields_get, yields_pure] at h
      obtain ⟨_, _, ⟨_, _, ⟨rfl, rfl⟩, rfl, rfl⟩, rfl, rfl⟩ := h
      exact ⟨rfl, .inl ⟨_, by simp [placeIn, hv, haccess], rfl⟩⟩
    next => exact absurd h (not_yields_throw _)
  next =>
    split at h
    next =>
      obtain ⟨rfl, rfl⟩ := yields_pure.1 h
      exact ⟨rfl, .inr ⟨_, rfl⟩⟩
    next => exact absurd h (not_yields_throw _)

/-- Lowering drew from the supply of `w` and left all else: the labels drawn are `labels`. -/
structure OnlyDraws (w w' : Work) (labels : List Label) : Prop where
  same : w' = { w with supply := w'.supply }
  before : Before w.supply w'.supply
  labels : labels.Perm (labelsBetween w.supply w'.supply)

/-- Temps drawn between two states of the work. -/
def DrawnIn (w w' : Work) (t : Temp) : Prop :=
  w.supply.temps.next ≤ t.index ∧ t.index < w'.supply.temps.next

namespace OnlyDraws

variable {w'' : Work} {ls ls' : List Label}

theorem refl (w : Work) : OnlyDraws w w [] := ⟨rfl, .refl _, by simp⟩

theorem trans (h : OnlyDraws w w' ls) (h' : OnlyDraws w' w'' ls') : OnlyDraws w w'' (ls ++ ls') := by
  refine ⟨?_, h.before.trans h'.before, ?_⟩
  · rw [h'.same, h.same]
  · rw [Supply.labelsBetween_trans h.before h'.before]
    exact h.labels.append h'.labels

theorem placeIn_eq (h : OnlyDraws w w' ls) : placeIn w' = placeIn w := by
  rw [h.same]
  rfl

end OnlyDraws

/-- Lowering the expression gives a piece with its code. -/
def LowersPiece (env : Surroundings) (e : Source.Expr) : Prop :=
  ∀ w l w', Yields (lowerExpr env e) w l w' →
    OnlyDraws w w' l.labels ∧ PieceCode (placeIn w) (DrawnIn w w') e l

theorem LowersPiece.value {c : Tree.Expr} (h : LowersPiece env e) (hc : Yields (lowerValue env e) w c w') :
    OnlyDraws w w' c.labels ∧ ValueCode (placeIn w) (DrawnIn w w') e c := by
  obtain ⟨l, w₁, hl, hdraw⟩ := yields_bind.1 hc
  obtain ⟨s, hexpr, rfl⟩ := yields_draw.1 hdraw
  obtain ⟨hfirst, hpiece⟩ := h _ _ _ hl
  obtain ⟨hle, hperm⟩ := l.toExpr_spends _ _ _ hexpr
  refine ⟨⟨?_, hfirst.before.trans hle, ?_⟩, ?_⟩
  · rw [hfirst.same]
  · rw [Supply.labelsBetween_trans hfirst.before hle]
    exact hperm.trans (hfirst.labels.append_right _)
  · exact hpiece.toExpr hexpr (fun _ _ => isPlace_placeIn) (fun t ht => ht.2)
      (fun t ht => ⟨ht.1, ht.2.trans_le hle.1⟩) fun t hlo hhi => ⟨hfirst.before.1.trans hlo, hhi⟩

theorem LowersPiece.both {l r : Source.Expr} {a b : Tree.Expr} {w₁ : Work} (hl : LowersPiece env l)
    (hr : LowersPiece env r) (ha : Yields (lowerValue env l) w a w₁)
    (hb : Yields (lowerValue env r) w₁ b w') :
    OnlyDraws w w' (a.labels ++ b.labels) ∧ ValueCode (placeIn w) (DrawnIn w w') l a ∧
      ValueCode (placeIn w) (DrawnIn w w') r b := by
  obtain ⟨hdraws₁, hcode₁⟩ := hl.value ha
  obtain ⟨hdraws₂, hcode₂⟩ := hr.value hb
  rw [hdraws₁.placeIn_eq] at hcode₂
  refine ⟨hdraws₁.trans hdraws₂, hcode₁.mono (fun _ _ h => h) fun t ht => ?_,
    hcode₂.mono (fun _ _ h => h) fun t ht => ?_⟩
  · exact ⟨ht.1, ht.2.trans_le hdraws₂.before.1⟩
  · exact ⟨hdraws₁.before.1.trans ht.1, ht.2⟩

theorem yields_operands {α : Type} {l r : Source.Expr} {x : Tree.Expr → Tree.Expr → α} {y : α} :
    Yields (do
      let a ← lowerExpr env l
      let a ← draw a.toExpr
      let b ← lowerExpr env r
      let b ← draw b.toExpr
      return x a b) w y w' ↔ ∃ a w₁ b, Yields (lowerValue env l) w a w₁ ∧
        Yields (lowerValue env r) w₁ b w' ∧ y = x a b := by
  simp only [lowerValue, yields_bind, yields_pure]
  grind

theorem lowerExpr_lowers (e : Source.Expr) : LowersPiece env e := by
  intro w l w' h
  cases e with
  | binary op left right =>
    rw [lowerExpr] at h
    split at h
    next k hk =>
      obtain ⟨rfl, rfl⟩ := yields_pure.1 h
      exact ⟨.refl w, .missing⟩
    next o ho =>
      obtain ⟨a, w₁, b, ha, hb, rfl⟩ := yields_operands.1 h
      obtain ⟨hdraws, hl, hr⟩ := (lowerExpr_lowers left).both (lowerExpr_lowers right) ha hb
      exact ⟨by simpa [Lowered.labels] using hdraws, .value (.arithmetic ho hl hr)⟩
    next o ho =>
      obtain ⟨a, w₁, b, ha, hb, rfl⟩ := yields_operands.1 h
      obtain ⟨hdraws, hl, hr⟩ := (lowerExpr_lowers left).both (lowerExpr_lowers right) ha hb
      exact ⟨by simpa [Lowered.labels] using hdraws, .relation ho hl hr⟩
  | not operand =>
    obtain ⟨piece, w₁, hpiece, hdraw⟩ := yields_bind.1 h
    obtain ⟨s, hnegate, rfl⟩ := yields_draw.1 hdraw
    obtain ⟨c, hc, rfl⟩ := Lowered.yields_negate.1 hnegate
    have hvalue : Yields (lowerValue env operand) w c { w₁ with supply := s } :=
      yields_bind.2 ⟨piece, w₁, hpiece, yields_draw.2 ⟨s, hc, rfl⟩⟩
    obtain ⟨hdraws, hcode⟩ := (lowerExpr_lowers operand).value hvalue
    exact ⟨by simpa [Lowered.labels] using hdraws, .value (.not hcode)⟩
  | literal spelling =>
    rw [lowerExpr] at h
    split at h
    next v hv =>
      obtain ⟨rfl, rfl⟩ := yields_pure.1 h
      refine ⟨?_, .value (.literal hv)⟩
      cases v <;> exact .refl w
    next => exact absurd h (not_yields_throw _)
  | bool value =>
    obtain ⟨rfl, rfl⟩ := yields_pure.1 h
    exact ⟨.refl w, .value .bool⟩
  | ident name =>
    obtain ⟨rfl, ⟨c, hc, rfl⟩ | ⟨k, rfl⟩⟩ := yields_resolve h
    · exact ⟨by simpa [Lowered.labels, labels_placeIn hc] using OnlyDraws.refl w', .value (.ident hc)⟩
    · exact ⟨.refl _, .missing⟩
  | invoke _ _ _ | index _ _ | length _ | new _ | newArray _ | this =>
    obtain ⟨rfl, rfl⟩ := yields_pure.1 h
    exact ⟨.refl w, .missing⟩

theorem lowerValue_lowers {c : Tree.Expr} (h : Yields (lowerValue env e) w c w') :
    OnlyDraws w w' c.labels ∧ ValueCode (placeIn w) (DrawnIn w w') e c :=
  (lowerExpr_lowers e).value h

end Lower

end Lowering
