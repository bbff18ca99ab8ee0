import Lowering.Proofs.Lowered.Statement
import Lowering.Proofs.Source.Lowerable

/-!
# Why a piece of source is refused

Lowering stops only at a source that cannot be lowered, and the error says what is wrong with it. A
construct without a lowering may get further than that: it travels inside a piece until the piece is
coerced.
-/

namespace Lowering

open Lowering.Tree (Label Stm)

/-! ## Refusals -/

/-- The errors that a source can bring about. -/
inductive Refusal : LowerError → Prop
  | unresolved (name method : String) : Refusal (.unresolved name method)
  | unlowered (construct : Construct) : Refusal (.unlowered construct)
  | invalidLiteral (spelling : String) : Refusal (.invalidLiteral spelling)

/-- The source is not `ok`, and the error tells why. -/
def Refuses (ok : Bool) (e : LowerError) : Prop := ok = false ∧ Refusal e

/-- From the state `s` the work ends with a value as in `post`, or it stops because the source is not
`ok`. -/
structure Careful {σ α : Type} (ok : Bool) (x : ExceptT LowerError (StateM σ) α) (s : σ) (post : α → Prop) :
    Prop where
  ends : ∀ a s', Yields x s a s' → post a
  stops : ∀ e, Stops x s e → Refuses ok e

namespace Careful

variable {σ α β : Type} {s : σ} {ok ok' : Bool} {post : α → Prop}

theorem pure {a : α} (h : post a) : Careful ok (Pure.pure a) s post :=
  ⟨fun _ _ hends => (yields_pure.1 hends).1 ▸ h, fun _ hstops => absurd hstops not_stops_pure⟩

theorem throw {e : LowerError} (h : Refuses ok e) : Careful ok (MonadExcept.throw e) s post :=
  ⟨fun _ _ hends => absurd hends (not_yields_throw e), fun _ hstops => stops_throw.1 hstops ▸ h⟩

theorem bind {x : ExceptT LowerError (StateM σ) α} {f : α → ExceptT LowerError (StateM σ) β} {post' : β → Prop}
    (hx : Careful ok x s post) (hf : ∀ a s', Yields x s a s' → post a → Careful ok (f a) s' post') :
    Careful ok (x >>= f) s post' := by
  constructor
  · intro b s'' h
    obtain ⟨a, s', ha, hb⟩ := yields_bind.1 h
    exact (hf a s' ha (hx.ends a s' ha)).ends b s'' hb
  · intro e h
    rcases stops_bind.1 h with h | ⟨a, s', ha, h⟩
    · exact hx.stops e h
    · exact (hf a s' ha (hx.ends a s' ha)).stops e h

theorem weaken {x : ExceptT LowerError (StateM σ) α} (h : Careful ok x s post) (hok : ok' = true → ok = true) :
    Careful ok' x s post := by
  refine ⟨h.ends, fun e hstops => ?_⟩
  obtain ⟨hfalse, he⟩ := h.stops e hstops
  exact ⟨Bool.eq_false_iff.2 fun htrue => by simp [hok htrue] at hfalse, he⟩

theorem imp {x : ExceptT LowerError (StateM σ) α} {post' : α → Prop} (h : Careful ok x s post)
    (hpost : ∀ a, post a → post' a) : Careful ok x s post' :=
  ⟨fun a s' ha => hpost a (h.ends a s' ha), h.stops⟩

theorem get : Careful ok (MonadState.get : ExceptT LowerError (StateM σ) σ) s fun t => t = s :=
  ⟨fun _ _ h => (yields_get.1 h).1.symm, fun _ h => absurd h not_stops_get⟩

theorem liftExcept {x : Except LowerError α} {a : α} (h : x = .ok a) :
    Careful ok (liftM x : ExceptT LowerError (StateM σ) α) s fun b => b = a := by
  subst h
  refine ⟨fun b _ hb => ?_, fun e he => ?_⟩
  · exact (Except.ok.inj (yields_liftExcept.1 hb).1).symm
  · cases stops_liftExcept.1 he

end Careful

/-! ## Coercions -/

namespace Lowered

/-- A piece that can be a condition. Something is missing only if the source is not `ok`. -/
inductive Tests (ok : Bool) : Lowered → Prop
  | value {e} : Tests ok (.value e)
  | relation {op a b} : Tests ok (.relation op a b)
  | missing {k} : ok = false → Tests ok (.missing k)

/-- A piece whose conditions can be conditions. -/
inductive Stems (ok : Bool) : Lowered → Prop
  | effect {st} : Stems ok (.effect st)
  | ifThen {cond body} : Tests ok cond → Stems ok body → Stems ok (.ifThen cond body)
  | ifElse {cond body otherwise} :
    Tests ok cond → Stems ok body → Stems ok otherwise → Stems ok (.ifElse cond body otherwise)
  | test {l} : Tests ok l → Stems ok l

variable {ok ok' : Bool} {l : Lowered} {s : Supply}

theorem Tests.weaken (h : Tests ok l) (hok : ok' = true → ok = true) : Tests ok' l := by
  cases h with
  | value => exact .value
  | relation => exact .relation
  | missing hfalse => exact .missing (Bool.eq_false_iff.2 fun htrue => by simp [hok htrue] at hfalse)

theorem Stems.weaken (h : Stems ok l) (hok : ok' = true → ok = true) : Stems ok' l := by
  induction h with
  | effect => exact .effect
  | ifThen hcond _ hbody => exact .ifThen (hcond.weaken hok) hbody
  | ifElse hcond _ _ hbody hotherwise => exact .ifElse (hcond.weaken hok) hbody hotherwise
  | test h => exact .test (h.weaken hok)

theorem Tests.toBranch {σ : Type} {s : σ} {t f : Label} (h : Tests ok l) :
    Careful ok (liftM (l.toBranch t f) : ExceptT LowerError (StateM σ) Stm) s fun _ => True := by
  refine ⟨fun _ _ _ => trivial, fun e hstops => ?_⟩
  rw [stops_liftExcept] at hstops
  cases h with
  | value => cases hstops
  | relation => cases hstops
  | missing hfalse =>
    cases hstops
    exact ⟨hfalse, .unlowered _⟩

theorem careful_label : Careful ok (liftM Fresh.label : Draw Label) s fun _ => True :=
  ⟨fun _ _ _ => trivial, fun _ h => absurd h not_stops_liftState⟩

theorem Tests.toExpr (h : Tests ok l) : Careful ok l.toExpr s fun _ => True := by
  cases h with
  | value => exact .pure trivial
  | relation =>
    have htemp : Careful ok (liftM Fresh.temp : Draw _) s fun _ => True :=
      ⟨fun _ _ _ => trivial, fun _ h => absurd h not_stops_liftState⟩
    exact htemp.bind fun _ _ _ _ => careful_label.bind fun _ _ _ _ => careful_label.bind fun _ _ _ _ => .pure trivial
  | missing hfalse => exact .throw ⟨hfalse, .unlowered _⟩

theorem Stems.toStm (h : Stems ok l) : Careful ok l.toStm s fun _ => True := by
  induction h generalizing s with
  | effect => exact .pure trivial
  | ifThen hcond _ hbody =>
    exact careful_label.bind fun _ _ _ _ => careful_label.bind fun _ _ _ _ => hcond.toBranch.bind fun _ _ _ _ =>
      hbody.bind fun _ _ _ _ => .pure trivial
  | ifElse hcond _ _ hbody hotherwise =>
    exact careful_label.bind fun _ _ _ _ => careful_label.bind fun _ _ _ _ => careful_label.bind fun _ _ _ _ =>
      hcond.toBranch.bind fun _ _ _ _ => hbody.bind fun _ _ _ _ => hotherwise.bind fun _ _ _ _ => .pure trivial
  | test h =>
    cases h with
    | value => exact .pure trivial
    | relation => exact careful_label.bind fun _ _ _ _ => .pure trivial
    | missing hfalse => exact .throw ⟨hfalse, .unlowered _⟩

theorem Tests.negate (h : Tests ok l) : Careful ok l.negate s (Tests ok) :=
  h.toExpr.bind fun _ _ _ _ => .pure .value

theorem careful_weaken {σ : Type} {s : σ} {x : ExceptT LowerError (StateM σ) Lowered} (h : Careful ok x s (Stems ok))
    (hok : ok' = true → ok = true) : Careful ok' x s (Stems ok') :=
  (h.weaken hok).imp fun _ hl => hl.weaken hok

theorem careful_mapM_toStm {ls : List Lowered} (h : ∀ l ∈ ls, Stems ok l) :
    Careful ok (ls.mapM toStm) s fun _ => True := by
  induction ls generalizing s with
  | nil =>
    rw [List.mapM_nil]
    exact .pure trivial
  | cons l rest ih =>
    rw [List.mapM_cons]
    exact (h l List.mem_cons_self).toStm.bind fun _ _ _ _ =>
      (ih fun l' hl' => h l' (List.mem_cons_of_mem _ hl')).bind fun _ _ _ _ => .pure trivial

theorem careful_fold {ls : List Lowered} (h : ∀ l ∈ ls, Stems ok l) : Careful ok (fold ls) s (Stems ok) := by
  unfold fold
  split
  · exact .pure (.test .value)
  · exact .pure (h _ List.mem_cons_self)
  · exact (careful_mapM_toStm h).bind fun _ _ _ _ => .pure .effect

end Lowered

/-! ## Expressions -/

namespace Lower

variable {ok : Bool} {w w' : Work} {env : Surroundings} {visible : List String}

theorem stops_draw {α : Type} {x : Draw α} {e : LowerError} : Stops (draw x) w e ↔ Stops x w.supply e := by
  rw [draw, stops_mk_modifyGet]
  rfl

theorem careful_draw {α : Type} {x : Draw α} {post : α → Prop} (h : Careful ok x w.supply post) :
    Careful ok (draw x) w post := by
  refine ⟨fun a w' ha => ?_, fun e he => h.stops e (stops_draw.1 he)⟩
  obtain ⟨s, ha, -⟩ := yields_draw.1 ha
  exact h.ends a s ha

/-- The visible names are those of variables that are kept somewhere. -/
structure Sees (visible : List String) (w : Work) : Prop where
  place : ∀ x ∈ visible, ∃ c, placeIn w x = some c
  bound : ∀ x v, (w.method.local? x).or (w.method.parameter? x) = some v → v.access ≠ none

theorem Sees.of_onlyDraws {ls : List Label} (h : Sees visible w) (hdraws : OnlyDraws w w' ls) : Sees visible w' := by
  have hsame : w'.method = w.method := by rw [hdraws.same]
  refine ⟨?_, ?_⟩
  · rw [hdraws.placeIn_eq]
    exact h.place
  · rw [hsame]
    exact h.bound

theorem careful_framePointer : Careful ok framePointer w fun _ => True :=
  .bind .get fun _ _ _ _ => .pure trivial

theorem careful_resolve (h : Sees visible w) (x : String) :
    Careful (visible.contains x) (resolve env x) w (Lowered.Tests (visible.contains x)) := by
  unfold resolve
  refine .bind .get fun _ _ hget _ => ?_
  obtain ⟨rfl, rfl⟩ := yields_get.1 hget
  dsimp only
  cases hv : (w.method.local? x).or (w.method.parameter? x) with
  | some v =>
    dsimp only
    cases haccess : v.access with
    | some access => exact careful_framePointer.bind fun _ _ _ _ => .pure .value
    | none => exact absurd haccess (h.bound x v hv)
  | none =>
    have hhidden : visible.contains x = false := by
      rw [List.contains_eq_mem, decide_eq_false_iff_not]
      intro hx
      obtain ⟨c, hc⟩ := h.place x hx
      simp [placeIn, hv] at hc
    dsimp only
    -- A field of the class is found but has no lowering: the piece goes on until it is coerced.
    split
    · exact .pure (.missing hhidden)
    · exact .throw ⟨hhidden, .unresolved _ _⟩

theorem careful_lowerValue_of {e : Source.Expr} (h : Careful ok (lowerExpr env e) w (Lowered.Tests ok)) :
    Careful ok (lowerValue env e) w fun _ => True :=
  h.bind fun _ _ _ htests => careful_draw htests.toExpr

theorem careful_operands {α : Type} {l r : Source.Expr} {x : Tree.Expr → Tree.Expr → α} {post : α → Prop}
    (hl : ∀ {w}, Sees visible w → Careful ok (lowerValue env l) w fun _ => True)
    (hr : ∀ {w}, Sees visible w → Careful ok (lowerValue env r) w fun _ => True) (h : Sees visible w)
    (hpost : ∀ a b, post (x a b)) : Careful ok (do
      let a ← lowerExpr env l
      let a ← draw a.toExpr
      let b ← lowerExpr env r
      let b ← draw b.toExpr
      return x a b) w post := by
  -- Each operand is coerced as soon as it is lowered, which is what `lowerValue` does.
  have hboth : Careful ok (do
      let a ← lowerValue env l
      let b ← lowerValue env r
      return x a b) w post :=
    (hl h).bind fun a w₁ ha _ => (hr (h.of_onlyDraws (lowerValue_lowers ha).1)).bind fun b _ _ _ => .pure (hpost a b)
  simpa only [lowerValue, bind_assoc] using hboth

theorem isLazy_eq (op : Source.Op) : op.isLazy = match meaning op with
    | .missing _ => true
    | .arithmetic _ | .comparison _ => false := by
  cases op <;> rfl

theorem careful_lowerExpr (e : Source.Expr) {w : Work} (h : Sees visible w) :
    Careful (e.isLowerable visible) (lowerExpr env e) w (Lowered.Tests (e.isLowerable visible)) := by
  cases e with
  | binary op left right =>
    have hleft : ∀ {w}, Sees visible w →
        Careful ((Source.Expr.binary op left right).isLowerable visible) (lowerValue env left) w fun _ => True := by
      intro w h
      refine (careful_lowerValue_of (careful_lowerExpr left h)).weaken fun hok => ?_
      simp only [Source.Expr.isLowerable, Bool.and_eq_true] at hok
      exact hok.2.1
    have hright : ∀ {w}, Sees visible w →
        Careful ((Source.Expr.binary op left right).isLowerable visible) (lowerValue env right) w fun _ => True := by
      intro w h
      refine (careful_lowerValue_of (careful_lowerExpr right h)).weaken fun hok => ?_
      simp only [Source.Expr.isLowerable, Bool.and_eq_true] at hok
      exact hok.2.2
    rw [lowerExpr]
    split
    -- A lazy operator is missing whatever its operands are. They are not looked at.
    next k hk => exact .pure (.missing (by simp [Source.Expr.isLowerable, isLazy_eq, hk]))
    next => exact careful_operands hleft hright h fun _ _ => .value
    next => exact careful_operands hleft hright h fun _ _ => .relation
  | not operand =>
    exact (careful_lowerExpr operand h).bind fun _ _ _ htests => careful_draw htests.negate
  | literal spelling =>
    rw [lowerExpr]
    cases hv : Source.Literal.parse? spelling with
    | some v => exact .pure .value
    | none => exact .throw ⟨by simp [Source.Expr.isLowerable, hv], .invalidLiteral _⟩
  | bool value => exact .pure .value
  | ident name => exact careful_resolve h name
  | invoke _ _ _ | index _ _ | length _ | new _ | newArray _ | this => exact .pure (.missing rfl)

theorem careful_lowerValue (e : Source.Expr) (h : Sees visible w) :
    Careful (e.isLowerable visible) (lowerValue env e) w fun _ => True :=
  careful_lowerValue_of (careful_lowerExpr e h)

/-! ## Statements -/

theorem careful_note (e : Event) : Careful ok (note e) w fun _ => True :=
  ⟨fun _ _ _ => trivial, fun _ h => absurd h not_stops_modify⟩

theorem careful_noted {site : Source.Site} {x : Lower Lowered} {post : Lowered → Prop} (h : Careful ok x w post) :
    Careful ok (noted site x) w post :=
  h.bind fun l _ _ hl => (careful_note (.stmtLowered site l.form)).bind fun _ _ _ _ => .pure hl

theorem stops_inBlock {α : Type} {x : Lower α} {e : LowerError} (h : Stops (inBlock x) w e) :
    Stops x w.entering e ∨ ∃ a w₁ error, Yields x w.entering a w₁ ∧ w₁.method.leave.1 = .error error := by
  unfold Stops at h ⊢
  rw [run_inBlock] at h
  rcases hx : x.run.run w.entering with ⟨e' | a, w₁⟩
  · left
    rw [hx] at h
    dsimp only at h
    -- The block is left even so, and the first error is the one that is kept.
    split at h <;> exact h
  · right
    rw [hx] at h
    dsimp only at h
    split at h
    next => cases h
    next error _ hleave => exact ⟨a, w₁, error, hx, by rw [hleave]⟩

theorem careful_inBlock {α : Type} {x : Lower α} {post : α → Prop} (h : Careful ok x w.entering post)
    (hopen : ∀ a w₁, Yields x w.entering a w₁ → w₁.method.blocks ≠ []) : Careful ok (inBlock x) w post := by
  constructor
  · intro a w' ha
    obtain ⟨w₁, _, _, ha, -⟩ := yields_inBlock.1 ha
    exact h.ends a w₁ ha
  · intro e he
    rcases stops_inBlock he with he | ⟨a, w₁, error, ha, hleave⟩
    · exact h.stops e he
    · unfold Method.leave at hleave
      split at hleave
      next hblocks => exact absurd hblocks (hopen a w₁ ha)
      next => cases hleave

end Lower

end Lowering
