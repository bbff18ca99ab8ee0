import Mathlib

/-!
# What a piece of work comes to

Running code, drawing from a supply, lowering a procedure and lowering a unit have one form: work
on a state that ends with a value or stops with an error. One relation and its rules for the
building blocks serve them all.
-/

namespace Lowering

/-! ## One piece of work after another -/

section

variable {ε σ α β : Type} {x : ExceptT ε (StateM σ) α} {f : α → ExceptT ε (StateM σ) β} {s s' : σ}

theorem run_bind_ok {a : α} (h : x.run.run s = (.ok a, s')) : (x >>= f).run.run s = (f a).run.run s' := by
  change (ExceptT.bindCont f (x.run.run s).1).run (x.run.run s).2 = _
  rw [h]
  rfl

theorem run_bind_error {e : ε} (h : x.run.run s = (.error e, s')) : (x >>= f).run.run s = (.error e, s') := by
  change (ExceptT.bindCont f (x.run.run s).1).run (x.run.run s).2 = _
  rw [h]
  rfl

theorem run_get_bind (g : σ → ExceptT ε (StateM σ) β) (s : σ) : (get >>= g).run.run s = (g s).run.run s := rfl

end

section

variable {ε σ α β : Type} {s s' s'' : σ}

/-- From the state `s` the work ends with `a` and leaves the state `s'`. -/
def Yields (x : ExceptT ε (StateM σ) α) (s : σ) (a : α) (s' : σ) : Prop :=
  x.run.run s = (.ok a, s')

/-! ## Building blocks -/

theorem yields_pure {a b : α} : Yields (pure a : ExceptT ε (StateM σ) α) s b s' ↔ a = b ∧ s = s' := by
  constructor
  · intro h
    cases h
    exact ⟨rfl, rfl⟩
  · rintro ⟨rfl, rfl⟩
    rfl

theorem not_yields_throw {a : α} (e : ε) :
    ¬ Yields (throw e : ExceptT ε (StateM σ) α) s a s' := by
  intro h
  cases h

theorem yields_bind {x : ExceptT ε (StateM σ) α} {f : α → ExceptT ε (StateM σ) β} {b : β} :
    Yields (x >>= f) s b s'' ↔ ∃ a s', Yields x s a s' ∧ Yields (f a) s' b s'' := by
  unfold Yields
  rcases hx : x.run.run s with ⟨e | a, s'⟩
  · rw [run_bind_error hx]
    constructor
    · intro h
      cases h
    · rintro ⟨_, _, h, -⟩
      cases h
  · rw [run_bind_ok hx]
    constructor
    · intro h
      exact ⟨a, s', rfl, h⟩
    · rintro ⟨_, _, h, hf⟩
      cases h
      exact hf

theorem yields_get {t : σ} :
    Yields (get : ExceptT ε (StateM σ) σ) s t s' ↔ s = t ∧ s = s' := by
  constructor
  · intro h
    cases h
    exact ⟨rfl, rfl⟩
  · rintro ⟨rfl, rfl⟩
    rfl

theorem yields_set {t : σ} {u : PUnit} :
    Yields (set t : ExceptT ε (StateM σ) PUnit) s u s' ↔ t = s' := by
  constructor
  · intro h
    cases h
    rfl
  · rintro rfl
    rfl

theorem yields_modify {f : σ → σ} {u : PUnit} :
    Yields (modify f : ExceptT ε (StateM σ) PUnit) s u s' ↔ f s = s' := by
  constructor
  · intro h
    cases h
    rfl
  · rintro rfl
    rfl

theorem yields_modifyGet {f : σ → α × σ} {a : α} :
    Yields (modifyGet f : ExceptT ε (StateM σ) α) s a s' ↔ f s = (a, s') := by
  constructor
  · intro h
    cases h
    rfl
  · intro h
    change (Except.ok (f s).1, (f s).2) = (Except.ok a, s')
    rw [h]

theorem yields_mk_modifyGet {f : σ → Except ε α × σ} {a : α} :
    Yields (ExceptT.mk (modifyGet f)) s a s' ↔ f s = (.ok a, s') := Iff.rfl

/-! ## Work that cannot fail -/

/-- From the state `s` the work gives `a` and leaves the state `s'`. -/
def Gives (x : StateM σ α) (s : σ) (a : α) (s' : σ) : Prop := x.run s = (a, s')

theorem gives_run (x : StateM σ α) (s : σ) : Gives x s (x.run s).1 (x.run s).2 := rfl

theorem gives_pure {a b : α} : Gives (pure a : StateM σ α) s b s' ↔ b = a ∧ s' = s := by
  constructor
  · intro h
    cases h
    exact ⟨rfl, rfl⟩
  · rintro ⟨rfl, rfl⟩
    rfl

theorem gives_bind {x : StateM σ α} {f : α → StateM σ β} {b : β} :
    Gives (x >>= f) s b s'' ↔ ∃ a s', Gives x s a s' ∧ Gives (f a) s' b s'' := by
  constructor
  · intro h
    exact ⟨_, _, gives_run x s, h⟩
  · rintro ⟨a, s', hx, hf⟩
    change (f (x.run s).1).run (x.run s).2 = (b, s'')
    rw [show x.run s = (a, s') from hx]
    exact hf

/-! ## Other work inside -/

theorem yields_liftExcept {x : Except ε α} {a : α} :
    Yields (liftM x : ExceptT ε (StateM σ) α) s a s' ↔ x = .ok a ∧ s = s' := by
  constructor
  · intro h
    cases h
    exact ⟨rfl, rfl⟩
  · rintro ⟨rfl, rfl⟩
    rfl

theorem yields_liftState {x : StateM σ α} {a : α} :
    Yields (liftM x : ExceptT ε (StateM σ) α) s a s' ↔ Gives x s a s' := by
  constructor
  · intro h
    cases h
    rfl
  · intro h
    change (Except.ok (x.run s).1, (x.run s).2) = (Except.ok a, s')
    rw [show x.run s = (a, s') from h]

/-! ## Lists of work -/

theorem yields_mapM_nil {f : α → ExceptT ε (StateM σ) β} {bs : List β} :
    Yields ([].mapM f) s bs s' ↔ bs = [] ∧ s = s' := by
  rw [List.mapM_nil, yields_pure, eq_comm]

theorem yields_mapM_cons {f : α → ExceptT ε (StateM σ) β} {a : α} {as : List α} {bs : List β} :
    Yields ((a :: as).mapM f) s bs s'' ↔
      ∃ b s' rest, Yields (f a) s b s' ∧ Yields (as.mapM f) s' rest s'' ∧ bs = b :: rest := by
  simp only [List.mapM_cons, yields_bind, yields_pure]
  constructor
  · rintro ⟨b, s', hb, rest, _, hrest, rfl, rfl⟩
    exact ⟨b, s', rest, hb, hrest, rfl⟩
  · rintro ⟨b, s', rest, hb, hrest, rfl⟩
    exact ⟨b, s', hb, rest, s'', hrest, rfl, rfl⟩

/-! ## Work that stops -/

/-- From the state `s` the work stops with the error `e`. -/
def Stops (x : ExceptT ε (StateM σ) α) (s : σ) (e : ε) : Prop := (x.run.run s).1 = .error e

theorem not_stops_pure {a : α} {e : ε} : ¬ Stops (pure a : ExceptT ε (StateM σ) α) s e := nofun

theorem stops_throw {e e' : ε} : Stops (throw e : ExceptT ε (StateM σ) α) s e' ↔ e = e' := by
  constructor
  · intro h
    cases h
    rfl
  · rintro rfl
    rfl

theorem stops_bind {x : ExceptT ε (StateM σ) α} {f : α → ExceptT ε (StateM σ) β} {e : ε} :
    Stops (x >>= f) s e ↔ Stops x s e ∨ ∃ a s', Yields x s a s' ∧ Stops (f a) s' e := by
  unfold Stops Yields
  rcases hx : x.run.run s with ⟨e' | a, s'⟩
  · rw [run_bind_error hx]
    constructor
    · intro h
      cases h
      exact .inl rfl
    · rintro (h | ⟨_, _, h, -⟩)
      · cases h
        rfl
      · cases h
  · rw [run_bind_ok hx]
    constructor
    · intro h
      exact .inr ⟨a, s', rfl, h⟩
    · rintro (h | ⟨_, _, h, hf⟩)
      · cases h
      · cases h
        exact hf

theorem not_stops_get {e : ε} : ¬ Stops (get : ExceptT ε (StateM σ) σ) s e := nofun

theorem not_stops_set {t : σ} {e : ε} : ¬ Stops (set t : ExceptT ε (StateM σ) PUnit) s e := nofun

theorem not_stops_modify {f : σ → σ} {e : ε} : ¬ Stops (modify f : ExceptT ε (StateM σ) PUnit) s e := nofun

theorem not_stops_modifyGet {f : σ → α × σ} {e : ε} :
    ¬ Stops (modifyGet f : ExceptT ε (StateM σ) α) s e := nofun

theorem stops_mk_modifyGet {f : σ → Except ε α × σ} {e : ε} :
    Stops (ExceptT.mk (modifyGet f)) s e ↔ (f s).1 = .error e := Iff.rfl

theorem stops_liftExcept {x : Except ε α} {e : ε} :
    Stops (liftM x : ExceptT ε (StateM σ) α) s e ↔ x = .error e := by
  cases x with
  | error e' =>
    constructor
    · intro h
      cases h
      rfl
    · intro h
      cases h
      rfl
  | ok a => exact ⟨nofun, nofun⟩

theorem not_stops_liftState {x : StateM σ α} {e : ε} :
    ¬ Stops (liftM x : ExceptT ε (StateM σ) α) s e := nofun

end

end Lowering
