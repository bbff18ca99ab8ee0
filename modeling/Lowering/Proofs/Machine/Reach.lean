import Lowering.Proofs.Machine.Limit

/-!
# Runs of linear code

Control is the rest of the code. Code stands at its place when every label in it leads to what
follows the label there.
-/

namespace Lowering

open Lowering.Tree (Temp Label Expr Stm)

namespace Machine

/-! ## Many steps -/

/-- With `code` to go on `m`, control comes to `code'` on `m'`. -/
inductive Reaches (places : Std.ExtTreeMap Label (List Stm)) :
    (code : List Stm) → (m : Machine) → (code' : List Stm) → (m' : Machine) → Prop
  | refl {code m} : Reaches places code m code m
  | next {s rest code m m₁ m₂} :
    Yields (Exec.step s) m none m₁ → Reaches places rest m₁ code m₂ → Reaches places (s :: rest) m code m₂
  | goto {s rest l target code m m₁ m₂} :
    Yields (Exec.step s) m (some l) m₁ → places[l]? = some target → Reaches places target m₁ code m₂ →
      Reaches places (s :: rest) m code m₂

variable {places : Std.ExtTreeMap Label (List Stm)} {code code' code'' : List Stm}
  {m m' m'' : Machine}

namespace Reaches

theorem trans (h : Reaches places code m code' m') (h' : Reaches places code' m' code'' m'') :
    Reaches places code m code'' m'' := by
  induction h with
  | refl => exact h'
  | next hstep _ ih => exact .next hstep (ih h')
  | goto hstep hl _ ih => exact .goto hstep hl (ih h')

theorem eq_of_nil (h : Reaches places [] m code m') : code = [] ∧ m' = m := by
  cases h
  exact ⟨rfl, rfl⟩

theorem runFrom (h : Reaches places code m code' m') :
    ∃ k, ∀ limit fuel, k ≤ fuel → runFrom places fuel code (m.withLimit limit) =
      Machine.runFrom places (fuel - k) code' (m'.withLimit limit) := by
  induction h with
  | refl => exact ⟨0, fun _ _ _ => rfl⟩
  | @next s _ _ m m₁ _ hstep _ ih =>
    obtain ⟨k, hk⟩ := ih
    refine ⟨k + 1, fun limit fuel hfuel => ?_⟩
    obtain ⟨fuel, rfl⟩ : ∃ f, fuel = f + 1 := ⟨fuel - 1, by omega⟩
    have hs : (m.withLimit limit).step s = (.ok none, m₁.withLimit limit) :=
      step_withLimit limit hstep
    rw [Machine.runFrom, hs, show fuel + 1 - (k + 1) = fuel - k by omega]
    exact hk limit fuel (by omega)
  | @goto s _ l _ _ m m₁ _ hstep hl _ ih =>
    obtain ⟨k, hk⟩ := ih
    refine ⟨k + 1, fun limit fuel hfuel => ?_⟩
    obtain ⟨fuel, rfl⟩ : ∃ f, fuel = f + 1 := ⟨fuel - 1, by omega⟩
    have hs : (m.withLimit limit).step s = (.ok (some l), m₁.withLimit limit) :=
      step_withLimit limit hstep
    rw [Machine.runFrom, hs, show fuel + 1 - (k + 1) = fuel - k by omega]
    simp only [hl]
    exact hk limit fuel (by omega)

end Reaches

theorem runFrom_nil (fuel : Nat) : runFrom places fuel [] m = (.ok fuel, m) := by
  cases fuel <;> rfl

theorem run_of_reaches (h : Reaches (targets code) code m [] m') :
    ∃ enough, ∀ limit, enough ≤ limit →
      ∃ steps, (m.withLimit limit).run code = (.ok steps, m'.withLimit limit) := by
  obtain ⟨k, hk⟩ := h.runFrom
  refine ⟨k, fun limit hlimit => ⟨limit - (limit - k), ?_⟩⟩
  have hrun := hk limit limit hlimit
  rw [runFrom_nil] at hrun
  unfold Machine.run
  rw [show (m.withLimit limit).stepLimit = limit from rfl, hrun]

theorem run_of_reaches_unknown {s : Stm} {rest : List Stm} {l : Label} {m₁ : Machine}
    (h : Reaches (targets code) code m (s :: rest) m₁) (hstep : Yields (Exec.step s) m₁ (some l) m')
    (hl : l ∉ targets code) : ∃ enough, ∀ limit, enough ≤ limit →
      (m.withLimit limit).run code = (.error (.unknownLabel l), m'.withLimit limit) := by
  obtain ⟨k, hk⟩ := h.runFrom
  refine ⟨k + 1, fun limit hlimit => ?_⟩
  have hs : (m₁.withLimit limit).step s = (.ok (some l), m'.withLimit limit) :=
    step_withLimit limit hstep
  have hrun := hk limit limit (by omega)
  rw [show limit - k = (limit - k - 1) + 1 by omega, Machine.runFrom, hs] at hrun
  simp only [Std.ExtTreeMap.getElem?_eq_none hl] at hrun
  unfold Machine.run
  rw [show (m.withLimit limit).stepLimit = limit from rfl, hrun]

/-! ## Code at its place -/

/-- Every label of `code`, with `after` behind it, leads to what stands from there on. -/
def Located (places : Std.ExtTreeMap Label (List Stm)) (code after : List Stm) : Prop :=
  ∀ before l rest, code = before ++ .label l :: rest → places[l]? = some (.label l :: rest ++ after)

namespace Located

variable {a b after : List Stm}

theorem nil : Located places [] after := by
  intro before l rest h
  simp at h

theorem left (h : Located places (a ++ b) after) : Located places a (b ++ after) := by
  intro before l rest ha
  rw [h before l (rest ++ b) (by simp [ha])]
  simp

theorem right (h : Located places (a ++ b) after) : Located places b after := by
  intro before l rest hb
  exact h (a ++ before) l rest (by simp [hb])

theorem head {l : Label} (h : Located places (.label l :: a) after) :
    places[l]? = some (.label l :: a ++ after) := h [] l a rfl

end Located

theorem mem_of_mem_targets {l : Label} (h : l ∈ targets code) : .label l ∈ code := by
  fun_induction targets code with
  | case1 => simp at h
  | case2 l' rest ih =>
    rcases Std.ExtTreeMap.mem_insertIfNew.1 h with heq | h
    · rw [Std.LawfulEqCmp.eq_of_compare heq]
      exact List.mem_cons_self
    · exact List.mem_cons_of_mem _ (ih h)
  | case3 s rest _ ih => exact List.mem_cons_of_mem _ (ih h)

theorem targets_get (before rest : List Stm) {l : Label} (h : .label l ∉ rest) :
    (targets (before ++ .label l :: rest))[l]? = some (.label l :: rest) := by
  induction before with
  | nil =>
    have hnew : l ∉ targets rest := fun hl => h (mem_of_mem_targets hl)
    rw [List.nil_append, targets, Std.ExtTreeMap.getElem?_insertIfNew,
      if_pos ⟨Std.ReflCmp.compare_self, hnew⟩]
  | cons s before ih =>
    have hold : l ∈ targets (before ++ .label l :: rest) := by
      rw [Std.ExtTreeMap.mem_iff_isSome_getElem?, ih]
      rfl
    cases s with
    | label l' =>
      rw [List.cons_append, targets, Std.ExtTreeMap.getElem?_insertIfNew, ih]
      refine if_neg fun hnew => hnew.2 ?_
      rwa [Std.LawfulEqCmp.eq_of_compare hnew.1]
    | _ => exact ih

theorem located_targets (h : (Tree.labelsOf code).Nodup) : Located (targets code) code [] := by
  intro before l rest hcode
  have hrest : .label l ∉ rest := by
    intro hl
    subst hcode
    have hnodup : (l :: Tree.labelsOf rest).Nodup := (List.nodup_append.1 (by simpa using h)).2.1
    exact (List.nodup_cons.1 hnodup).1 (Tree.mem_labelsOf hl)
  rw [hcode, List.append_nil]
  exact targets_get before rest hrest

end Machine

end Lowering
