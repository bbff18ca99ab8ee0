import Lowering.Types
import Mathlib.Data.Fintype.Pigeonhole
import Mathlib.Logic.Relation

/-!
# Ancestors

A walk up a hierarchy has no memory, so it stops after as many steps as there are classes. That is
enough, even if the hierarchy has cycles: the shortest way to an ancestor passes no class twice.
-/

namespace Lowering.Hierarchy

variable {h : Hierarchy} {c d target : ClassId}

/-- `d` is the class that `c` extends. -/
def Extends (h : Hierarchy) (c d : ClassId) : Prop := h.superclass c = some d

/-- The ancestor that stands `k` steps above `c`. -/
def up (h : Hierarchy) : (k : Nat) → (c : ClassId) → Option ClassId
  | 0, c => some c
  | k + 1, c => (h.superclass c).bind (h.up k)

theorem up_add (j k : Nat) (c : ClassId) : h.up (j + k) c = (h.up j c).bind (h.up k) := by
  induction j generalizing c with
  | zero => simp [up]
  | succ j ih =>
    rw [Nat.add_right_comm, up, up]
    cases h.superclass c with
    | none => rfl
    | some parent => exact ih parent

theorem reaches_iff {steps : Nat} : h.reaches target steps c = true ↔ ∃ k ≤ steps, h.up k c = some target := by
  induction steps generalizing c with
  | zero => simp [reaches, up]
  | succ steps ih =>
    rw [reaches, Bool.or_eq_true, beq_iff_eq]
    constructor
    · rintro (rfl | hup)
      · exact ⟨0, Nat.zero_le _, rfl⟩
      · cases hparent : h.superclass c with
        | none => simp [hparent] at hup
        | some parent =>
          rw [hparent] at hup
          obtain ⟨k, hk, hup⟩ := ih.1 hup
          exact ⟨k + 1, by omega, by rw [up, hparent, Option.bind_some, hup]⟩
    · rintro ⟨_ | k, hk, hup⟩
      · exact .inl (Option.some.inj hup)
      · obtain ⟨parent, hparent, hup⟩ := Option.bind_eq_some_iff.1 hup
        rw [hparent]
        exact .inr (ih.2 ⟨k, by omega, hup⟩)

theorem reflTransGen_iff_up : Relation.ReflTransGen h.Extends c d ↔ ∃ k, h.up k c = some d := by
  constructor
  · intro hpath
    induction hpath using Relation.ReflTransGen.head_induction_on with
    | refl => exact ⟨0, rfl⟩
    | head hfirst _ ih =>
      obtain ⟨k, hk⟩ := ih
      exact ⟨k + 1, by rw [up, show h.superclass _ = _ from hfirst, Option.bind_some, hk]⟩
  · rintro ⟨k, hk⟩
    induction k generalizing c with
    | zero =>
      cases hk
      exact .refl
    | succ k ih =>
      obtain ⟨parent, hparent, hk⟩ := Option.bind_eq_some_iff.1 hk
      exact .head hparent (ih hk)

theorem index_lt_of_extends (hd : h.Extends c d) : c.index < h.classes.length := by
  obtain ⟨entry, hentry, -⟩ := Option.bind_eq_some_iff.1 hd
  exact (List.getElem?_eq_some_iff.1 hentry).1

theorem up_of_lt {i k : Nat} (hk : h.up k c = some target) (hi : i < k) :
    ∃ a, h.up i c = some a ∧ a.index < h.classes.length ∧ h.up (k - i) a = some target := by
  rw [show k = i + (k - i) by omega, up_add] at hk
  obtain ⟨a, ha, hrest⟩ := Option.bind_eq_some_iff.1 hk
  obtain ⟨n, hn⟩ : ∃ n, k - i = n + 1 := ⟨k - i - 1, by omega⟩
  refine ⟨a, ha, ?_, hrest⟩
  rw [hn] at hrest
  obtain ⟨parent, hparent, -⟩ := Option.bind_eq_some_iff.1 hrest
  exact index_lt_of_extends hparent

theorem exists_repeat {n : Nat} (hway : ∀ i < n, ∃ a, h.up i c = some a ∧ a.index < h.classes.length)
    (hlong : h.classes.length < n) : ∃ i j a, i < j ∧ j < n ∧ h.up i c = some a ∧ h.up j c = some a := by
  choose a ha hlt using fun i : Fin (h.classes.length + 1) => hway i (by omega)
  obtain ⟨i, j, hne, heq⟩ := Fintype.exists_ne_map_eq_of_card_lt
    (fun i => (⟨(a i).index, hlt i⟩ : Fin h.classes.length)) (by simp)
  have hsame : a i = a j := by
    have := congrArg Fin.val heq
    cases hi : a i
    cases hj : a j
    simp_all
  rcases lt_or_gt_of_ne hne with hij | hij
  · exact ⟨i, j, a i, hij, by omega, ha i, hsame ▸ ha j⟩
  · exact ⟨j, i, a j, hij, by omega, ha j, hsame ▸ ha i⟩

theorem exists_up_eq {k : Nat} (hk : h.up k c = some target) (hlong : h.classes.length < k) :
    ∃ i j a, i < j ∧ j < k ∧ h.up i c = some a ∧ h.up j c = some a := by
  refine exists_repeat (fun i hi => ?_) hlong
  obtain ⟨a, ha, hlt, -⟩ := up_of_lt hk hi
  exact ⟨a, ha, hlt⟩

theorem exists_up_lt {k : Nat} (hk : h.up k c = some target) (hlong : h.classes.length < k) :
    ∃ j < k, h.up j c = some target := by
  obtain ⟨i, j, a, hij, hjk, hi, hj⟩ := exists_up_eq hk hlong
  obtain ⟨_, hj', -, hrest⟩ := up_of_lt hk hjk
  obtain rfl := Option.some.inj (hj.symm.trans hj')
  exact ⟨i + (k - j), by omega, by rw [up_add, hi, Option.bind_some, hrest]⟩

theorem exists_up_eq_none (hacyclic : ∀ c, ¬ Relation.TransGen h.Extends c c) (c : ClassId) :
    ∃ n, h.up n c = none := by
  refine ⟨h.classes.length + 1, ?_⟩
  cases hup : h.up (h.classes.length + 1) c with
  | none => rfl
  | some target =>
    obtain ⟨i, j, a, hij, -, hi, hj⟩ := exists_up_eq hup (Nat.lt_succ_self _)
    obtain ⟨n, rfl⟩ : ∃ n, j = i + (n + 1) := ⟨j - i - 1, by omega⟩
    rw [up_add, hi, Option.bind_some, up] at hj
    obtain ⟨b, hb, hback⟩ := Option.bind_eq_some_iff.1 hj
    exact absurd (.head' hb (reflTransGen_iff_up.2 ⟨n, hback⟩)) (hacyclic a)

theorem exists_up_le {k : Nat} (hk : h.up k c = some target) : ∃ j ≤ h.classes.length, h.up j c = some target := by
  induction k using Nat.strongRecOn with
  | ind k ih =>
    rcases Nat.lt_or_ge h.classes.length k with hlong | hshort
    · obtain ⟨j, hj, hup⟩ := exists_up_lt hk hlong
      exact ih j hj hup
    · exact ⟨k, hshort, hk⟩

theorem isSubclass_iff : h.isSubclass c target = true ↔ Relation.ReflTransGen h.Extends c target := by
  rw [isSubclass, reaches_iff, reflTransGen_iff_up]
  constructor
  · rintro ⟨k, -, hk⟩
    exact ⟨k, hk⟩
  · rintro ⟨k, hk⟩
    exact exists_up_le hk

end Lowering.Hierarchy
