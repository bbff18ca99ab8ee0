import Mathlib

/-!
# Where a word ends

A word that runs into other letters can be read back if it ends at the first letter of a kind that does
not stand in it.
-/

namespace Lowering

theorem append_cons_inj {c : Char} {u v x y : List Char} (hu : c ∉ u) (hv : c ∉ v)
    (h : u ++ c :: x = v ++ c :: y) : u = v ∧ x = y := by
  induction u generalizing v with
  | nil =>
    cases v with
    | nil => exact ⟨rfl, (List.cons.inj h).2⟩
    | cons d v => exact absurd ((List.cons.inj h).1 ▸ List.mem_cons_self) hv
  | cons d u ih =>
    cases v with
    | nil => exact absurd ((List.cons.inj h).1 ▸ List.mem_cons_self) hu
    | cons e v =>
      obtain ⟨rfl, htail⟩ := List.cons.inj h
      obtain ⟨rfl, hrest⟩ := ih (List.not_mem_of_not_mem_cons hu) (List.not_mem_of_not_mem_cons hv) htail
      exact ⟨rfl, hrest⟩

/-! ## Words without marks -/

/-- The letters that set the parts of a node apart. -/
def isMark (c : Char) : Bool := c == '(' || c == ')' || c == ','

def isUnmarked (s : String) : Bool := !s.toList.any isMark

theorem notMem_of_isUnmarked {s : String} {c : Char} (hs : isUnmarked s = true) (hc : isMark c = true) :
    c ∉ s.toList := by
  unfold isUnmarked at hs
  intro hmem
  rw [List.any_eq_true.2 ⟨c, hmem, hc⟩] at hs
  cases hs

theorem isUnmarked_of_forall {s : String} (h : ∀ c ∈ s.toList, isMark c = false) : isUnmarked s = true := by
  unfold isUnmarked
  rw [List.any_eq_false.2 (by simpa using h)]
  rfl

theorem isUnmarked_append {s t : String} : isUnmarked (s ++ t) = (isUnmarked s && isUnmarked t) := by
  simp [isUnmarked]

theorem isUnmarked_repr (n : Nat) : isUnmarked n.repr = true := by
  apply isUnmarked_of_forall
  intro c hc
  rw [Nat.toList_repr] at hc
  have hdigit : c.isDigit = true := Nat.isDigit_of_mem_toDigits (by decide) (by decide) hc
  by_contra hmark
  simp only [isMark, Bool.not_eq_false, Bool.or_eq_true, beq_iff_eq] at hmark
  rcases hmark with (rfl | rfl) | rfl
  all_goals cases hdigit

theorem isUnmarked_repr_int (k : Int) : isUnmarked k.repr = true := by
  rw [Int.repr_eq_if]
  split
  · exact isUnmarked_repr _
  · rw [isUnmarked_append, isUnmarked_repr]
    rfl

/-! ## Words in a node -/

/-- What stands between two parts of a node. -/
def comma : List Char := [',', ' ']

/-- What stands behind the last part of a node. -/
def closing : List Char := [')']

variable {s t : String} {x y : List Char}

theorem open_inj (hs : isUnmarked s = true) (ht : isUnmarked t = true)
    (h : s.toList ++ '(' :: x = t.toList ++ '(' :: y) : s = t ∧ x = y := by
  obtain ⟨hword, hrest⟩ := append_cons_inj (notMem_of_isUnmarked hs rfl) (notMem_of_isUnmarked ht rfl) h
  exact ⟨String.toList_inj.1 hword, hrest⟩

theorem comma_inj (hs : isUnmarked s = true) (ht : isUnmarked t = true)
    (h : s.toList ++ (comma ++ x) = t.toList ++ (comma ++ y)) : s = t ∧ x = y := by
  obtain ⟨hword, hrest⟩ := append_cons_inj (notMem_of_isUnmarked hs rfl) (notMem_of_isUnmarked ht rfl) h
  exact ⟨String.toList_inj.1 hword, (List.cons.inj hrest).2⟩

theorem closing_inj (hs : isUnmarked s = true) (ht : isUnmarked t = true)
    (h : s.toList ++ (closing ++ x) = t.toList ++ (closing ++ y)) : s = t ∧ x = y := by
  obtain ⟨hword, hrest⟩ := append_cons_inj (notMem_of_isUnmarked hs rfl) (notMem_of_isUnmarked ht rfl) h
  exact ⟨String.toList_inj.1 hword, hrest⟩

end Lowering
