import Lowering.Word
import Mathlib.Data.Int.ModEq

/-!
# Exact arithmetic behind words

A sum, difference or product of words is the exact one, wrapped to the width of the result. Narrow words
are combined at 64 bits and cut down to 32. Nothing is lost by that: 64 bits are a multiple of 32.
-/

namespace Lowering

/-- The operator on integers, without any bound. -/
def BinOp.exact : BinOp → Int → Int → Int
  | .plus, a, b => a + b
  | .minus, a, b => a - b
  | .mul, a, b => a * b

theorem BinOp.toInt_apply (op : BinOp) (a b : Int64) :
    (op.apply a b).toInt = (op.exact a.toInt b.toInt).bmod (2 ^ 64) := by
  cases op with
  | plus => exact Int64.toInt_add a b
  | minus => exact Int64.toInt_sub a b
  | mul => exact Int64.toInt_mul a b

theorem BinOp.toInt_apply_toInt32 (op : BinOp) (a b : Int32) :
    (op.apply a.toInt64 b.toInt64).toInt32.toInt = (op.exact a.toInt b.toInt).bmod (2 ^ 32) := by
  rw [Int64.toInt_toInt32, op.toInt_apply, Int32.toInt_toInt64, Int32.toInt_toInt64]
  exact Int.bmod_bmod_of_dvd (Nat.pow_dvd_pow 2 (by decide))

theorem toInt_modEq_iff (v : Int32) (x : Int) : v.toInt ≡ x [ZMOD 2 ^ 32] ↔ v.toInt = x.bmod (2 ^ 32) := by
  constructor
  · intro h
    calc v.toInt = v.toInt.bmod (2 ^ 32) := v.toInt_bmod.symm
      _ = (v.toInt % 2 ^ 32).bmod (2 ^ 32) := (Int.emod_bmod _ _).symm
      _ = (x % 2 ^ 32).bmod (2 ^ 32) := by rw [h.eq]
      _ = x.bmod (2 ^ 32) := Int.emod_bmod _ _
  · intro h
    rw [h]
    exact Int.bmod_emod

namespace Word

def isNarrow : Word → Bool
  | .narrow _ => true
  | .wide _ => false

/-- The value is one of 32 bits. -/
def InRange (v : Int64) : Prop := -2147483648 ≤ v.toInt ∧ v.toInt ≤ 2147483647

theorem inRange_value {w : Word} (h : w.isNarrow = true) : InRange w.value := by
  cases w with
  | narrow v =>
    unfold InRange value
    rw [Int32.toInt_toInt64]
    exact ⟨v.le_toInt, v.toInt_le⟩
  | wide v => cases h

theorem isNarrow_ofValue {v : Int64} (h : InRange v) : (ofValue v).isNarrow = true := by
  have hsame : v.toInt32.toInt64 = v := by
    rw [← Int64.toInt_inj, Int32.toInt_toInt64, Int64.toInt_toInt32]
    exact Int.bmod_eq_of_le (by have := h.1; omega) (by have := h.2; omega)
  rw [ofValue, if_pos hsame]
  rfl

theorem combine_narrow (op : BinOp) (a b : Int32) : ∃ v, combine op (.narrow a) (.narrow b) = .narrow v ∧
    ∀ u : Int32, u.toInt ≡ op.exact a.toInt b.toInt [ZMOD 2 ^ 32] ↔ u = v := by
  refine ⟨_, rfl, fun u => ?_⟩
  rw [toInt_modEq_iff, ← op.toInt_apply_toInt32, Int32.toInt_inj]

theorem isNarrow_combine (op : BinOp) (a b : Word) : (combine op a b).isNarrow = (a.isNarrow && b.isNarrow) := by
  cases a <;> cases b <;> rfl

theorem toInt_combine_wide (op : BinOp) {a b : Word} (h : (combine op a b).isNarrow = false) :
    (combine op a b).value.toInt = (op.exact a.value.toInt b.value.toInt).bmod (2 ^ 64) := by
  rw [← op.toInt_apply]
  cases a <;> cases b
  · cases h
  all_goals rfl

end Word

end Lowering
