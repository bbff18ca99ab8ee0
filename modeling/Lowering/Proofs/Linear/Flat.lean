import Lowering.Proofs.Linear.Building

/-!
# Linear code is flat

No statement of linear code is a chain, and none holds another statement at any depth.
-/

namespace Lowering.Tree

/-! ## Flat code -/

mutual
/-- No statement stands inside the expression. -/
def Expr.isFlat : Expr → Bool
  | .const _ | .longConst _ | .name _ | .temp _ => true
  | .binOp _ l r => l.isFlat && r.isFlat
  | .mem a => a.isFlat
  | .call f args => f.isFlat && Expr.areFlat args
  | .eseq _ _ => false

def Expr.areFlat : List Expr → Bool
  | [] => true
  | e :: rest => e.isFlat && Expr.areFlat rest
end

@[inherit_doc Expr.isFlat]
def Stm.isFlat : Stm → Bool
  | .move d s => d.isFlat && s.isFlat
  | .exp e | .jump e _ => e.isFlat
  | .cjump _ l r _ _ => l.isFlat && r.isFlat
  | .seq _ _ => false
  | .label _ => true

def AllFlat (code : List Stm) : Prop := ∀ c ∈ code, c.isFlat = true

mutual
theorem Expr.label_notMem_marks {l : Label} (e : Expr) (h : e.isFlat = true) : .label l ∉ e.marks := by
  cases e with
  | const _ | longConst _ | name _ | temp _ => simp [Expr.marks]
  | binOp op a b =>
    obtain ⟨ha, hb⟩ := Bool.and_eq_true_iff.1 h
    simp [Expr.marks, a.label_notMem_marks ha, b.label_notMem_marks hb]
  | mem a => exact a.label_notMem_marks h
  | call f args =>
    obtain ⟨hf, hargs⟩ := Bool.and_eq_true_iff.1 h
    simp [Expr.marks, f.label_notMem_marks hf, Expr.label_notMem_marksAll args hargs]
  | eseq st e => cases h

theorem Expr.label_notMem_marksAll {l : Label} (es : List Expr) (h : Expr.areFlat es = true) :
    .label l ∉ Expr.marksAll es := by
  cases es with
  | nil => simp [Expr.marksAll]
  | cons e rest =>
    obtain ⟨he, hrest⟩ := Bool.and_eq_true_iff.1 h
    simp [Expr.marksAll, e.label_notMem_marks he, Expr.label_notMem_marksAll rest hrest]
end

theorem Stm.eq_label_of_mem_marks {c : Stm} {l : Label} (h : c.isFlat = true) (hl : .label l ∈ c.marks) :
    c = .label l := by
  cases c with
  | label l' =>
    rw [Stm.marks, List.mem_singleton, Mark.label.injEq] at hl
    rw [hl]
  | move a b | cjump _ a b _ _ =>
    obtain ⟨ha, hb⟩ := Bool.and_eq_true_iff.1 h
    simp [Stm.marks, a.label_notMem_marks ha, b.label_notMem_marks hb] at hl
  | exp e => exact absurd hl (e.label_notMem_marks h)
  | jump e labels => simp [Stm.marks, e.label_notMem_marks h] at hl
  | seq a b => cases h

/-! ## Linear code -/

theorem Expr.areFlat_iff {es : List Expr} : Expr.areFlat es = true ↔ ∀ e ∈ es, e.isFlat = true := by
  induction es with
  | nil => simp [Expr.areFlat]
  | cons e rest ih => simp [Expr.areFlat, ih]

theorem builds_flat (n : Nat) : Builds n (·.isFlat = true) (·.isFlat = true) where
  const _ := rfl
  longConst _ := rfl
  name _ := rfl
  fresh _ _ := rfl
  binOp _ _ _ hl hr := by simp [Expr.isFlat, hl, hr]
  mem _ ha := ha
  call _ _ hf hargs := by simp [Expr.isFlat, hf, Expr.areFlat_iff.2 hargs]
  move _ _ hd he := by simp [Stm.isFlat, hd, he]
  exp _ he _ := he
  jump _ _ he := he
  cjump _ _ _ _ _ hl hr := by simp [Stm.isFlat, hl, hr]
  label _ := rfl

theorem Stm.linearize_flat (st : Stm) : AllFlat st.linearize := st.linearize_fine (builds_flat _) fun _ _ => rfl

end Lowering.Tree
