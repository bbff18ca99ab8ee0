import Lowering.Proofs.Linear.Building
import Lowering.Proofs.Linear.Marks

/-!
# What linear code keeps and what it adds

The labels, jumps and calls of linear code are those of the tree, in the same order. The only thing
that linear code adds are temps for saved values, and these come after all temps of the tree.
-/

namespace Lowering.Tree

/-- The temps that stand in a piece of code. -/
def tempsOf (code : List Stm) : List Temp := code.flatMap Stm.temps

theorem Expr.mem_tempsAll {t : Temp} {es : List Expr} : t ∈ Expr.tempsAll es ↔ ∃ e ∈ es, t ∈ e.temps := by
  induction es with
  | nil => simp [Expr.tempsAll]
  | cons e rest ih => simp [Expr.tempsAll, ih]

/-- Every temp is known or fresh. -/
def KnownOrFresh (known : List Temp) (n : Nat) (ts : List Temp) : Prop := ∀ t ∈ ts, t ∈ known ∨ n ≤ t.index

@[simp] theorem knownOrFresh_append {known ts us : List Temp} {n : Nat} :
    KnownOrFresh known n (ts ++ us) ↔ KnownOrFresh known n ts ∧ KnownOrFresh known n us := List.forall_mem_append

theorem builds_temps (known : List Temp) (n : Nat) :
    Builds n (fun e => KnownOrFresh known n e.temps) (fun c => KnownOrFresh known n c.temps) where
  const _ _ ht := absurd ht List.not_mem_nil
  longConst _ _ ht := absurd ht List.not_mem_nil
  name _ _ ht := absurd ht List.not_mem_nil
  fresh t hn u hu := by
    obtain rfl := List.mem_singleton.1 hu
    exact .inr hn
  binOp _ _ _ hl hr := knownOrFresh_append.2 ⟨hl, hr⟩
  mem _ ha := ha
  call f args hf hargs := by
    refine knownOrFresh_append.2 ⟨hf, fun t ht => ?_⟩
    obtain ⟨e, he, hte⟩ := Expr.mem_tempsAll.1 ht
    exact hargs e he t hte
  move _ _ hd he := knownOrFresh_append.2 ⟨hd, he⟩
  exp _ he _ := he
  jump _ _ he := he
  cjump _ _ _ _ _ hl hr := knownOrFresh_append.2 ⟨hl, hr⟩
  label _ _ ht := absurd ht List.not_mem_nil

theorem Stm.tempBound_le_of_mem_linearize (st : Stm) {t : Temp} (ht : t ∈ tempsOf st.linearize) (hnew : t ∉ st.temps) :
    st.tempBound ≤ t.index := by
  obtain ⟨c, hc, htc⟩ := List.mem_flatMap.1 ht
  have hknown : ∀ u ∈ st.temps, KnownOrFresh st.temps st.tempBound (Expr.temp u).temps := by
    intro u hu v hv
    obtain rfl := List.mem_singleton.1 hv
    exact .inl hu
  rcases st.linearize_fine (builds_temps _ _) hknown c hc t htc with hold | hfresh
  · exact absurd hold hnew
  · exact hfresh

/-- Linear code has the labels, jumps and calls of the tree in their order, and its other temps come after
all those of the tree. -/
theorem Stm.linearize_conserves (st : Stm) : marksOf st.linearize = st.marks ∧
    ∀ t ∈ tempsOf st.linearize, t ∉ st.temps → ∀ u ∈ st.temps, u.index < t.index := by
  refine ⟨st.marksOf_linearize, fun t ht hnew u hu => ?_⟩
  exact (st.index_lt_tempBound hu).trans_le (st.tempBound_le_of_mem_linearize ht hnew)

end Lowering.Tree
