import Lowering.Proofs.Linear.Shape
import Lowering.Proofs.Tree.Marks

/-!
# Linear code keeps labels, jumps and calls

Hoisting moves statements to the front and values into temps, but the marks of a tree come out
of it as they went in: none is lost, none is doubled, and their order stays.
-/

namespace Lowering.Tree

variable {s s' : Supply}

/-! ## Operands -/

namespace Hoisted

def marks (h : Hoisted) : List Mark := marksOf h.before ++ h.value.marks

theorem marks_of_isSteady {e : Expr} (h : e.isSteady = true) : e.marks = [] := by
  cases e <;> simp_all [Expr.isSteady, Expr.marks]

theorem saveFrom_marks {h h' : Hoisted} {later : List Stm} (hsave : Gives (h.saveFrom later) s h' s') :
    marksOf h'.before ++ (marksOf later ++ h'.value.marks) = h.marks ++ marksOf later := by
  rcases gives_saveFrom.1 hsave with ⟨hkeep, rfl, -⟩ | ⟨-, -, rfl, -⟩
  · rcases hkeep with rfl | hsteady
    · simp [marks]
    · simp [marks, marks_of_isSteady hsteady]
  · simp [marks, savedIn, Stm.marks, Expr.marks]

/-- Whatever the supply, hoisting keeps these marks. -/
def Keeps (x : Fresh Hoisted) (ms : List Mark) : Prop := ∀ s h s', Gives x s h s' → h.marks = ms

theorem pair_marks {l r : Fresh Hoisted} {p : Pair} {ml mr : List Mark} (hl : Keeps l ml)
    (hr : Keeps r mr) (hp : Gives (pair l r) s p s') :
    marksOf p.before ++ (p.left.marks ++ p.right.marks) = ml ++ mr := by
  obtain ⟨left, _, right, _, left', hgl, hgr, hsave, rfl⟩ := gives_pair.1 hp
  have hleft := saveFrom_marks hsave
  rw [hl _ _ _ hgl] at hleft
  calc marksOf (left'.before ++ right.before) ++ (left'.value.marks ++ right.value.marks)
      = (marksOf left'.before ++ (marksOf right.before ++ left'.value.marks)) ++ right.value.marks := by
        simp
    _ = ml ++ right.marks := by rw [hleft, marks, List.append_assoc]
    _ = ml ++ mr := by rw [hr _ _ _ hgr]

theorem hasCall_value {x : Fresh Hoisted} {h : Hoisted} {ms : List Mark} (hx : Keeps x ms)
    (hg : Gives x s h s') (hms : ms.any Mark.isCall = false) : h.value.hasCall = false := by
  rw [← hx _ _ _ hg, marks, List.any_append, Bool.or_eq_false_iff] at hms
  exact hms.2

theorem pair_hasCall {l r : Fresh Hoisted} {p : Pair} {ml mr : List Mark} (hl : Keeps l ml)
    (hr : Keeps r mr) (hp : Gives (pair l r) s p s') :
    (ml.any Mark.isCall = false → p.left.hasCall = false) ∧
      (mr.any Mark.isCall = false → p.right.hasCall = false) := by
  obtain ⟨left, _, right, _, left', hgl, hgr, hsave, rfl⟩ := gives_pair.1 hp
  refine ⟨fun hcall => ?_, hasCall_value hr hgr⟩
  rcases gives_saveFrom.1 hsave with ⟨-, rfl, -⟩ | ⟨-, -, rfl, -⟩
  · exact hasCall_value hl hgl hcall
  · rfl

theorem join_marks {hs : List Hoisted} {later : List Stm} {values : List Expr}
    (hj : Gives (join hs) s (later, values) s') :
    marksOf later ++ Expr.marksAll values = hs.flatMap marks ∧ values.length = hs.length := by
  induction hs generalizing later values s' with
  | nil =>
    obtain ⟨heq, -⟩ := gives_join_nil.1 hj
    cases heq
    simp [Expr.marksAll]
  | cons h rest ih =>
    obtain ⟨later', values', _, h', hrest, hsave, heq⟩ := gives_join_cons.1 hj
    cases heq
    obtain ⟨hmarks, hlength⟩ := ih hrest
    refine ⟨?_, by simp [hlength]⟩
    rw [List.flatMap_cons, ← hmarks, ← List.append_assoc h.marks, ← saveFrom_marks hsave]
    simp [Expr.marksAll]

theorem binOp_marks {op : BinOp} {l r : Fresh Hoisted} {ml mr : List Mark} (hl : Keeps l ml)
    (hr : Keeps r mr) : Keeps (binOp op l r) (ml ++ mr) := by
  intro _ _ _ hh
  obtain ⟨p, hp, rfl⟩ := gives_binOp.1 hh
  exact pair_marks hl hr hp

theorem call_marks {f : Fresh Hoisted} {args : Fresh (List Hoisted)} {mf ms : List Mark} {n : Nat}
    (hf : Keeps f mf)
    (hargs : ∀ s hs s', Gives args s hs s' → hs.flatMap marks = ms ∧ hs.length = n) :
    Keeps (call f args) (mf ++ ms ++ [.call n]) := by
  intro _ _ _ hh
  obtain ⟨_, _, _, _, later, values, _, target', hgf, hgs, hj, hsave, rfl⟩ := gives_call.1 hh
  obtain ⟨hmarks, hlength⟩ := join_marks hj
  obtain ⟨hall, hcount⟩ := hargs _ _ _ hgs
  have htarget := saveFrom_marks hsave
  rw [hf _ _ _ hgf] at htarget
  rw [← hall, ← hmarks, ← List.append_assoc mf, ← htarget, ← hcount, ← hlength]
  simp [marks, Expr.marks]

theorem store_marks {target source : Fresh Hoisted} {mt ms : List Mark} {code : List Stm}
    (ht : Keeps target mt) (hs : Keeps source ms) (hcode : Gives (store target source) s code s') :
    marksOf code = mt ++ ms := by
  obtain ⟨p, hp, rfl⟩ := gives_store.1 hcode
  simpa [Stm.marks] using pair_marks ht hs hp

theorem leaf_marks {e : Expr} (he : e.marks = []) : Keeps (pure ⟨[], e⟩) [] := by
  intro _ _ _ hh
  obtain ⟨rfl, -⟩ := gives_pure.1 hh
  simp [marks, he]

end Hoisted

/-! ## Trees -/

theorem Expr.hoist_target? (e : Expr) {s s' : Supply} {h : Hoisted} (hh : Gives e.hoist s h s') :
    h.value.target? = e.target? := by
  cases e with
  | const _ | longConst _ | name _ | temp _ =>
    rw [Expr.hoist, gives_pure] at hh
    rw [hh.1]
  | binOp op l r =>
    rw [Expr.hoist, Hoisted.gives_binOp] at hh
    obtain ⟨_, _, rfl⟩ := hh
    rfl
  | mem a =>
    obtain ⟨_, _, rfl⟩ := gives_hoist_mem.1 hh
    rfl
  | call f args =>
    rw [Expr.hoist, Hoisted.gives_call] at hh
    obtain ⟨_, _, _, _, _, _, _, _, _, _, _, _, rfl⟩ := hh
    rfl
  | eseq first e =>
    obtain ⟨_, _, he, _, hge, rfl⟩ := gives_hoist_eseq.1 hh
    have hvalue : he.value.target? = e.target? := e.hoist_target? hge
    exact hvalue

mutual
theorem Expr.hoist_marks (e : Expr) : Hoisted.Keeps e.hoist e.marks := by
  cases e with
  | const _ | longConst _ | name _ | temp _ =>
    rw [Expr.hoist, Expr.marks]
    exact Hoisted.leaf_marks (by rw [Expr.marks])
  | binOp op l r =>
    rw [Expr.hoist, Expr.marks]
    exact Hoisted.binOp_marks l.hoist_marks r.hoist_marks
  | mem a =>
    intro _ _ _ hh
    obtain ⟨ha, hga, rfl⟩ := gives_hoist_mem.1 hh
    rw [Expr.marks, ← a.hoist_marks _ _ _ hga]
    simp [Hoisted.marks, Expr.marks]
  | call f args =>
    rw [Expr.hoist, Expr.marks]
    exact Hoisted.call_marks f.hoist_marks (Expr.hoistAll_marks args)
  | eseq first e =>
    intro _ _ _ hh
    obtain ⟨code, _, he, hcode, hge, rfl⟩ := gives_hoist_eseq.1 hh
    rw [Expr.marks, ← first.straighten_marks hcode, ← e.hoist_marks _ _ _ hge]
    simp [Hoisted.marks]

theorem Expr.hoistAll_marks (es : List Expr) (s : Supply) (hs : List Hoisted) (s' : Supply)
    (hh : Gives (Expr.hoistAll es) s hs s') :
    hs.flatMap Hoisted.marks = Expr.marksAll es ∧ hs.length = es.length := by
  cases es with
  | nil =>
    rw [Expr.hoistAll, gives_pure] at hh
    simp [hh.1, Expr.marksAll]
  | cons e rest =>
    obtain ⟨h, _, hs', hge, hgrest, rfl⟩ := gives_hoistAll_cons.1 hh
    obtain ⟨hmarks, hlength⟩ := Expr.hoistAll_marks rest _ _ _ hgrest
    simp [Expr.marksAll, e.hoist_marks _ _ _ hge, hmarks, hlength]

theorem Expr.receive_marks (target : Expr) {source : Fresh Hoisted} {ms : List Mark}
    (hsource : Hoisted.Keeps source ms) {s s' : Supply} {code : List Stm}
    (hcode : Gives (target.receive source) s code s') : marksOf code = target.marks ++ ms := by
  cases target with
  | temp t =>
    obtain ⟨h, hh, rfl⟩ := gives_receive_temp.1 hcode
    rw [← hsource _ _ _ hh]
    simp [Hoisted.marks, Stm.marks, Expr.marks]
  | mem a =>
    obtain ⟨p, hp, rfl⟩ := gives_receive_mem.1 hcode
    simpa [Stm.marks, Expr.marks] using Hoisted.pair_marks a.hoist_marks hsource hp
  | eseq first target =>
    obtain ⟨c, _, c', hc, hc', rfl⟩ := gives_receive_eseq.1 hcode
    rw [marksOf_append, first.straighten_marks hc, target.receive_marks hsource hc', Expr.marks,
      List.append_assoc]
  | binOp op l r =>
    rw [Expr.receive] at hcode
    rw [Expr.marks]
    exact Hoisted.store_marks (Hoisted.binOp_marks l.hoist_marks r.hoist_marks) hsource hcode
  | call f args =>
    rw [Expr.receive] at hcode
    rw [Expr.marks]
    exact Hoisted.store_marks (Hoisted.call_marks f.hoist_marks (Expr.hoistAll_marks args)) hsource hcode
  | const _ | longConst _ | name _ =>
    rw [Expr.receive] at hcode
    rw [Expr.marks]
    exact Hoisted.store_marks (Hoisted.leaf_marks (by rw [Expr.marks])) hsource hcode

theorem Stm.straighten_marks (st : Stm) {s s' : Supply} {code : List Stm}
    (hcode : Gives st.straighten s code s') : marksOf code = st.marks := by
  cases st with
  | move target source =>
    rw [Stm.straighten] at hcode
    exact target.receive_marks source.hoist_marks hcode
  | exp e =>
    obtain ⟨h, hh, rfl⟩ := gives_straighten_exp.1 hcode
    rw [Stm.marks, ← e.hoist_marks _ _ _ hh]
    split
    next hnop =>
      have hvalue : h.value.marks = [] := by
        cases hv : h.value <;> simp_all [Stm.isNop, Expr.marks]
      simp [Hoisted.marks, hvalue]
    next => simp [Hoisted.marks, Stm.marks]
  | jump target labels =>
    obtain ⟨h, hh, rfl⟩ := gives_straighten_jump.1 hcode
    rw [Stm.marks, ← target.hoist_marks _ _ _ hh, ← target.hoist_target? hh]
    simp [Hoisted.marks, Stm.marks]
  | cjump op l r t f =>
    obtain ⟨p, hp, rfl⟩ := gives_straighten_cjump.1 hcode
    rw [Stm.marks, ← Hoisted.pair_marks l.hoist_marks r.hoist_marks hp]
    simp [Stm.marks]
  | seq a b =>
    obtain ⟨c, _, c', hc, hc', rfl⟩ := gives_straighten_seq.1 hcode
    rw [marksOf_append, a.straighten_marks hc, b.straighten_marks hc', Stm.marks]
  | label l =>
    rw [Stm.straighten, gives_pure] at hcode
    simp [hcode.1]
end

theorem Stm.marksOf_linearize (st : Stm) : marksOf st.linearize = st.marks := st.straighten_marks (gives_run _ _)

theorem Stm.labelsOf_linearize (st : Stm) : labelsOf st.linearize = st.labels := by
  rw [labelsOf, st.marksOf_linearize, Stm.labels]

end Lowering.Tree
