import Lowering.Proofs.Linear.Marks

/-!
# In which order the calls of a move come

Hoisting takes operands out from left to right, so the address of a move into memory comes before
its source. What is left of the two after hoisting is up to the machine, which evaluates the source
first. The order changes where a call is left on both sides, and that can be told from the tree.
-/

namespace Lowering.Tree

variable {s s' : Supply}

/-! ## What hoisting takes out -/

/-- What is left after hoisting is a constant, a name or a temp. -/
def Expr.isIdle : Expr → Bool
  | .const _ | .longConst _ | .name _ | .temp _ => true
  | .eseq _ e => e.isIdle
  | .binOp .. | .mem _ | .call .. => false

mutual
/-- Hoisting takes no statement out. -/
def Expr.isQuiet : Expr → Bool
  | .const _ | .longConst _ | .name _ | .temp _ => true
  | .binOp _ l r => l.isQuiet && r.isQuiet
  | .mem a => a.isQuiet
  | .call f args => f.isQuiet && Expr.areQuiet args
  | .eseq s e => s.isQuiet && e.isQuiet

def Expr.areQuiet : List Expr → Bool
  | [] => true
  | e :: rest => e.isQuiet && Expr.areQuiet rest

/-- Linear code has nothing in place of the statement. -/
def Stm.isQuiet : Stm → Bool
  | .exp e => e.isQuiet && e.isIdle
  | .seq a b => a.isQuiet && b.isQuiet
  | .move .. | .jump .. | .cjump .. | .label _ => false
end

/-- Hoisting leaves a call in the value. A left operand is saved from the statements of the right
one, and its call goes with it. -/
def Expr.leavesCall : Expr → Bool
  | .const _ | .longConst _ | .name _ | .temp _ => false
  | .binOp _ l r => (r.isQuiet && l.leavesCall) || r.leavesCall
  | .mem a => a.leavesCall
  | .call .. => true
  | .eseq _ e => e.leavesCall

@[inherit_doc Expr.leavesCall]
def Expr.addressLeavesCall : Expr → Bool
  | .mem a => a.leavesCall
  | .eseq _ target => target.addressLeavesCall
  | _ => false

/-- Whether a call of the source comes before one of the address. -/
def Expr.isOvertaken (target source : Expr) : Bool :=
  source.isQuiet && target.addressLeavesCall && source.leavesCall

mutual
/-- In no move does a call of the source come before one of the address. -/
def Expr.inOrder : Expr → Bool
  | .const _ | .longConst _ | .name _ | .temp _ => true
  | .binOp _ l r => l.inOrder && r.inOrder
  | .mem a => a.inOrder
  | .call f args => f.inOrder && Expr.inOrderAll args
  | .eseq s e => s.inOrder && e.inOrder

def Expr.inOrderAll : List Expr → Bool
  | [] => true
  | e :: rest => e.inOrder && Expr.inOrderAll rest

@[inherit_doc Expr.inOrder]
def Stm.inOrder : Stm → Bool
  | .move d s => !d.isOvertaken s && (d.inOrder && s.inOrder)
  | .exp e | .jump e _ => e.inOrder
  | .cjump _ l r _ _ => l.inOrder && r.inOrder
  | .seq a b => a.inOrder && b.inOrder
  | .label _ => true
end

/-! ## Quiet trees -/

namespace Hoisted

theorem saveFrom_eq_nil {h h' : Hoisted} {later : List Stm} (hsave : Gives (h.saveFrom later) s h' s') :
    h'.before ++ later = [] ↔ h.before = [] ∧ later = [] := by
  rcases gives_saveFrom.1 hsave with ⟨-, rfl, -⟩ | ⟨hlater, -, rfl, -⟩
  · exact List.append_eq_nil_iff
  · simp [hlater]

theorem join_eq_nil {hs : List Hoisted} {later : List Stm} {values : List Expr}
    (hj : Gives (join hs) s (later, values) s') : later = [] ↔ ∀ h ∈ hs, h.before = [] := by
  induction hs generalizing later values s' with
  | nil =>
    obtain ⟨heq, -⟩ := gives_join_nil.1 hj
    cases heq
    simp
  | cons h rest ih =>
    obtain ⟨later', values', _, h', hrest, hsave, heq⟩ := gives_join_cons.1 hj
    cases heq
    rw [saveFrom_eq_nil hsave, ih hrest, List.forall_mem_cons]

end Hoisted

end Lowering.Tree

namespace Lowering

open Lowering.Tree

/-- Hoisting takes statements out of the expression, whatever the supply, or takes none. -/
def HoistsNothing (x : Fresh Hoisted) (nothing : Bool) : Prop :=
  ∀ s h s', Gives x s h s' → (h.before = [] ↔ nothing = true)

theorem hoistsNothing_pure (e : Expr) : HoistsNothing (pure ⟨[], e⟩) true := by
  intro s h s' hg
  obtain ⟨rfl, -⟩ := gives_pure.1 hg
  simp

theorem HoistsNothing.binOp {l r : Fresh Hoisted} {a b : Bool} {op : BinOp}
    (hl : HoistsNothing l a) (hr : HoistsNothing r b) : HoistsNothing (Hoisted.binOp op l r) (a && b) := by
  intro s h s' hg
  obtain ⟨p, hp, rfl⟩ := Hoisted.gives_binOp.1 hg
  obtain ⟨left, _, right, _, left', hgl, hgr, hsave, rfl⟩ := Hoisted.gives_pair.1 hp
  rw [Hoisted.saveFrom_eq_nil hsave, hl _ _ _ hgl, hr _ _ _ hgr, Bool.and_eq_true]

end Lowering

namespace Lowering.Tree

variable {s s' : Supply}

theorem Expr.isNop_hoist (e : Expr) {s s' : Supply} {h : Hoisted} (hg : Gives e.hoist s h s') :
    (Stm.exp h.value).isNop = e.isIdle := by
  cases e with
  | const _ | longConst _ | name _ | temp _ =>
    obtain ⟨rfl, -⟩ := gives_pure.1 hg
    rfl
  | binOp op l r =>
    obtain ⟨p, -, rfl⟩ := Hoisted.gives_binOp.1 hg
    rfl
  | mem a =>
    obtain ⟨ha, -, rfl⟩ := gives_hoist_mem.1 hg
    rfl
  | call f args =>
    obtain ⟨_, _, _, _, _, _, _, _, -, -, -, -, rfl⟩ := Hoisted.gives_call.1 hg
    rfl
  | eseq first e =>
    obtain ⟨_, _, he, -, hge, rfl⟩ := gives_hoist_eseq.1 hg
    rw [e.isNop_hoist hge, isIdle]

theorem Expr.receive_ne_nil (target : Expr) {source : Fresh Hoisted} {s s' : Supply} {code : List Stm}
    (hg : Gives (target.receive source) s code s') : code ≠ [] := by
  cases target with
  | temp t =>
    obtain ⟨h, -, rfl⟩ := gives_receive_temp.1 hg
    simp
  | mem a =>
    obtain ⟨p, -, rfl⟩ := gives_receive_mem.1 hg
    simp
  | eseq first target =>
    obtain ⟨c, _, c', -, hc', rfl⟩ := gives_receive_eseq.1 hg
    simp [target.receive_ne_nil hc']
  | binOp _ _ _ | call _ _ | const _ | longConst _ | name _ =>
    obtain ⟨p, -, rfl⟩ := Hoisted.gives_store.1 hg
    simp

mutual
theorem Expr.hoistsNothing (e : Expr) : HoistsNothing e.hoist e.isQuiet := by
  cases e with
  | const _ | longConst _ | name _ | temp _ => exact hoistsNothing_pure _
  | binOp op l r => exact l.hoistsNothing.binOp r.hoistsNothing
  | mem a =>
    intro s h s' hg
    obtain ⟨ha, hga, rfl⟩ := gives_hoist_mem.1 hg
    rw [a.hoistsNothing _ _ _ hga, Expr.isQuiet]
  | call f args =>
    intro s h s' hg
    obtain ⟨hf, _, hs, _, later, values, _, hf', hgf, hgs, hj, hsave, rfl⟩ := Hoisted.gives_call.1 hg
    rw [Hoisted.saveFrom_eq_nil hsave, f.hoistsNothing _ _ _ hgf, Hoisted.join_eq_nil hj,
      Expr.hoistAll_eq_nil args hgs, Expr.isQuiet, Bool.and_eq_true]
  | eseq first e =>
    intro s h s' hg
    obtain ⟨code, _, he, hcode, hge, rfl⟩ := gives_hoist_eseq.1 hg
    rw [List.append_eq_nil_iff, first.straighten_eq_nil hcode, e.hoistsNothing _ _ _ hge, Expr.isQuiet,
      Bool.and_eq_true]

theorem Expr.hoistAll_eq_nil (es : List Expr) {s s' : Supply} {hs : List Hoisted}
    (hg : Gives (Expr.hoistAll es) s hs s') :
    (∀ h ∈ hs, h.before = []) ↔ Expr.areQuiet es = true := by
  cases es with
  | nil =>
    obtain ⟨rfl, -⟩ := gives_pure.1 hg
    simp [Expr.areQuiet]
  | cons e rest =>
    obtain ⟨h, _, hs', hge, hgrest, rfl⟩ := gives_hoistAll_cons.1 hg
    rw [List.forall_mem_cons, e.hoistsNothing _ _ _ hge, Expr.hoistAll_eq_nil rest hgrest, Expr.areQuiet,
      Bool.and_eq_true]

theorem Stm.straighten_eq_nil (st : Stm) {s s' : Supply} {code : List Stm}
    (hg : Gives st.straighten s code s') : code = [] ↔ st.isQuiet = true := by
  cases st with
  | move target source =>
    simpa [Stm.isQuiet] using target.receive_ne_nil hg
  | exp e =>
    obtain ⟨h, hge, rfl⟩ := gives_straighten_exp.1 hg
    rw [Stm.isQuiet, Bool.and_eq_true, ← e.hoistsNothing _ _ _ hge, ← e.isNop_hoist hge]
    split <;> simp [*]
  | jump target labels =>
    obtain ⟨h, -, rfl⟩ := gives_straighten_jump.1 hg
    simp [Stm.isQuiet]
  | cjump op l r t f =>
    obtain ⟨p, -, rfl⟩ := gives_straighten_cjump.1 hg
    simp [Stm.isQuiet]
  | seq a b =>
    obtain ⟨c, _, c', hc, hc', rfl⟩ := gives_straighten_seq.1 hg
    rw [List.append_eq_nil_iff, a.straighten_eq_nil hc, b.straighten_eq_nil hc', Stm.isQuiet, Bool.and_eq_true]
  | label l =>
    obtain ⟨rfl, -⟩ := gives_pure.1 hg
    simp [Stm.isQuiet]
end

/-! ## Calls that are left -/

theorem Expr.hasCall_binOp {op : BinOp} {l r : Expr} :
    (Expr.binOp op l r).hasCall = (l.hasCall || r.hasCall) := List.any_append

theorem Expr.hasCall_mem {a : Expr} : (Expr.mem a).hasCall = a.hasCall := rfl

theorem Hoisted.hasCall_saveFrom {h h' : Hoisted} {later : List Stm}
    (hsave : Gives (h.saveFrom later) s h' s') :
    h'.value.hasCall = (later.isEmpty && h.value.hasCall) := by
  rcases gives_saveFrom.1 hsave with ⟨rfl | hsteady, rfl, -⟩ | ⟨hlater, -, rfl, -⟩
  · rfl
  · simp [Expr.hasCall, marks_of_isSteady hsteady]
  · simp [hlater, savedIn, Expr.hasCall, Expr.marks]

theorem Hoisted.hasCall_pair {l r : Expr} {p : Pair}
    (hl : ∀ {s h s'}, Gives l.hoist s h s' → h.value.hasCall = l.leavesCall)
    (hr : ∀ {s h s'}, Gives r.hoist s h s' → h.value.hasCall = r.leavesCall)
    (hp : Gives (pair l.hoist r.hoist) s p s') :
    p.left.hasCall = (r.isQuiet && l.leavesCall) ∧ p.right.hasCall = r.leavesCall := by
  obtain ⟨left, _, right, _, left', hgl, hgr, hsave, rfl⟩ := gives_pair.1 hp
  refine ⟨?_, hr hgr⟩
  have hquiet : right.before.isEmpty = r.isQuiet := by
    rw [Bool.eq_iff_iff, List.isEmpty_iff, r.hoistsNothing _ _ _ hgr]
  rw [hasCall_saveFrom hsave, hl hgl, hquiet]

theorem Expr.hasCall_hoist (e : Expr) {s s' : Supply} {h : Hoisted} (hg : Gives e.hoist s h s') :
    h.value.hasCall = e.leavesCall := by
  cases e with
  | const _ | longConst _ | name _ | temp _ =>
    obtain ⟨rfl, -⟩ := gives_pure.1 hg
    rfl
  | binOp op l r =>
    obtain ⟨p, hp, rfl⟩ := Hoisted.gives_binOp.1 hg
    obtain ⟨hleft, hright⟩ := Hoisted.hasCall_pair l.hasCall_hoist r.hasCall_hoist hp
    rw [hasCall_binOp, hleft, hright, leavesCall]
  | mem a =>
    obtain ⟨ha, hga, rfl⟩ := gives_hoist_mem.1 hg
    rw [hasCall_mem, a.hasCall_hoist hga, leavesCall]
  | call f args =>
    obtain ⟨_, _, _, _, _, _, _, _, -, -, -, -, rfl⟩ := Hoisted.gives_call.1 hg
    simp [hasCall, marks, Mark.isCall, leavesCall]
  | eseq first e =>
    obtain ⟨_, _, he, -, hge, rfl⟩ := gives_hoist_eseq.1 hg
    rw [e.hasCall_hoist hge, leavesCall]

theorem Expr.leavesCall_of_hasCall {e : Expr} (h : e.hasCall = false) : e.leavesCall = false := by
  have hg := gives_run e.hoist (Supply.startingAt 0)
  rw [← e.hasCall_hoist hg]
  exact Hoisted.hasCall_value e.hoist_marks hg h

theorem Expr.addressLeavesCall_of_addressHasCall {target : Expr} (h : target.addressHasCall = false) :
    target.addressLeavesCall = false := by
  fun_induction Expr.addressHasCall target with
  | case1 a => exact leavesCall_of_hasCall h
  | case2 _ target ih => exact ih h
  | case3 target hmem heseq => grind [Expr.addressLeavesCall]

/-! ## Trees in order -/

section

variable {target source a : Expr}

theorem Expr.isOvertaken_eq_false (h : target.addressHasCall = false ∨ source.hasCall = false) :
    target.isOvertaken source = false := by
  rcases h with h | h
  · simp [isOvertaken, addressLeavesCall_of_addressHasCall h]
  · simp [isOvertaken, leavesCall_of_hasCall h]

theorem Stm.inOrder_move : (Stm.move target source).inOrder = true ↔
    target.isOvertaken source = false ∧ target.inOrder = true ∧ source.inOrder = true := by
  simp [inOrder]

theorem Hoisted.pair_of_isOvertaken {p : Pair} (h : (Expr.mem a).isOvertaken source = false)
    (hp : Gives (pair a.hoist source.hoist) s p s') : p.left.hasCall = false ∨ p.right.hasCall = false := by
  obtain ⟨hleft, hright⟩ := hasCall_pair a.hasCall_hoist source.hasCall_hoist hp
  rwa [hleft, hright, ← Bool.and_eq_false_iff]

end

mutual
theorem Expr.inOrder_of_callsApart (e : Expr) (h : e.callsApart = true) : e.inOrder = true := by
  cases e with
  | const _ | longConst _ | name _ | temp _ => rfl
  | binOp _ l r =>
    obtain ⟨hl, hr⟩ := Bool.and_eq_true_iff.1 h
    simp [Expr.inOrder, l.inOrder_of_callsApart hl, r.inOrder_of_callsApart hr]
  | mem a => exact a.inOrder_of_callsApart h
  | call f args =>
    obtain ⟨hf, hargs⟩ := Bool.and_eq_true_iff.1 h
    simp [Expr.inOrder, f.inOrder_of_callsApart hf, Expr.inOrderAll_of_callsApartAll args hargs]
  | eseq st e =>
    obtain ⟨hst, he⟩ := Bool.and_eq_true_iff.1 h
    simp [Expr.inOrder, st.inOrder_of_callsApart hst, e.inOrder_of_callsApart he]

theorem Expr.inOrderAll_of_callsApartAll (es : List Expr) (h : Expr.callsApartAll es = true) :
    Expr.inOrderAll es = true := by
  cases es with
  | nil => rfl
  | cons e rest =>
    obtain ⟨he, hrest⟩ := Bool.and_eq_true_iff.1 h
    simp [Expr.inOrderAll, e.inOrder_of_callsApart he, Expr.inOrderAll_of_callsApartAll rest hrest]

theorem Stm.inOrder_of_callsApart (st : Stm) (h : st.callsApart = true) : st.inOrder = true := by
  cases st with
  | move d e =>
    obtain ⟨⟨happart, hd⟩, he⟩ : (_ ∧ _) ∧ _ := by simpa only [Stm.callsApart, Bool.and_eq_true] using h
    refine Stm.inOrder_move.2 ⟨?_, d.inOrder_of_callsApart hd, e.inOrder_of_callsApart he⟩
    exact Expr.isOvertaken_eq_false (by simpa using happart)
  | exp e => exact e.inOrder_of_callsApart h
  | jump e _ => exact e.inOrder_of_callsApart h
  | cjump _ l r _ _ =>
    obtain ⟨hl, hr⟩ := Bool.and_eq_true_iff.1 h
    simp [Stm.inOrder, l.inOrder_of_callsApart hl, r.inOrder_of_callsApart hr]
  | seq a b =>
    obtain ⟨ha, hb⟩ := Bool.and_eq_true_iff.1 h
    simp [Stm.inOrder, a.inOrder_of_callsApart ha, b.inOrder_of_callsApart hb]
  | label _ => rfl
end

mutual
theorem Expr.inOrder_of_isQuiet (e : Expr) (h : e.isQuiet = true) : e.inOrder = true := by
  cases e with
  | const _ | longConst _ | name _ | temp _ => rfl
  | binOp _ l r =>
    obtain ⟨hl, hr⟩ := Bool.and_eq_true_iff.1 h
    simp [Expr.inOrder, l.inOrder_of_isQuiet hl, r.inOrder_of_isQuiet hr]
  | mem a => exact a.inOrder_of_isQuiet h
  | call f args =>
    obtain ⟨hf, hargs⟩ := Bool.and_eq_true_iff.1 h
    simp [Expr.inOrder, f.inOrder_of_isQuiet hf, Expr.inOrderAll_of_areQuiet args hargs]
  | eseq st e =>
    obtain ⟨hst, he⟩ := Bool.and_eq_true_iff.1 h
    simp [Expr.inOrder, st.inOrder_of_isQuiet hst, e.inOrder_of_isQuiet he]

theorem Expr.inOrderAll_of_areQuiet (es : List Expr) (h : Expr.areQuiet es = true) :
    Expr.inOrderAll es = true := by
  cases es with
  | nil => rfl
  | cons e rest =>
    obtain ⟨he, hrest⟩ := Bool.and_eq_true_iff.1 h
    simp [Expr.inOrderAll, e.inOrder_of_isQuiet he, Expr.inOrderAll_of_areQuiet rest hrest]

theorem Stm.inOrder_of_isQuiet (st : Stm) (h : st.isQuiet = true) : st.inOrder = true := by
  cases st with
  | exp e => exact e.inOrder_of_isQuiet (Bool.and_eq_true_iff.1 h).1
  | seq a b =>
    obtain ⟨ha, hb⟩ := Bool.and_eq_true_iff.1 h
    simp [Stm.inOrder, a.inOrder_of_isQuiet ha, b.inOrder_of_isQuiet hb]
  | _ => simp [Stm.isQuiet] at h
end

end Lowering.Tree
