import Lowering.Proofs.Linear.Flat
import Lowering.Proofs.Linear.Meaning

/-!
# Linear code is what linearizing leaves as it is

Code is canonical if no statement of it is a chain, none holds another statement and none is without
effect. Linear code is canonical. In canonical code there is nothing to hoist, so no operand is saved,
and each statement comes out as it went in.
-/

namespace Lowering.Tree

def Canonical (code : List Stm) : Prop := ∀ c ∈ code, c.isFlat = true ∧ c.isNop = false

instance : DecidablePred Canonical := fun code => inferInstanceAs (Decidable (∀ c ∈ code, _))

/-! ## Linear code is canonical -/

theorem builds_effective (n : Nat) : Builds n (fun _ => True) (·.isNop = false) where
  const _ := trivial
  longConst _ := trivial
  name _ := trivial
  fresh _ _ := trivial
  binOp _ _ _ _ _ := trivial
  mem _ _ := trivial
  call _ _ _ _ := trivial
  move _ _ _ _ := rfl
  exp _ _ hnop := hnop
  jump _ _ _ := rfl
  cjump _ _ _ _ _ _ _ := rfl
  label _ := rfl

theorem Stm.canonical_linearize (st : Stm) : Canonical st.linearize := by
  intro c hc
  have hnop := st.linearize_fine (builds_effective _) (fun _ _ => trivial) c hc
  exact ⟨st.linearize_flat c hc, hnop⟩

/-! ## Nothing to hoist -/

section

variable {x y : Fresh Hoisted} {e l r f : Expr}

/-- Hoisting takes nothing out of the expression and draws no temp. -/
def Stays (x : Fresh Hoisted) (e : Expr) : Prop := ∀ s, Gives x s ⟨[], e⟩ s

theorem stays_pure (e : Expr) : Stays (pure ⟨[], e⟩) e := fun _ => rfl

theorem Stays.pair (hl : Stays x l) (hr : Stays y r) (s : Supply) : Gives (Hoisted.pair x y) s ⟨[], l, r⟩ s := by
  rw [Hoisted.gives_pair]
  have hsave : Gives ((⟨[], l⟩ : Hoisted).saveFrom []) s ⟨[], l⟩ s := rfl
  exact ⟨_, s, _, s, _, hl s, hr s, hsave, rfl⟩

theorem Stays.binOp (hl : Stays x l) (hr : Stays y r) (op : BinOp) : Stays (Hoisted.binOp op x y) (.binOp op l r) := by
  intro s
  rw [Hoisted.gives_binOp]
  exact ⟨_, hl.pair hr s, rfl⟩

theorem gives_join_stays (es : List Expr) (s : Supply) :
    Gives (Hoisted.join (es.map fun e => ⟨[], e⟩)) s ([], es) s := by
  induction es with
  | nil => rfl
  | cons e rest ih =>
    rw [List.map_cons, Hoisted.gives_join_cons]
    have hsave : Gives ((⟨[], e⟩ : Hoisted).saveFrom []) s ⟨[], e⟩ s := rfl
    exact ⟨[], rest, s, _, ih, hsave, rfl⟩

theorem Stays.call {args : Fresh (List Hoisted)} {es : List Expr} (hf : Stays x f)
    (hargs : ∀ s, Gives args s (es.map fun e => ⟨[], e⟩) s) : Stays (Hoisted.call x args) (.call f es) := by
  intro s
  rw [Hoisted.gives_call]
  have hsave : Gives ((⟨[], f⟩ : Hoisted).saveFrom []) s ⟨[], f⟩ s := rfl
  exact ⟨_, s, _, s, [], es, s, _, hf s, hargs s, gives_join_stays es s, hsave, rfl⟩

theorem Stays.store (hl : Stays x l) (hr : Stays y r) (s : Supply) : Gives (Hoisted.store x y) s [.move l r] s := by
  rw [Hoisted.gives_store]
  exact ⟨_, hl.pair hr s, rfl⟩

end

mutual
theorem Expr.hoist_stays (e : Expr) (h : e.isFlat = true) : Stays e.hoist e := by
  cases e with
  | const _ | longConst _ | name _ | temp _ => exact stays_pure _
  | binOp op l r =>
    obtain ⟨hl, hr⟩ := Bool.and_eq_true_iff.1 h
    exact (l.hoist_stays hl).binOp (r.hoist_stays hr) op
  | mem a =>
    intro s
    rw [gives_hoist_mem]
    exact ⟨_, a.hoist_stays h s, rfl⟩
  | call f args =>
    obtain ⟨hf, hargs⟩ := Bool.and_eq_true_iff.1 h
    exact (f.hoist_stays hf).call (Expr.hoistAll_stays args hargs)
  | eseq first e => cases h

theorem Expr.hoistAll_stays (es : List Expr) (h : Expr.areFlat es = true) (s : Supply) :
    Gives (Expr.hoistAll es) s (es.map fun e => ⟨[], e⟩) s := by
  cases es with
  | nil => rfl
  | cons e rest =>
    obtain ⟨he, hrest⟩ := Bool.and_eq_true_iff.1 h
    rw [gives_hoistAll_cons]
    exact ⟨_, s, _, e.hoist_stays he s, Expr.hoistAll_stays rest hrest s, rfl⟩
end

theorem Expr.receive_stays (target : Expr) (h : target.isFlat = true) {source : Fresh Hoisted} {e : Expr}
    (hsource : Stays source e) (s : Supply) : Gives (target.receive source) s [.move target e] s := by
  cases target with
  | temp t =>
    rw [gives_receive_temp]
    exact ⟨_, hsource s, rfl⟩
  | mem a =>
    rw [gives_receive_mem]
    exact ⟨_, (a.hoist_stays h).pair hsource s, rfl⟩
  | eseq first target => cases h
  | binOp op l r => exact (Expr.hoist_stays (.binOp op l r) h).store hsource s
  | call f args => exact (Expr.hoist_stays (.call f args) h).store hsource s
  | const _ | longConst _ | name _ => exact (stays_pure _).store hsource s

theorem Stm.straighten_stays (c : Stm) (h : c.isFlat = true) (hnop : c.isNop = false) (s : Supply) :
    Gives c.straighten s [c] s := by
  cases c with
  | move target source =>
    obtain ⟨htarget, hsource⟩ := Bool.and_eq_true_iff.1 h
    exact target.receive_stays htarget (source.hoist_stays hsource) s
  | exp e =>
    rw [gives_straighten_exp]
    exact ⟨_, e.hoist_stays h s, by simp [hnop]⟩
  | jump target labels =>
    rw [gives_straighten_jump]
    exact ⟨_, target.hoist_stays h s, rfl⟩
  | cjump op l r t f =>
    obtain ⟨hl, hr⟩ := Bool.and_eq_true_iff.1 h
    rw [gives_straighten_cjump]
    exact ⟨_, (l.hoist_stays hl).pair (r.hoist_stays hr) s, rfl⟩
  | seq a b => cases h
  | label l => rfl

theorem Canonical.straightenAll {code : List Stm} (h : Canonical code) (s : Supply) :
    Gives (Stm.straightenAll code) s code s := by
  induction code with
  | nil => rfl
  | cons c rest ih =>
    obtain ⟨⟨hflat, hnop⟩, hrest⟩ := List.forall_mem_cons.1 h
    rw [gives_straightenAll_cons]
    exact ⟨[c], s, rest, c.straighten_stays hflat hnop s, ih hrest, rfl⟩

theorem Canonical.linearize_ofList {code : List Stm} (h : Canonical code) : (Stm.ofList code).linearize = code := by
  have hgives := gives_straighten_ofList.2 (h.straightenAll (Supply.startingAt (Stm.ofList code).tempBound))
  exact congrArg Prod.fst hgives

/-! ## Exactly the canonical code -/

/-- Linearizing gives canonical code, leaves exactly canonical code as it is, and so changes nothing the
second time. -/
theorem Stm.linearize_fixes (st : Stm) (code : List Stm) :
    Canonical st.linearize ∧ ((Stm.ofList code).linearize = code ↔ Canonical code) ∧
      (Stm.ofList st.linearize).linearize = st.linearize := by
  refine ⟨st.canonical_linearize, ⟨fun h => ?_, Canonical.linearize_ofList⟩, ?_⟩
  · rw [← h]
    exact Stm.canonical_linearize _
  · exact st.canonical_linearize.linearize_ofList

end Lowering.Tree
