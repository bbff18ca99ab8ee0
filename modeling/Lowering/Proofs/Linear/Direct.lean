import Lowering.Proofs.Linear.Shape
import Lowering.Proofs.Tree.Marks

/-!
# Names in linear code

Code is direct if a name stands only where control goes: it is the one target of a jump, or the
routine of a call, and calls go to one routine only. Hoisting never saves a name, so linear code is
direct if the tree is.
-/

namespace Lowering.Tree

variable {s s' : Supply} {routine : String}

/-! ## Direct code -/

section

variable (routine : String)

mutual
/-- Each call in the expression goes to the routine, and no other name is a value in it. -/
def Expr.Direct : Expr → Prop
  | .const _ | .longConst _ | .temp _ => True
  | .name _ => False
  | .binOp _ l r => l.Direct ∧ r.Direct
  | .mem a => a.Direct
  | .call f args => f = .name ⟨routine⟩ ∧ Expr.AllDirect args
  | .eseq st e => st.Direct ∧ e.Direct

def Expr.AllDirect : List Expr → Prop
  | [] => True
  | e :: rest => e.Direct ∧ Expr.AllDirect rest

/-- A jump names the label it goes to. -/
def Stm.Direct : Stm → Prop
  | .move d e => d.Direct ∧ e.Direct
  | .exp e => e.Direct
  | .jump target labels => ∃ l, target = .name l ∧ labels = [l]
  | .cjump _ l r _ _ => l.Direct ∧ r.Direct
  | .seq a b => a.Direct ∧ b.Direct
  | .label _ => True
end

def DirectCode (code : List Stm) : Prop := ∀ c ∈ code, c.Direct routine

end

theorem directCode_nil : DirectCode routine [] := nofun

@[simp] theorem directCode_append {a b : List Stm} :
    DirectCode routine (a ++ b) ↔ DirectCode routine a ∧ DirectCode routine b := by
  simp [DirectCode, or_imp, forall_and]

@[simp] theorem directCode_singleton {c : Stm} : DirectCode routine [c] ↔ c.Direct routine := by
  simp [DirectCode]

theorem Stm.direct_ofList {cs : List Stm} (h : DirectCode routine cs) : (Stm.ofList cs).Direct routine := by
  fun_induction Stm.ofList cs with
  | case1 => trivial
  | case2 st => exact h st List.mem_cons_self
  | case3 st rest _ ih => exact ⟨h st List.mem_cons_self, ih fun c hc => h c (List.mem_cons_of_mem _ hc)⟩

/-! ## Operands -/

namespace Hoisted

def Direct (routine : String) (h : Hoisted) : Prop := DirectCode routine h.before ∧ h.value.Direct routine

/-- Whatever the supply, hoisting gives direct code. -/
def KeepsDirect (routine : String) (x : Fresh Hoisted) : Prop := ∀ s h s', Gives x s h s' → h.Direct routine

theorem saveFrom_direct {h h' : Hoisted} {later : List Stm} (hdirect : h.Direct routine)
    (hsave : Gives (h.saveFrom later) s h' s') : h'.Direct routine := by
  rcases gives_saveFrom.1 hsave with ⟨-, rfl, -⟩ | ⟨-, -, rfl, -⟩
  · exact hdirect
  · exact ⟨directCode_append.2 ⟨hdirect.1, directCode_singleton.2 ⟨trivial, hdirect.2⟩⟩, trivial⟩

theorem pair_direct {l r : Fresh Hoisted} {p : Pair} (hl : KeepsDirect routine l) (hr : KeepsDirect routine r)
    (hp : Gives (pair l r) s p s') :
    DirectCode routine p.before ∧ p.left.Direct routine ∧ p.right.Direct routine := by
  obtain ⟨left, _, right, _, left', hgl, hgr, hsave, rfl⟩ := gives_pair.1 hp
  have hleft := saveFrom_direct (hl _ _ _ hgl) hsave
  have hright := hr _ _ _ hgr
  exact ⟨directCode_append.2 ⟨hleft.1, hright.1⟩, hleft.2, hright.2⟩

theorem join_direct {hs : List Hoisted} {later : List Stm} {values : List Expr}
    (hdirect : ∀ h ∈ hs, h.Direct routine) (hj : Gives (join hs) s (later, values) s') :
    DirectCode routine later ∧ Expr.AllDirect routine values := by
  induction hs generalizing later values s' with
  | nil =>
    obtain ⟨heq, -⟩ := gives_join_nil.1 hj
    cases heq
    exact ⟨directCode_nil, trivial⟩
  | cons h rest ih =>
    obtain ⟨later', values', _, h', hrest, hsave, heq⟩ := gives_join_cons.1 hj
    cases heq
    obtain ⟨hlater, hvalues⟩ := ih (fun h hh => hdirect h (List.mem_cons_of_mem _ hh)) hrest
    have hfirst := saveFrom_direct (hdirect h List.mem_cons_self) hsave
    exact ⟨directCode_append.2 ⟨hfirst.1, hlater⟩, hfirst.2, hvalues⟩

theorem keepsDirect_leaf {e : Expr} (he : e.Direct routine) : KeepsDirect routine (pure ⟨[], e⟩) := by
  intro _ _ _ hh
  obtain ⟨rfl, -⟩ := gives_pure.1 hh
  exact ⟨directCode_nil, he⟩

theorem KeepsDirect.binOp {op : BinOp} {l r : Fresh Hoisted} (hl : KeepsDirect routine l)
    (hr : KeepsDirect routine r) : KeepsDirect routine (binOp op l r) := by
  intro _ _ _ hh
  obtain ⟨p, hp, rfl⟩ := gives_binOp.1 hh
  exact pair_direct hl hr hp

/-- The name of a routine is steady and stays where it is. -/
theorem keepsDirect_call {args : Fresh (List Hoisted)}
    (hargs : ∀ s hs s', Gives args s hs s' → ∀ h ∈ hs, h.Direct routine) :
    KeepsDirect routine (call (Expr.hoist (.name ⟨routine⟩)) args) := by
  intro _ _ _ hh
  obtain ⟨f, _, _, _, later, values, _, f', hgf, hgs, hj, hsave, rfl⟩ := gives_call.1 hh
  obtain ⟨rfl, -⟩ := gives_pure.1 hgf
  obtain ⟨hlater, hvalues⟩ := join_direct (hargs _ _ _ hgs) hj
  rcases gives_saveFrom.1 hsave with ⟨-, rfl, -⟩ | ⟨-, hsteady, -⟩
  · exact ⟨directCode_append.2 ⟨directCode_nil, hlater⟩, rfl, hvalues⟩
  · cases hsteady

theorem KeepsDirect.store {target source : Fresh Hoisted} {code : List Stm} (ht : KeepsDirect routine target)
    (hs : KeepsDirect routine source) (hcode : Gives (store target source) s code s') :
    DirectCode routine code := by
  obtain ⟨p, hp, rfl⟩ := gives_store.1 hcode
  obtain ⟨hbefore, hleft, hright⟩ := pair_direct ht hs hp
  exact directCode_append.2 ⟨hbefore, directCode_singleton.2 ⟨hleft, hright⟩⟩

end Hoisted

open Hoisted (KeepsDirect pair_direct keepsDirect_leaf keepsDirect_call)

/-! ## Trees -/

mutual
theorem Expr.hoist_direct (e : Expr) (hdirect : e.Direct routine) : KeepsDirect routine e.hoist := by
  cases e with
  | const _ | longConst _ | temp _ => exact keepsDirect_leaf trivial
  | name _ => exact hdirect.elim
  | binOp op l r => exact (l.hoist_direct hdirect.1).binOp (r.hoist_direct hdirect.2)
  | mem a =>
    intro _ _ _ hh
    obtain ⟨ha, hga, rfl⟩ := gives_hoist_mem.1 hh
    obtain ⟨hbefore, hvalue⟩ := a.hoist_direct hdirect _ _ _ hga
    exact ⟨hbefore, hvalue⟩
  | call f args =>
    obtain ⟨rfl, hargs⟩ := hdirect
    exact keepsDirect_call (Expr.hoistAll_direct args hargs)
  | eseq first e =>
    intro _ _ _ hh
    obtain ⟨code, _, he, hcode, hge, rfl⟩ := gives_hoist_eseq.1 hh
    obtain ⟨hbefore, hvalue⟩ := e.hoist_direct hdirect.2 _ _ _ hge
    exact ⟨directCode_append.2 ⟨first.straighten_direct hdirect.1 hcode, hbefore⟩, hvalue⟩

theorem Expr.hoistAll_direct (es : List Expr) (hdirect : Expr.AllDirect routine es) (s : Supply)
    (hs : List Hoisted) (s' : Supply) (hh : Gives (Expr.hoistAll es) s hs s') : ∀ h ∈ hs, h.Direct routine := by
  cases es with
  | nil =>
    obtain ⟨rfl, -⟩ := gives_pure.1 hh
    nofun
  | cons e rest =>
    obtain ⟨h, _, hs', hge, hgrest, rfl⟩ := gives_hoistAll_cons.1 hh
    rintro h' (_ | hmem)
    · exact e.hoist_direct hdirect.1 _ _ _ hge
    · exact Expr.hoistAll_direct rest hdirect.2 _ _ _ hgrest h' ‹_›

theorem Expr.receive_direct (target : Expr) (hdirect : target.Direct routine) {source : Fresh Hoisted}
    (hsource : KeepsDirect routine source) {s s' : Supply} {code : List Stm}
    (hcode : Gives (target.receive source) s code s') : DirectCode routine code := by
  cases target with
  | temp t =>
    obtain ⟨h, hh, rfl⟩ := gives_receive_temp.1 hcode
    obtain ⟨hbefore, hvalue⟩ := hsource _ _ _ hh
    exact directCode_append.2 ⟨hbefore, directCode_singleton.2 ⟨trivial, hvalue⟩⟩
  | mem a =>
    obtain ⟨p, hp, rfl⟩ := gives_receive_mem.1 hcode
    obtain ⟨hbefore, hleft, hright⟩ := pair_direct (a.hoist_direct hdirect) hsource hp
    exact directCode_append.2 ⟨hbefore, directCode_singleton.2 ⟨hleft, hright⟩⟩
  | eseq first target =>
    obtain ⟨c, _, c', hc, hc', rfl⟩ := gives_receive_eseq.1 hcode
    exact directCode_append.2
      ⟨first.straighten_direct hdirect.1 hc, target.receive_direct hdirect.2 hsource hc'⟩
  | binOp op l r => exact ((l.hoist_direct hdirect.1).binOp (r.hoist_direct hdirect.2)).store hsource hcode
  | call f args =>
    obtain ⟨rfl, hargs⟩ := hdirect
    exact (keepsDirect_call (Expr.hoistAll_direct args hargs)).store hsource hcode
  | const _ | longConst _ => exact (keepsDirect_leaf hdirect).store hsource hcode
  | name _ => exact hdirect.elim

theorem Stm.straighten_direct (st : Stm) (hdirect : st.Direct routine) {s s' : Supply} {code : List Stm}
    (hcode : Gives st.straighten s code s') : DirectCode routine code := by
  cases st with
  | move target source => exact target.receive_direct hdirect.1 (source.hoist_direct hdirect.2) hcode
  | exp e =>
    obtain ⟨h, hh, rfl⟩ := gives_straighten_exp.1 hcode
    obtain ⟨hbefore, hvalue⟩ := e.hoist_direct hdirect _ _ _ hh
    split
    next => exact hbefore
    next => exact directCode_append.2 ⟨hbefore, directCode_singleton.2 hvalue⟩
  | jump target labels =>
    obtain ⟨l, rfl, rfl⟩ := hdirect
    obtain ⟨h, hh, rfl⟩ := gives_straighten_jump.1 hcode
    obtain ⟨rfl, -⟩ := gives_pure.1 hh
    exact directCode_singleton.2 ⟨l, rfl, rfl⟩
  | cjump op l r t f =>
    obtain ⟨p, hp, rfl⟩ := gives_straighten_cjump.1 hcode
    obtain ⟨hbefore, hleft, hright⟩ := pair_direct (l.hoist_direct hdirect.1) (r.hoist_direct hdirect.2) hp
    exact directCode_append.2 ⟨hbefore, directCode_singleton.2 ⟨hleft, hright⟩⟩
  | seq a b =>
    obtain ⟨c, _, c', hc, hc', rfl⟩ := gives_straighten_seq.1 hcode
    exact directCode_append.2 ⟨a.straighten_direct hdirect.1 hc, b.straighten_direct hdirect.2 hc'⟩
  | label l =>
    obtain ⟨rfl, -⟩ := gives_pure.1 hcode
    exact directCode_singleton.2 trivial
end

theorem Stm.linearize_direct (st : Stm) (hdirect : st.Direct routine) : DirectCode routine st.linearize :=
  st.straighten_direct hdirect (gives_run _ _)

end Lowering.Tree
