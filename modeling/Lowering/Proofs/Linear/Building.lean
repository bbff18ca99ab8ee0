import Lowering.Proofs.Linear.Shape
import Lowering.Proofs.Tree.Marks

/-!
# What hoisting builds with

Hoisting puts expressions together from parts of the tree and fresh temps, and makes statements of
them. So a property of the parts that survives being put together holds throughout linear code.
-/

namespace Lowering.Tree

variable {n : Nat} {good : Expr → Prop} {fine : Stm → Prop} {s s' : Supply}

/-- What is put together from `good` expressions is good, and a statement made of them is `fine`. Temps
from `n` on are fresh. A statement without effect is never made. -/
structure Builds (n : Nat) (good : Expr → Prop) (fine : Stm → Prop) : Prop where
  const : ∀ v, good (.const v)
  longConst : ∀ v, good (.longConst v)
  name : ∀ l, good (.name l)
  fresh : ∀ t : Temp, n ≤ t.index → good (.temp t)
  binOp : ∀ op l r, good l → good r → good (.binOp op l r)
  mem : ∀ a, good a → good (.mem a)
  call : ∀ f args, good f → (∀ e ∈ args, good e) → good (.call f args)
  move : ∀ d e, good d → good e → fine (.move d e)
  exp : ∀ e, good e → (Stm.exp e).isNop = false → fine (.exp e)
  jump : ∀ e labels, good e → fine (.jump e labels)
  cjump : ∀ op l r ifTrue ifFalse, good l → good r → fine (.cjump op l r ifTrue ifFalse)
  label : ∀ l, fine (.label l)

/-! ## Operands -/

namespace Hoisted

/-- Fine statements, then a good value. -/
def Sound (good : Expr → Prop) (fine : Stm → Prop) (h : Hoisted) : Prop := (∀ c ∈ h.before, fine c) ∧ good h.value

/-- Hoisting with fresh temps gives nothing else. -/
def Makes (n : Nat) (good : Expr → Prop) (fine : Stm → Prop) (x : Fresh Hoisted) : Prop :=
  ∀ s h s', Gives x s h s' → n ≤ s.temps.next → h.Sound good fine ∧ n ≤ s'.temps.next

theorem makes_pure {e : Expr} (he : good e) : Makes n good fine (pure ⟨[], e⟩) := by
  intro s h s' hg hn
  obtain ⟨rfl, rfl⟩ := gives_pure.1 hg
  exact ⟨⟨by simp, he⟩, hn⟩

theorem Sound.saveFrom {h h' : Hoisted} {later : List Stm} (hb : Builds n good fine) (hh : h.Sound good fine)
    (hsave : Gives (h.saveFrom later) s h' s') (hn : n ≤ s.temps.next) :
    h'.Sound good fine ∧ n ≤ s'.temps.next := by
  rcases gives_saveFrom.1 hsave with ⟨-, rfl, rfl⟩ | ⟨-, -, rfl, rfl⟩
  · exact ⟨hh, hn⟩
  · have htemp : good (.temp (nextTemp s)) := hb.fresh _ hn
    refine ⟨⟨?_, htemp⟩, hn.trans (Nat.le_succ _)⟩
    exact List.forall_mem_append.2 ⟨hh.1, List.forall_mem_singleton.2 (hb.move _ _ htemp hh.2)⟩

theorem Makes.pair {l r : Fresh Hoisted} {p : Pair} (hb : Builds n good fine) (hl : Makes n good fine l)
    (hr : Makes n good fine r) (hp : Gives (pair l r) s p s') (hn : n ≤ s.temps.next) :
    (∀ c ∈ p.before, fine c) ∧ good p.left ∧ good p.right ∧ n ≤ s'.temps.next := by
  obtain ⟨left, s₁, right, s₂, left', hgl, hgr, hsave, rfl⟩ := gives_pair.1 hp
  obtain ⟨hleft, hn₁⟩ := hl _ _ _ hgl hn
  obtain ⟨hright, hn₂⟩ := hr _ _ _ hgr hn₁
  obtain ⟨hleft', hn'⟩ := hleft.saveFrom hb hsave hn₂
  exact ⟨List.forall_mem_append.2 ⟨hleft'.1, hright.1⟩, hleft'.2, hright.2, hn'⟩

theorem Makes.binOp {op : BinOp} {l r : Fresh Hoisted} (hb : Builds n good fine) (hl : Makes n good fine l)
    (hr : Makes n good fine r) : Makes n good fine (binOp op l r) := by
  intro s h s' hg hn
  obtain ⟨p, hp, rfl⟩ := gives_binOp.1 hg
  obtain ⟨hbefore, hleft, hright, hn'⟩ := hl.pair hb hr hp hn
  exact ⟨⟨hbefore, hb.binOp _ _ _ hleft hright⟩, hn'⟩

theorem sound_join {hs : List Hoisted} {later : List Stm} {values : List Expr} (hb : Builds n good fine)
    (hall : ∀ h ∈ hs, h.Sound good fine) (hj : Gives (join hs) s (later, values) s') (hn : n ≤ s.temps.next) :
    (∀ c ∈ later, fine c) ∧ (∀ e ∈ values, good e) ∧ n ≤ s'.temps.next := by
  induction hs generalizing later values s' with
  | nil =>
    obtain ⟨heq, rfl⟩ := gives_join_nil.1 hj
    cases heq
    exact ⟨by simp, by simp, hn⟩
  | cons h rest ih =>
    obtain ⟨later', values', s₁, h', hrest, hsave, heq⟩ := gives_join_cons.1 hj
    cases heq
    obtain ⟨hh, hall⟩ := List.forall_mem_cons.1 hall
    obtain ⟨hlater, hvalues, hn₁⟩ := ih hall hrest
    obtain ⟨hh', hn'⟩ := hh.saveFrom hb hsave hn₁
    exact ⟨List.forall_mem_append.2 ⟨hh'.1, hlater⟩, List.forall_mem_cons.2 ⟨hh'.2, hvalues⟩, hn'⟩

theorem Makes.call {f : Fresh Hoisted} {args : Fresh (List Hoisted)} (hb : Builds n good fine)
    (hf : Makes n good fine f)
    (hargs : ∀ s hs s', Gives args s hs s' → n ≤ s.temps.next →
      (∀ h ∈ hs, h.Sound good fine) ∧ n ≤ s'.temps.next) :
    Makes n good fine (call f args) := by
  intro s h s' hg hn
  obtain ⟨target, s₁, hs, s₂, later, values, s₃, target', hgf, hgs, hj, hsave, rfl⟩ := gives_call.1 hg
  obtain ⟨htarget, hn₁⟩ := hf _ _ _ hgf hn
  obtain ⟨hall, hn₂⟩ := hargs _ _ _ hgs hn₁
  obtain ⟨hlater, hvalues, hn₃⟩ := sound_join hb hall hj hn₂
  obtain ⟨htarget', hn'⟩ := htarget.saveFrom hb hsave hn₃
  exact ⟨⟨List.forall_mem_append.2 ⟨htarget'.1, hlater⟩, hb.call _ _ htarget'.2 hvalues⟩, hn'⟩

theorem Makes.store {target source : Fresh Hoisted} {code : List Stm} (hb : Builds n good fine)
    (ht : Makes n good fine target) (hs : Makes n good fine source)
    (hcode : Gives (store target source) s code s') (hn : n ≤ s.temps.next) :
    (∀ c ∈ code, fine c) ∧ n ≤ s'.temps.next := by
  obtain ⟨p, hp, rfl⟩ := gives_store.1 hcode
  obtain ⟨hbefore, hleft, hright, hn'⟩ := ht.pair hb hs hp hn
  exact ⟨List.forall_mem_append.2 ⟨hbefore, List.forall_mem_singleton.2 (hb.move _ _ hleft hright)⟩, hn'⟩

end Hoisted

open Hoisted (Sound Makes makes_pure)

/-! ## Trees -/

mutual
theorem Expr.hoist_makes (hb : Builds n good fine) (e : Expr) (htemps : ∀ t ∈ e.temps, good (.temp t)) :
    Makes n good fine e.hoist := by
  cases e with
  | const v => exact makes_pure (hb.const v)
  | longConst v => exact makes_pure (hb.longConst v)
  | name l => exact makes_pure (hb.name l)
  | temp t => exact makes_pure (htemps t (List.mem_singleton.2 rfl))
  | binOp op l r =>
    obtain ⟨hl, hr⟩ := List.forall_mem_append.1 htemps
    exact (l.hoist_makes hb hl).binOp hb (r.hoist_makes hb hr)
  | mem a =>
    intro s h s' hg hn
    obtain ⟨ha, hga, rfl⟩ := gives_hoist_mem.1 hg
    obtain ⟨⟨hbefore, hvalue⟩, hn'⟩ := a.hoist_makes hb htemps _ _ _ hga hn
    exact ⟨⟨hbefore, hb.mem _ hvalue⟩, hn'⟩
  | call f args =>
    obtain ⟨hf, hargs⟩ := List.forall_mem_append.1 htemps
    exact (f.hoist_makes hb hf).call hb (Expr.hoistAll_sound hb args hargs)
  | eseq first e =>
    obtain ⟨hfirst, he⟩ := List.forall_mem_append.1 htemps
    intro s h s' hg hn
    obtain ⟨code, s₁, he', hcode, hge, rfl⟩ := gives_hoist_eseq.1 hg
    obtain ⟨hfine, hn₁⟩ := first.straighten_fine hb hfirst hcode hn
    obtain ⟨⟨hbefore, hvalue⟩, hn'⟩ := e.hoist_makes hb he _ _ _ hge hn₁
    exact ⟨⟨List.forall_mem_append.2 ⟨hfine, hbefore⟩, hvalue⟩, hn'⟩

theorem Expr.hoistAll_sound (hb : Builds n good fine) (es : List Expr)
    (htemps : ∀ t ∈ Expr.tempsAll es, good (.temp t)) (s : Supply) (hs : List Hoisted) (s' : Supply)
    (hg : Gives (Expr.hoistAll es) s hs s') (hn : n ≤ s.temps.next) :
    (∀ h ∈ hs, h.Sound good fine) ∧ n ≤ s'.temps.next := by
  cases es with
  | nil =>
    obtain ⟨rfl, rfl⟩ := gives_pure.1 hg
    exact ⟨by simp, hn⟩
  | cons e rest =>
    obtain ⟨he, hrest⟩ := List.forall_mem_append.1 htemps
    obtain ⟨h, s₁, hs', hge, hgrest, rfl⟩ := gives_hoistAll_cons.1 hg
    obtain ⟨hsound, hn₁⟩ := e.hoist_makes hb he _ _ _ hge hn
    obtain ⟨hall, hn'⟩ := Expr.hoistAll_sound hb rest hrest _ _ _ hgrest hn₁
    exact ⟨List.forall_mem_cons.2 ⟨hsound, hall⟩, hn'⟩

theorem Expr.receive_fine (hb : Builds n good fine) (target : Expr)
    (htemps : ∀ t ∈ target.temps, good (.temp t)) {source : Fresh Hoisted} (hsource : Makes n good fine source)
    {s s' : Supply} {code : List Stm} (hcode : Gives (target.receive source) s code s') (hn : n ≤ s.temps.next) :
    (∀ c ∈ code, fine c) ∧ n ≤ s'.temps.next := by
  cases target with
  | temp t =>
    obtain ⟨h, hh, rfl⟩ := gives_receive_temp.1 hcode
    obtain ⟨⟨hbefore, hvalue⟩, hn'⟩ := hsource _ _ _ hh hn
    have hmove := hb.move _ _ (htemps t (List.mem_singleton.2 rfl)) hvalue
    exact ⟨List.forall_mem_append.2 ⟨hbefore, List.forall_mem_singleton.2 hmove⟩, hn'⟩
  | mem a =>
    obtain ⟨p, hp, rfl⟩ := gives_receive_mem.1 hcode
    obtain ⟨hbefore, hleft, hright, hn'⟩ := (a.hoist_makes hb htemps).pair hb hsource hp hn
    have hmove := hb.move _ _ (hb.mem _ hleft) hright
    exact ⟨List.forall_mem_append.2 ⟨hbefore, List.forall_mem_singleton.2 hmove⟩, hn'⟩
  | eseq first target =>
    obtain ⟨hfirst, htarget⟩ := List.forall_mem_append.1 htemps
    obtain ⟨c, s₁, c', hc, hc', rfl⟩ := gives_receive_eseq.1 hcode
    obtain ⟨hfine, hn₁⟩ := first.straighten_fine hb hfirst hc hn
    obtain ⟨hfine', hn'⟩ := target.receive_fine hb htarget hsource hc' hn₁
    exact ⟨List.forall_mem_append.2 ⟨hfine, hfine'⟩, hn'⟩
  | binOp op l r =>
    obtain ⟨hl, hr⟩ := List.forall_mem_append.1 htemps
    exact ((l.hoist_makes hb hl).binOp hb (r.hoist_makes hb hr)).store hb hsource hcode hn
  | call f args =>
    obtain ⟨hf, hargs⟩ := List.forall_mem_append.1 htemps
    exact ((f.hoist_makes hb hf).call hb (Expr.hoistAll_sound hb args hargs)).store hb hsource hcode hn
  | const v => exact (makes_pure (hb.const v)).store hb hsource hcode hn
  | longConst v => exact (makes_pure (hb.longConst v)).store hb hsource hcode hn
  | name l => exact (makes_pure (hb.name l)).store hb hsource hcode hn

theorem Stm.straighten_fine (hb : Builds n good fine) (st : Stm) (htemps : ∀ t ∈ st.temps, good (.temp t))
    {s s' : Supply} {code : List Stm} (hcode : Gives st.straighten s code s') (hn : n ≤ s.temps.next) :
    (∀ c ∈ code, fine c) ∧ n ≤ s'.temps.next := by
  cases st with
  | move target source =>
    obtain ⟨htarget, hsource⟩ := List.forall_mem_append.1 htemps
    exact target.receive_fine hb htarget (source.hoist_makes hb hsource) hcode hn
  | exp e =>
    obtain ⟨h, hh, rfl⟩ := gives_straighten_exp.1 hcode
    obtain ⟨⟨hbefore, hvalue⟩, hn'⟩ := e.hoist_makes hb htemps _ _ _ hh hn
    refine ⟨?_, hn'⟩
    split
    next => exact hbefore
    next hnop =>
      have hexp := hb.exp _ hvalue (Bool.not_eq_true _ ▸ hnop)
      exact List.forall_mem_append.2 ⟨hbefore, List.forall_mem_singleton.2 hexp⟩
  | jump target labels =>
    obtain ⟨h, hh, rfl⟩ := gives_straighten_jump.1 hcode
    obtain ⟨⟨hbefore, hvalue⟩, hn'⟩ := target.hoist_makes hb htemps _ _ _ hh hn
    exact ⟨List.forall_mem_append.2 ⟨hbefore, List.forall_mem_singleton.2 (hb.jump _ _ hvalue)⟩, hn'⟩
  | cjump op l r t f =>
    obtain ⟨hl, hr⟩ := List.forall_mem_append.1 htemps
    obtain ⟨p, hp, rfl⟩ := gives_straighten_cjump.1 hcode
    obtain ⟨hbefore, hleft, hright, hn'⟩ := (l.hoist_makes hb hl).pair hb (r.hoist_makes hb hr) hp hn
    have hbranch := hb.cjump op _ _ t f hleft hright
    exact ⟨List.forall_mem_append.2 ⟨hbefore, List.forall_mem_singleton.2 hbranch⟩, hn'⟩
  | seq a b =>
    obtain ⟨ha, hb'⟩ := List.forall_mem_append.1 htemps
    obtain ⟨c, s₁, c', hc, hc', rfl⟩ := gives_straighten_seq.1 hcode
    obtain ⟨hfine, hn₁⟩ := a.straighten_fine hb ha hc hn
    obtain ⟨hfine', hn'⟩ := b.straighten_fine hb hb' hc' hn₁
    exact ⟨List.forall_mem_append.2 ⟨hfine, hfine'⟩, hn'⟩
  | label l =>
    obtain ⟨rfl, rfl⟩ := gives_pure.1 hcode
    exact ⟨List.forall_mem_singleton.2 (hb.label l), hn⟩
end

theorem Stm.linearize_fine (st : Stm) (hb : Builds st.tempBound good fine) (htemps : ∀ t ∈ st.temps, good (.temp t)) :
    ∀ c ∈ st.linearize, fine c := (st.straighten_fine hb htemps (gives_run _ _) le_rfl).1

end Lowering.Tree
