import Lowering.Proofs.Linear.Hoisting
import Lowering.Proofs.Linear.Order
import Lowering.Proofs.Tree.Meaning

/-!
# Linear code means what the tree means

The proof follows the run of the tree. Each expression comes out of hoisting with the value it has
there, each statement as code that leads where the statement leads, and a chain as the code of
its statements one after another, so that a jump to one of its labels finds the code from there on.
-/

namespace Lowering.Tree

open Lowering.Machine (Reaches Located)
open Lowering.Exec (eval evalAll)

variable {places : Std.ExtTreeMap Label (List Stm)} {n : Nat} {m m' M : Machine} {s s' : Supply}

/-! ## Trees that can be hoisted -/

/-- The expression uses temps below `n` only, and no move in it has calls on both sides. -/
def Expr.Fits (n : Nat) (e : Expr) : Prop := e.tempBound ≤ n ∧ e.callsApart = true

@[inherit_doc Expr.Fits]
def Expr.FitsAll (n : Nat) (es : List Expr) : Prop :=
  Expr.tempBoundAll es ≤ n ∧ Expr.callsApartAll es = true

@[inherit_doc Expr.Fits]
def Stm.Fits (n : Nat) (st : Stm) : Prop := st.tempBound ≤ n ∧ st.callsApart = true

theorem Expr.fits_of_hasCall {e : Expr} (hcall : e.hasCall = false) (hn : e.tempBound ≤ n) : e.Fits n :=
  ⟨hn, e.callsApart_of_hasCall hcall⟩

section

variable {e l r f target source : Expr} {es args : List Expr} {x y : Stm}

@[simp] theorem Expr.fits_temp {t : Temp} : (Expr.temp t).Fits n ↔ t.index < n := by
  simp only [Fits, tempBound, callsApart, and_true]
  omega

@[simp] theorem Expr.fits_binOp {op : BinOp} : (Expr.binOp op l r).Fits n ↔ l.Fits n ∧ r.Fits n := by
  simp only [Fits, tempBound, callsApart, Nat.max_le, Bool.and_eq_true]
  tauto

@[simp] theorem Expr.fits_call : (Expr.call f args).Fits n ↔ f.Fits n ∧ Expr.FitsAll n args := by
  simp only [Fits, FitsAll, tempBound, callsApart, Nat.max_le, Bool.and_eq_true]
  tauto

@[simp] theorem Expr.fitsAll_cons : Expr.FitsAll n (e :: es) ↔ e.Fits n ∧ Expr.FitsAll n es := by
  simp only [Fits, FitsAll, tempBoundAll, callsApartAll, Nat.max_le, Bool.and_eq_true]
  tauto

@[simp] theorem Stm.fits_move : (Stm.move target source).Fits n ↔
    (target.addressHasCall = false ∨ source.hasCall = false) ∧ target.Fits n ∧ source.Fits n := by
  simp only [Fits, Expr.Fits, tempBound, callsApart, Nat.max_le, Bool.and_eq_true, Bool.not_eq_true',
    Bool.and_eq_false_iff]
  tauto

@[simp] theorem Stm.fits_cjump {op : RelOp} {ifTrue ifFalse : Label} :
    (Stm.cjump op l r ifTrue ifFalse).Fits n ↔ l.Fits n ∧ r.Fits n := by
  simp only [Fits, Expr.Fits, tempBound, callsApart, Nat.max_le, Bool.and_eq_true]
  tauto

@[simp] theorem Stm.fits_seq : (Stm.seq x y).Fits n ↔ x.Fits n ∧ y.Fits n := by
  simp only [Fits, tempBound, callsApart, Nat.max_le, Bool.and_eq_true]
  tauto

end

theorem Stm.forall_parts {P : Stm → Prop} (hseq : ∀ x y, P (.seq x y) → P x ∧ P y) (st : Stm) (h : P st) :
    ∀ p ∈ st.parts, P p := by
  cases st with
  | seq x y =>
    obtain ⟨hx, hy⟩ := hseq x y h
    intro p hp
    rcases List.mem_append.1 hp with hp | hp
    · exact x.forall_parts hseq hx p hp
    · exact y.forall_parts hseq hy p hp
  | _ => simpa [Stm.parts] using h

theorem Stm.fits_parts (st : Stm) (hfit : st.Fits n) : ∀ p ∈ st.parts, p.Fits n :=
  st.forall_parts (fun _ _ => Stm.fits_seq.1) hfit

theorem Stm.inOrder_parts (st : Stm) (hn : st.tempBound ≤ n) (h : st.inOrder = true) :
    ∀ p ∈ st.parts, p.tempBound ≤ n ∧ p.inOrder = true := by
  refine st.forall_parts (P := fun p => p.tempBound ≤ n ∧ p.inOrder = true) (fun x y hxy => ?_) ⟨hn, h⟩
  obtain ⟨hnx, hny⟩ := Nat.max_le.1 hxy.1
  obtain ⟨hox, hoy⟩ := Bool.and_eq_true_iff.1 hxy.2
  exact ⟨⟨hnx, hox⟩, hny, hoy⟩

/-! ## Chains -/

/-- The code of the statements of a chain. -/
def Stm.straightenAll : List Stm → Fresh (List Stm)
  | [] => pure []
  | st :: rest => do
    let first ← st.straighten
    let later ← Stm.straightenAll rest
    return first ++ later

theorem gives_straightenAll_nil {code : List Stm} :
    Gives (Stm.straightenAll []) s code s' ↔ code = [] ∧ s' = s := gives_pure

theorem gives_straightenAll_cons {st : Stm} {rest code : List Stm} :
    Gives (Stm.straightenAll (st :: rest)) s code s' ↔ ∃ first s₁ later, Gives st.straighten s first s₁ ∧
      Gives (Stm.straightenAll rest) s₁ later s' ∧ code = first ++ later := by
  simp only [Stm.straightenAll, gives_bind, gives_pure]
  grind

theorem gives_straightenAll_append {xs ys code : List Stm} :
    Gives (Stm.straightenAll (xs ++ ys)) s code s' ↔ ∃ first s₁ later,
      Gives (Stm.straightenAll xs) s first s₁ ∧ Gives (Stm.straightenAll ys) s₁ later s' ∧
        code = first ++ later := by
  induction xs generalizing s code with
  | nil => simp [gives_straightenAll_nil]
  | cons st rest ih =>
    simp only [List.cons_append, gives_straightenAll_cons, ih]
    grind

theorem straightenAll_advances (parts : List Stm) : Advances (Stm.straightenAll parts) := by
  induction parts with
  | nil => exact .pure _
  | cons st rest ih => exact st.straighten_advances.bind fun _ => ih.bind fun _ => .pure _

theorem Stm.gives_parts (st : Stm) {s s' : Supply} {code : List Stm} :
    Gives (Stm.straightenAll st.parts) s code s' ↔ Gives st.straighten s code s' := by
  cases st with
  | seq x y =>
    rw [gives_straighten_seq, Stm.parts, gives_straightenAll_append]
    simp only [x.gives_parts, y.gives_parts]
  | _ => simp [Stm.parts, gives_straightenAll_cons, gives_straightenAll_nil]

/-- From the code of `rest`, control comes to the end of the code of the whole chain. A jump goes
back to code of the chain, so any temp saved there may change. -/
def LeadsFrom (places : Std.ExtTreeMap Label (List Stm)) (n : Nat) (parts rest : List Stm)
    (m m' : Machine) : Prop :=
  ∀ ⦃before s code s₁ code' s' after M⦄, parts = before ++ rest →
    Gives (Stm.straightenAll before) s code s₁ → Gives (Stm.straightenAll rest) s₁ code' s' →
    n ≤ s.temps.next → Located places (code ++ code') after → Agree n m M →
    ∃ M', Reaches places (code' ++ after) M after M' ∧
      Spares n s.temps.next s'.temps.next M M' ∧ Agree n m' M'

/-- The code leads from `m` to `m'`. -/
def Performs (places : Std.ExtTreeMap Label (List Stm)) (n : Nat) (x : Fresh (List Stm))
    (m m' : Machine) : Prop :=
  ∀ s code s', Gives x s code s' → n ≤ s.temps.next →
    Leads places n s.temps.next s'.temps.next code m (Agree n m')

theorem LeadsFrom.performs {st : Stm} (h : LeadsFrom places n st.parts st.parts m m') :
    Performs places n st.straighten m m' := by
  intro s code s' hcode hn after M hplace hM
  exact h rfl (gives_straightenAll_nil.2 ⟨rfl, rfl⟩) (st.gives_parts.2 hcode) hn hplace hM

/-! ## Operands of a call -/

theorem Leads.cons_join {x : Fresh Hoisted} {h h' : Hoisted} {s₁ s₂ s₃ : Supply} {later : List Stm}
    {values : List Expr} {w : Word} {ws : List Int64} {m₁ : Machine}
    (hx : Computes places n x m w m₁) (hup : Advances x) (hg : Gives x s h s₁)
    (hrest : Leads places n s₁.temps.next s₂.temps.next later m₁ (ShowsAll n values ws m'))
    (hsave : Gives (h.saveFrom later) s₂ h' s₃) (hn : n ≤ s.temps.next)
    (hle : s₁.temps.next ≤ s₂.temps.next) :
    Leads places n s.temps.next s₃.temps.next (h'.before ++ later) m
      (ShowsAll n (h'.value :: values) (w.value :: ws) m') := by
  refine (Leads.save hsave (hx _ _ _ hg hn) hrest hn (hup _ _ _ hg) hle).mono fun M => ?_
  rintro ⟨M₁, hw, M₂, hws, hM₂⟩
  exact ⟨M₂, Exec.yields_evalAll_cons.2 ⟨w, M₁, ws, hw, hws, rfl⟩, hM₂⟩

/-! ## The run of a tree in linear code -/

theorem yields_of_isNop {e : Expr} {w : Word} {M M' : Machine} (hnop : (Stm.exp e).isNop = true)
    (h : Yields (eval e) M w M') : M' = M := by
  cases e with
  | const _ => exact (Exec.yields_const.1 h).2.symm
  | longConst _ => exact (Exec.yields_longConst.1 h).2.symm
  | name _ => exact absurd h Exec.not_yields_name
  | temp _ => exact (Exec.yields_temp.1 h).2.symm
  | _ => simp [Stm.isNop] at hnop

/-- Hoisting gives code and the name `l` after it. -/
def Names (places : Std.ExtTreeMap Label (List Stm)) (n : Nat) (x : Fresh Hoisted) (m : Machine)
    (l : Label) (m' : Machine) : Prop :=
  ∀ s h s', Gives x s h s' → n ≤ s.temps.next →
    h.value = .name l ∧ Leads places n s.temps.next s'.temps.next h.before m (Agree n m')

/-- Hoisting gives code and expressions that have the values `ws` after it. The values are saved
once all operands are hoisted. -/
def ComputesAll (places : Std.ExtTreeMap Label (List Stm)) (n : Nat) (es : List Expr) (m : Machine)
    (ws : List Int64) (m' : Machine) : Prop :=
  ∀ ⦃s hs s₁ s₂ later values s₃⦄, Gives (Expr.hoistAll es) s hs s₁ →
    Gives (Hoisted.join hs) s₂ (later, values) s₃ → s₁.temps.next ≤ s₂.temps.next →
    n ≤ s.temps.next →
    Leads places n s.temps.next s₃.temps.next later m (ShowsAll n values ws m')

/-- Where control goes: on to `after`, or to the place of a label. -/
def GoesTo (places : Std.ExtTreeMap Label (List Stm)) (after : List Stm) :
    Option Label → List Stm → Prop
  | none, goal => goal = after
  | some l, goal => places[l]? = some goal

/-- The code leads from `m` to `m'` and goes on as `next` says. -/
def Takes (places : Std.ExtTreeMap Label (List Stm)) (n : Nat) (x : Fresh (List Stm)) (m : Machine)
    (next : Option Label) (m' : Machine) : Prop :=
  ∀ ⦃s code s' after goal M⦄, Gives x s code s' → n ≤ s.temps.next → Located places code after →
    GoesTo places after next goal → Agree n m M →
    ∃ M', Reaches places (code ++ after) M goal M' ∧
      Spares n s.temps.next s'.temps.next M M' ∧ Agree n m' M'

theorem LeadsFrom.done {parts : List Stm} : LeadsFrom places n parts [] m m := by
  intro before s code s₁ code' s' after M hparts hb hrest hn hplace hM
  obtain ⟨rfl, rfl⟩ := gives_straightenAll_nil.1 hrest
  exact ⟨M, .refl, .of_temps_eq rfl, hM⟩

theorem LeadsFrom.next {parts rest : List Stm} {st : Stm} {m₁ m₂ : Machine}
    (hstep : Takes places n st.straighten m none m₁) (hrest : LeadsFrom places n parts rest m₁ m₂) :
    LeadsFrom places n parts (st :: rest) m m₂ := by
  intro before s code s₁ code' s' after M hparts hb hcode hn hplace hM
  obtain ⟨first, s₂, later, hg, hlater, rfl⟩ := gives_straightenAll_cons.1 hcode
  have hle₁ := straightenAll_advances _ _ _ _ hb
  have hle₂ := st.straighten_advances _ _ _ hg
  have hle₃ := straightenAll_advances _ _ _ _ hlater
  obtain ⟨M₁, hreach, hspares, hM₁⟩ := hstep hg (hn.trans hle₁) hplace.right.left rfl hM
  have hmore : Gives (Stm.straightenAll (before ++ [st])) s (code ++ first) s₂ :=
    gives_straightenAll_append.2 ⟨code, s₁, first, hb,
      gives_straightenAll_cons.2 ⟨first, s₂, [], hg, gives_straightenAll_nil.2 ⟨rfl, rfl⟩, by simp⟩, rfl⟩
  obtain ⟨M₂, hreach', hspares', hM₂⟩ := hrest (by simp [hparts]) hmore hlater hn
    (by simpa using hplace) hM₁
  rw [List.append_assoc]
  exact ⟨M₂, hreach.trans hreach', (hspares.widen hle₁ hle₃).trans_same hspares', hM₂⟩

theorem LeadsFrom.goto {parts rest before' after' : List Stm} {st : Stm} {l : Label} {m₁ m₂ : Machine}
    (hstep : Takes places n st.straighten m (some l) m₁) (hlabel : parts = before' ++ .label l :: after')
    (hrest : LeadsFrom places n parts (.label l :: after') m₁ m₂) :
    LeadsFrom places n parts (st :: rest) m m₂ := by
  intro before s code s₁ code' s' after M hparts hb hcode' hn hplace hM
  obtain ⟨first, s₂, later, hg, hlater, rfl⟩ := gives_straightenAll_cons.1 hcode'
  have hle₁ := straightenAll_advances _ _ _ _ hb
  have hle₂ := st.straighten_advances _ _ _ hg
  have hle₃ := straightenAll_advances _ _ _ _ hlater
  -- the chain again, split where the label stands
  have hall : Gives (Stm.straightenAll parts) s (code ++ (first ++ later)) s' := by
    rw [hparts]
    exact gives_straightenAll_append.2 ⟨code, s₁, _, hb, hcode', rfl⟩
  rw [hlabel] at hall
  obtain ⟨c, s₃, c', hc, hc', hcode⟩ := gives_straightenAll_append.1 hall
  have hgoal : places[l]? = some (c' ++ after) := by
    obtain ⟨x, _, y, hx, hy, rfl⟩ := gives_straightenAll_cons.1 hc'
    obtain ⟨rfl, -⟩ := gives_pure.1 hx
    rw [hcode] at hplace
    exact hplace.right.head
  obtain ⟨M₁, hreach, hspares, hM₁⟩ := hstep hg (hn.trans hle₁) hplace.right.left hgoal hM
  obtain ⟨M₂, hreach', hspares', hM₂⟩ := hrest hlabel hc hc' hn (by rwa [hcode] at hplace) hM₁
  rw [List.append_assoc]
  exact ⟨M₂, hreach.trans hreach', (hspares.widen hle₁ hle₃).trans_same hspares', hM₂⟩

mutual
theorem Eval.computes : ∀ {m : Machine} {e : Expr} {w : Word} {m' : Machine}, Eval m e w m' →
    e.tempBound ≤ n → e.inOrder = true → Computes places n e.hoist m w m'
  | _, _, _, _, .const, _, _ => by exact computes_pure fun M _ => Exec.yields_const.2 ⟨rfl, rfl⟩
  | _, _, _, _, .longConst, _, _ => by exact computes_pure fun M _ => Exec.yields_longConst.2 ⟨rfl, rfl⟩
  | _, _, _, _, .temp ht, hn, _ => by
    refine computes_pure fun M hM => Exec.yields_temp.2 ⟨?_, rfl⟩
    rw [hM.temps _ hn, ht]
  | _, _, _, _, @Eval.binOp _ _ _ op l r _ _ hl hr, hn, horder => by
    obtain ⟨hnl, hnr⟩ := Nat.max_le.1 hn
    obtain ⟨hol, hor⟩ := Bool.and_eq_true_iff.1 horder
    exact (hl.computes hnl hol).binOp l.hoist_advances (hr.computes hnr hor) r.hoist_advances
  | _, _, _, _, .mem ha, hbound, horder => by
    intro s h s' hg hn
    obtain ⟨ha', hga, rfl⟩ := gives_hoist_mem.1 hg
    refine (ha.computes hbound horder _ _ _ hga hn).mono fun M => ?_
    rintro ⟨M₁, haddress, hM₁⟩
    exact ⟨M₁, Exec.yields_mem.2 ⟨_, haddress, (hM₁.loadWord _).symm⟩, hM₁⟩
  | _, _, _, _, @Eval.call _ _ _ _ f l args _ _ hf hargs hanswer, hbound, horder => by
    obtain ⟨hnf, hnargs⟩ := Nat.max_le.1 hbound
    obtain ⟨hof, hoargs⟩ := Bool.and_eq_true_iff.1 horder
    intro s h s' hg hn
    obtain ⟨hf₁, s₁, hs, s₂, later, values, s₃, hf₂, hgf, hgargs, hj, hsave, rfl⟩ :=
      Hoisted.gives_call.1 hg
    have hle₁ := f.hoist_advances _ _ _ hgf
    have hle₂ := Expr.hoistAll_advances args _ _ _ hgargs
    have hle₃ := Advances.join hs _ _ _ hj
    obtain ⟨hname, hlead⟩ := hf.names hnf hof _ _ _ hgf hn
    -- the name of a routine is steady, so it is never saved
    obtain ⟨rfl, rfl⟩ : hf₂ = hf₁ ∧ s' = s₃ := by
      rcases Hoisted.gives_saveFrom.1 hsave with ⟨-, h₁, h₂⟩ | ⟨-, hsteady, -⟩
      · exact ⟨h₁, h₂⟩
      · simp [hname, Expr.isSteady] at hsteady
    have hall := hargs.computesAll hnargs hoargs hgargs hj le_rfl (hn.trans hle₁)
    refine (hlead.append hall hle₁ (hle₂.trans hle₃)).mono fun M => ?_
    rintro ⟨M₁, hvalues, hM₁⟩
    obtain ⟨M₂, hanswer', hM₂⟩ := hM₁.answer hanswer
    refine ⟨M₂, ?_, hM₂⟩
    rw [hname]
    exact Exec.yields_call.2 ⟨_, M₁, _, hvalues, hanswer', rfl⟩
  | _, _, _, _, @Eval.eseq _ _ _ st e _ hruns he, hbound, horder => by
    obtain ⟨hnst, hne⟩ := Nat.max_le.1 hbound
    obtain ⟨host, hoe⟩ := Bool.and_eq_true_iff.1 horder
    intro s h s' hg hn
    obtain ⟨code, s₁, he', hcode, hge, rfl⟩ := gives_hoist_eseq.1 hg
    have hle := st.straighten_advances _ _ _ hcode
    refine Leads.append ?_ (he.computes hne hoe _ _ _ hge (hn.trans hle)) hle (e.hoist_advances _ _ _ hge)
    exact (hruns.leadsFrom (st.inOrder_parts hnst host)).performs _ _ _ hcode hn

theorem EvalAll.computesAll : ∀ {m : Machine} {es : List Expr} {ws : List Int64} {m' : Machine},
    EvalAll m es ws m' → Expr.tempBoundAll es ≤ n → Expr.inOrderAll es = true → ComputesAll places n es m ws m'
  | _, _, _, _, .nil, _, _ => by
    intro s hs s₁ s₂ later values s₃ hg hj hle hn
    obtain ⟨rfl, -⟩ := gives_pure.1 hg
    obtain ⟨heq, -⟩ := Hoisted.gives_join_nil.1 hj
    cases heq
    exact .nil fun M hM => ⟨M, Exec.yields_evalAll_nil.2 ⟨rfl, rfl⟩, hM⟩
  | _, _, _, _, @EvalAll.cons _ _ _ e _ rest _ he hrest, hbound, horder => by
    obtain ⟨hne, hnrest⟩ := Nat.max_le.1 hbound
    obtain ⟨hoe, horest⟩ := Bool.and_eq_true_iff.1 horder
    intro s hs s₁ s₂ later values s₃ hg hj hle hn
    obtain ⟨h, s₀, hs', hge, hgrest, rfl⟩ := gives_hoistAll_cons.1 hg
    obtain ⟨later', values', s₄, h', hj', hsave, heq⟩ := Hoisted.gives_join_cons.1 hj
    cases heq
    have hle₀ := e.hoist_advances _ _ _ hge
    have hle₁ := Expr.hoistAll_advances rest _ _ _ hgrest
    have hle₂ := Advances.join hs' _ _ _ hj'
    have hall := hrest.computesAll hnrest horest hgrest hj' hle (hn.trans hle₀)
    exact .cons_join (he.computes hne hoe) e.hoist_advances hge hall hsave hn (by omega)

theorem Target.names : ∀ {m : Machine} {e : Expr} {l : Label} {m' : Machine},
    Target m e l m' → e.tempBound ≤ n → e.inOrder = true → Names places n e.hoist m l m'
  | _, _, _, _, .name, _, _ => by
    intro s hd s' hg hn
    obtain ⟨rfl, rfl⟩ := gives_pure.1 hg
    exact ⟨rfl, .nil fun M hM => hM⟩
  | _, _, _, _, @Target.eseq _ _ _ st e _ hruns he, hbound, horder => by
    obtain ⟨hnst, hne⟩ := Nat.max_le.1 hbound
    obtain ⟨host, hoe⟩ := Bool.and_eq_true_iff.1 horder
    intro s hd s' hg hn
    obtain ⟨code, s₁, hd', hcode, hge, rfl⟩ := gives_hoist_eseq.1 hg
    have hle := st.straighten_advances _ _ _ hcode
    obtain ⟨hname, hlead⟩ := he.names hne hoe _ _ _ hge (hn.trans hle)
    exact ⟨hname, ((hruns.leadsFrom (st.inOrder_parts hnst host)).performs _ _ _ hcode hn).append hlead hle
      (e.hoist_advances _ _ _ hge)⟩

theorem Assigns.performs : ∀ {m : Machine} {target source : Expr} {m' : Machine},
    Assigns m target source m' → (Stm.move target source).tempBound ≤ n →
      (Stm.move target source).inOrder = true →
      Performs places n (target.receive source.hoist) m m'
  | _, _, source, _, @Assigns.temp _ _ t _ w hs, hbound, horder => by
    obtain ⟨hnt, hns⟩ := Nat.max_le.1 hbound
    obtain ⟨-, -, hos⟩ := Stm.inOrder_move.1 horder
    intro s code s' hg hn
    obtain ⟨hd, hgs, rfl⟩ := gives_receive_temp.1 hg
    refine (hs.computes hns hos _ _ _ hgs hn).then_step fun M => ?_
    rintro ⟨M₁, hw, hM₁⟩
    refine ⟨_, Exec.yields_step_move.2 ⟨w, M₁, hw, Exec.yields_assign_temp.2 rfl, rfl⟩, ?_,
      hM₁.setTemp t w⟩
    intro u hu _
    rw [getElem?_insert_ne (by grind [Expr.tempBound]), (Exec.eval_keeps _ hw).1]
  | _, _, source, _, @Assigns.mem _ _ _ a _ _ _ ha hs, hbound, horder => by
    obtain ⟨hnt, hns⟩ := Nat.max_le.1 hbound
    obtain ⟨hcalls, hot, hos⟩ := Stm.inOrder_move.1 horder
    intro s code s' hg hn
    obtain ⟨p, hp, rfl⟩ := gives_receive_mem.1 hg
    have hboth := (ha.computes hnt hot).pair a.hoist_advances (hs.computes hns hos)
      source.hoist_advances hp hn
    refine hboth.then_step fun M hM => ?_
    obtain ⟨M', hstep, htemps, hM'⟩ := ShowsBoth.move (d := .mem p.left) (by simp) hM
      (Hoisted.pair_of_isOvertaken hcalls hp)
    exact ⟨M', hstep, .of_temps_eq htemps, hM'⟩
  | _, _, source, _, @Assigns.eseq _ _ _ st target _ hruns ht, hbound, horder => by
    obtain ⟨hnd, hns⟩ := Nat.max_le.1 hbound
    obtain ⟨hnst, hnt⟩ := Nat.max_le.1 hnd
    obtain ⟨hcalls, hod, hos⟩ := Stm.inOrder_move.1 horder
    obtain ⟨host, hot⟩ := Bool.and_eq_true_iff.1 hod
    intro s code s' hg hn
    obtain ⟨c, s₁, c', hc, hc', rfl⟩ := gives_receive_eseq.1 hg
    have hle := st.straighten_advances _ _ _ hc
    have hlead := ht.performs (Nat.max_le.2 ⟨hnt, hns⟩) (Stm.inOrder_move.2 ⟨hcalls, hot, hos⟩) _ _ _ hc'
      (hn.trans hle)
    exact ((hruns.leadsFrom (st.inOrder_parts hnst host)).performs _ _ _ hc hn).append hlead hle
      (target.receive_advances source.hoist_advances _ _ _ hc')

theorem Step.takes : ∀ {m : Machine} {st : Stm} {next : Option Label} {m' : Machine},
    Step m st next m' → st.tempBound ≤ n → st.inOrder = true → Takes places n st.straighten m next m'
  | _, _, _, _, .label, _, _ => by
    intro s code s' after goal M hg hn hplace hgoal hM
    obtain ⟨rfl, rfl⟩ := gives_pure.1 hg
    subst hgoal
    exact ⟨M, .next (Exec.yields_step_label.2 ⟨rfl, rfl⟩) .refl, .of_temps_eq rfl, hM⟩
  | _, _, _, _, .move ha, hbound, horder => by
    intro s code s' after goal M hg hn hplace hgoal hM
    subst hgoal
    exact ha.performs hbound horder _ _ _ hg hn _ M hplace hM
  | _, _, _, _, @Step.exp _ m' e w he, hbound, horder => by
    intro s code s' after goal M hg hn hplace hgoal hM
    subst hgoal
    obtain ⟨hd, hge, rfl⟩ := gives_straighten_exp.1 hg
    have hlead := he.computes hbound horder _ _ _ hge hn
    split at hplace
    next hnop =>
      rw [if_pos hnop]
      obtain ⟨M₁, hreach, hspares, M₂, hw, hM₂⟩ := hlead _ M hplace hM
      obtain rfl := yields_of_isNop hnop hw
      exact ⟨M₂, hreach, hspares, hM₂⟩
    next hnop =>
      rw [if_neg hnop]
      have hcode := hlead.then_step (s := .exp hd.value) (Q := Agree n m') fun M₁ => ?_
      · exact hcode _ M hplace hM
      · rintro ⟨M₂, hw, hM₂⟩
        exact ⟨M₂, Exec.yields_step_exp.2 ⟨w, hw, rfl⟩, .of_temps_eq (Exec.eval_keeps _ hw).1, hM₂⟩
  | _, _, _, _, @Step.jump _ _ target l labels ht, hbound, horder => by
    intro s code s' after goal M hg hn hplace hgoal hM
    obtain ⟨hd, hgt, rfl⟩ := gives_straighten_jump.1 hg
    obtain ⟨hname, hlead⟩ := ht.names hbound horder _ _ _ hgt hn
    obtain ⟨M₁, hreach, hspares, hM₁⟩ := hlead _ M hplace.left hM
    rw [hname] at hreach ⊢
    rw [List.append_assoc]
    exact ⟨M₁, hreach.trans (.goto (Exec.yields_step_jump.2 ⟨rfl, rfl⟩) hgoal .refl), hspares, hM₁⟩
  | _, _, _, _, @Step.cjump _ _ _ op l r a b ifTrue ifFalse hl hr, hbound, horder => by
    intro s code s' after goal M hg hn hplace hgoal hM
    obtain ⟨hnl, hnr⟩ := Nat.max_le.1 hbound
    obtain ⟨hol, hor⟩ := Bool.and_eq_true_iff.1 horder
    obtain ⟨before, last, rfl, hlead⟩ := (hl.computes hnl hol).cjump (hr.computes hnr hor) hg hn
    obtain ⟨M₁, hreach, hspares, M₂, hstep, htemps, hM₂⟩ := hlead _ M hplace.left hM
    rw [List.append_assoc]
    exact ⟨M₂, hreach.trans (.goto hstep hgoal .refl), hspares.trans_same (.of_temps_eq htemps), hM₂⟩

theorem Runs.leadsFrom : ∀ {parts rest : List Stm} {m m' : Machine}, Runs parts rest m m' →
    (∀ p ∈ parts, p.tempBound ≤ n ∧ p.inOrder = true) → LeadsFrom places n parts rest m m'
  | _, _, _, _, .done, _ => by exact .done
  | _, _, _, _, @Runs.next _ st _ _ _ _ hstep hruns, hall => by
    intro before _ _ _ _ _ _ _ hparts
    obtain ⟨hbound, horder⟩ := hall st (by simp [hparts])
    exact LeadsFrom.next (hstep.takes hbound horder) (hruns.leadsFrom hall) hparts
  | _, _, _, _, @Runs.goto _ st _ _ _ _ _ _ _ hstep hlabel hruns, hall => by
    intro before _ _ _ _ _ _ _ hparts
    obtain ⟨hbound, horder⟩ := hall st (by simp [hparts])
    exact LeadsFrom.goto (hstep.takes hbound horder) hlabel (hruns.leadsFrom hall) hparts
end

/-! Trees that keep calls apart are in order. -/

section

variable {e : Expr} {st : Stm} {parts rest : List Stm} {w : Word} {next : Option Label}

theorem Eval.hoisted (h : Eval m e w m') (hfit : e.Fits n) : Computes places n e.hoist m w m' :=
  h.computes hfit.1 (e.inOrder_of_callsApart hfit.2)

theorem Step.straightened (h : Step m st next m') (hfit : st.Fits n) :
    Takes places n st.straighten m next m' :=
  h.takes hfit.1 (st.inOrder_of_callsApart hfit.2)

theorem Runs.straightened (h : Runs parts rest m m') (hfit : ∀ p ∈ parts, p.Fits n) :
    LeadsFrom places n parts rest m m' :=
  h.leadsFrom fun p hp => ⟨(hfit p hp).1, p.inOrder_of_callsApart (hfit p hp).2⟩

end

/-! ## Lists of statements -/

section

variable {x : Fresh (List Stm)} {cs ds : List Stm} {st : Stm} {m₁ m₂ : Machine}

theorem Performs.takes (h : Performs places n x m m') : Takes places n x m none m' := by
  intro s code s' after goal M hg hn hplace hgoal hM
  subst hgoal
  exact h s code s' hg hn _ M hplace hM

theorem Takes.performs (h : Takes places n x m none m') : Performs places n x m m' := by
  intro s code s' hg hn after M hplace hM
  exact h hg hn hplace rfl hM

theorem gives_straighten_ofList {code : List Stm} :
    Gives (Stm.ofList cs).straighten s code s' ↔ Gives (Stm.straightenAll cs) s code s' := by
  fun_induction Stm.ofList cs generalizing s code with
  | case1 => exact Iff.rfl
  | case2 st => simp [gives_straightenAll_cons, gives_straightenAll_nil]
  | case3 st rest _ ih =>
    rw [gives_straighten_seq, gives_straightenAll_cons]
    simp only [ih]

theorem performs_ofList : Performs places n (Stm.ofList cs).straighten m m' ↔
    Performs places n (Stm.straightenAll cs) m m' := by
  simp only [Performs, gives_straighten_ofList]

theorem performs_nil : Performs places n (Stm.straightenAll []) m m := by
  intro s code s' hg _
  obtain ⟨rfl, rfl⟩ := gives_straightenAll_nil.1 hg
  exact .nil fun M hM => hM

theorem Performs.cons (h : Performs places n st.straighten m m₁)
    (h' : Performs places n (Stm.straightenAll cs) m₁ m₂) :
    Performs places n (Stm.straightenAll (st :: cs)) m m₂ := by
  intro s code s' hg hn
  obtain ⟨first, s₁, later, hfirst, hlater, rfl⟩ := gives_straightenAll_cons.1 hg
  have hle := st.straighten_advances _ _ _ hfirst
  exact (h _ _ _ hfirst hn).append (h' _ _ _ hlater (hn.trans hle)) hle (straightenAll_advances _ _ _ _ hlater)

theorem Performs.append (h : Performs places n (Stm.straightenAll cs) m m₁)
    (h' : Performs places n (Stm.straightenAll ds) m₁ m₂) :
    Performs places n (Stm.straightenAll (cs ++ ds)) m m₂ := by
  intro s code s' hg hn
  obtain ⟨first, s₁, later, hfirst, hlater, rfl⟩ := gives_straightenAll_append.1 hg
  have hle := straightenAll_advances _ _ _ _ hfirst
  exact (h _ _ _ hfirst hn).append (h' _ _ _ hlater (hn.trans hle)) hle (straightenAll_advances _ _ _ _ hlater)

theorem leadsFrom_iff_performs : LeadsFrom places n cs cs m m' ↔ Performs places n (Stm.straightenAll cs) m m' := by
  constructor
  · intro h s code s' hcode hn after M hplace hM
    exact h rfl (gives_straightenAll_nil.2 ⟨rfl, rfl⟩) hcode hn hplace hM
  · intro h before s code s₁ code' s' after M hparts hb hcode hn hplace hM
    obtain rfl : before = [] := by simpa using hparts
    obtain ⟨rfl, rfl⟩ := gives_straightenAll_nil.1 hb
    exact h _ _ _ hcode hn after M hplace hM

end

/-! ## Whole statements -/

theorem Stm.located_linearize (st : Stm) (hlabels : st.labels.Nodup) :
    Located (Machine.targets st.linearize) st.linearize [] :=
  Machine.located_targets (by rwa [st.labelsOf_linearize])

theorem Stm.run_linearize_of_performs (st : Stm) (hlabels : st.labels.Nodup)
    (h : Performs (Machine.targets st.linearize) st.tempBound st.straighten m m') :
    ∃ enough, ∀ limit, enough ≤ limit → ∃ steps M,
      (m.withLimit limit).run st.linearize = (.ok steps, M) ∧ Agree st.tempBound m' M := by
  obtain ⟨M, hreach, -, hM⟩ := h _ _ _ (gives_run _ (Supply.startingAt st.tempBound)) le_rfl [] m
    (st.located_linearize hlabels) (.refl m)
  rw [List.append_nil] at hreach
  obtain ⟨enough, hrun⟩ := Machine.run_of_reaches hreach
  refine ⟨enough, fun limit hlimit => ?_⟩
  obtain ⟨steps, hsteps⟩ := hrun limit hlimit
  exact ⟨steps, _, hsteps, hM.withLimit limit⟩

/-- Linear code does what the tree does. A jump of the tree that leaves the chain it stands in, and
a move into anything but a temp or a memory word, have no meaning there, so nothing is asked about
them. -/
theorem Stm.run_linearize_of_ends (st : Stm) (m m' : Machine) (hlabels : st.labels.Nodup)
    (hcalls : st.callsApart = true) (h : st.Ends m m') :
    ∃ enough, ∀ limit, enough ≤ limit → ∃ steps M,
      (m.withLimit limit).run st.linearize = (.ok steps, M) ∧ M.memory = m'.memory ∧
        M.output = m'.output ∧ M.calls = m'.calls ∧ ∀ t ∈ st.temps, M.temps[t]? = m'.temps[t]? := by
  have hfits : st.Fits st.tempBound := ⟨le_rfl, hcalls⟩
  obtain ⟨enough, hrun⟩ := st.run_linearize_of_performs hlabels
    (Runs.straightened h (st.fits_parts hfits)).performs
  refine ⟨enough, fun limit hlimit => ?_⟩
  obtain ⟨steps, M, hsteps, hM⟩ := hrun limit hlimit
  exact ⟨steps, M, hsteps, hM.memory, hM.output, hM.calls,
    fun t ht => hM.temps t (st.index_lt_tempBound ht)⟩

/-- Counts the temp 1 down to zero. -/
def countdown : Stm :=
  .seq (.label ⟨"again"⟩)
    (.seq (.move (.temp ⟨1⟩) (.binOp .minus (.temp ⟨1⟩) (.const 1)))
      (.seq (.cjump .gt (.temp ⟨1⟩) (.const 0) ⟨"again"⟩ ⟨"done"⟩) (.label ⟨"done"⟩)))

/-- A sum whose right operand counts its left operand down. -/
def countdownSum : Stm :=
  .move (.temp ⟨0⟩) (.binOp .plus (.temp ⟨1⟩) (.eseq countdown (.temp ⟨1⟩)))

/-- The machine after these temps were set, one after another. -/
def afterSetting (sets : List (Nat × Int32)) : Machine :=
  sets.foldl (fun m (t, v) => { m with temps := m.temps.insert ⟨t⟩ (.narrow v) }) {}

theorem countdown_runs : Runs countdown.parts countdown.parts (afterSetting [(1, 2)])
    (afterSetting [(1, 2), (1, 1), (1, 0)]) := by
  have htwo : Eval (afterSetting [(1, 2)]) (.temp ⟨1⟩) (.narrow 2) _ := .temp (by decide +kernel)
  have hone : Eval (afterSetting [(1, 2), (1, 1)]) (.temp ⟨1⟩) (.narrow 1) _ := .temp (by decide +kernel)
  have hzero : Eval (afterSetting [(1, 2), (1, 1), (1, 0)]) (.temp ⟨1⟩) (.narrow 0) _ :=
    .temp (by decide +kernel)
  refine .next .label (.next (.move (.temp (.binOp htwo .const))) ?_)
  refine .goto (.cjump hone .const) (show countdown.parts = [] ++ _ from rfl) ?_
  refine .next .label (.next (.move (.temp (.binOp hone .const))) ?_)
  exact .goto (.cjump hzero .const) (show countdown.parts = [_, _, _] ++ [_] from rfl) (.next .label .done)

theorem countdownSum_ends : countdownSum.Ends (afterSetting [(1, 2)])
    (afterSetting [(1, 2), (1, 1), (1, 0), (0, 2)]) := by
  have hleft : Eval (afterSetting [(1, 2)]) (.temp ⟨1⟩) (.narrow 2) _ := .temp (by decide +kernel)
  have hright := Eval.eseq countdown_runs (.temp (t := ⟨1⟩) (w := .narrow 0) (by decide +kernel))
  exact .next (.move (.temp (.binOp hleft hright))) .done

/-- The left operand is saved before the loop that changes it, and the loop runs over hoisted code. -/
theorem run_linearize_countdownSum : countdownSum.labels.Nodup ∧ countdownSum.callsApart = true ∧
    countdownSum.Ends (afterSetting [(1, 2)]) (afterSetting [(1, 2), (1, 1), (1, 0), (0, 2)]) ∧
    ∃ enough, ∀ limit, enough ≤ limit → ∃ steps M,
      ((afterSetting [(1, 2)]).withLimit limit).run countdownSum.linearize = (.ok steps, M) ∧
        M.temps[(⟨0⟩ : Temp)]? = some (.narrow 2) := by
  have hlabels : countdownSum.labels.Nodup := by decide +kernel
  refine ⟨hlabels, rfl, countdownSum_ends, ?_⟩
  obtain ⟨enough, hrun⟩ := countdownSum.run_linearize_of_ends _ _ hlabels rfl countdownSum_ends
  refine ⟨enough, fun limit hlimit => ?_⟩
  obtain ⟨steps, M, hsteps, -, -, -, htemps⟩ := hrun limit hlimit
  exact ⟨steps, M, hsteps, (htemps ⟨0⟩ (by decide +kernel)).trans (by decide +kernel)⟩

end Lowering.Tree
