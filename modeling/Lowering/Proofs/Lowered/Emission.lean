import Lowering.Proofs.Lowered.Emitted
import Lowering.Proofs.Scope.Body

/-!
# Lowering emits code

Whatever method lowering works on, the code that it ends with is emitted code. Its temps are those
that were drawn on the way, and those that the method and the frame had before.
-/

namespace Lowering

open Lowering.Tree (Temp Label Stm nextTemp)
open Lowering.Source (VarDecl Stmt)
open Supply (Before)
open Lower (DrawnIn placeIn)

variable {own : Temp → Prop} {w w' w₁ w₂ : Work} {env : Surroundings}

/-! ## Temps of a work -/

/-- The temps in which the work keeps variables. -/
structure Homes (own : Temp → Prop) (w : Work) : Prop where
  fp : own w.frame.fp
  rv : own w.frame.rv
  bound : ∀ v ∈ w.method.parameters ++ w.method.locals, ∀ t, v.access = some (.inReg t) → own t

theorem ownPlace_exp {fp : Temp} {a : Access} (hfp : own fp) (ha : ∀ t, a = .inReg t → own t) :
    OwnPlace own (a.exp (.temp fp)) := by
  refine ⟨⟨fp, a, rfl⟩, fun t ht => ?_⟩
  cases a with
  | inFrame offset =>
    obtain rfl : t = fp := by simpa [Access.exp, Tree.Expr.temps] using ht
    exact hfp
  | inReg u =>
    obtain rfl : t = u := by simpa [Access.exp, Tree.Expr.temps] using ht
    exact ha t rfl

theorem ownPlace_temp {t : Temp} (ht : own t) : OwnPlace own (.temp t) :=
  ownPlace_exp (a := .inReg t) ht fun _ hu => Access.inReg.inj hu ▸ ht

namespace Homes

theorem of_same (h : Homes own w) (hmethod : w'.method.parameters = w.method.parameters ∧
    w'.method.locals = w.method.locals) (hframe : w'.frame.fp = w.frame.fp ∧ w'.frame.rv = w.frame.rv) :
    Homes own w' := by
  refine ⟨hframe.1 ▸ h.fp, hframe.2 ▸ h.rv, ?_⟩
  rw [hmethod.1, hmethod.2]
  exact h.bound

theorem placeIn {x : String} {c : Tree.Expr} (h : Homes own w) (hc : Lower.placeIn w x = some c) : OwnPlace own c := by
  obtain ⟨v, hv, hc⟩ := Option.bind_eq_some_iff.1 hc
  obtain ⟨a, ha, rfl⟩ := Option.map_eq_some_iff.1 hc
  have hmem : v ∈ w.method.parameters ++ w.method.locals := by
    rcases Option.or_eq_some_iff.1 hv with hv | ⟨-, hv⟩
    · exact List.mem_append_right _ (Method.mem_of_local? hv)
    · exact List.mem_append_left _ (List.mem_of_find?_eq_some hv)
  exact ownPlace_exp h.fp fun t ht => h.bound v hmem t (ht ▸ ha)

end Homes

theorem access_of_mem_setAccess {index : Nat} {a : Access} {vs : List Variable} {v : Variable}
    (h : v ∈ Method.setAccess index a vs) : v.access = some a ∨ v ∈ vs := by
  obtain ⟨u, hu, rfl⟩ := List.mem_map.1 h
  split
  · exact .inl rfl
  · exact .inr hu

/-! ## Emissions -/

/-- From `w` to `w'` code is emitted. What it looks like depends on the temps it may call its own. -/
structure Emits (w w' : Work) (code : (Temp → Prop) → Prop) : Prop where
  before : Before w.supply w'.supply
  emits : ∀ own, Homes own w → (∀ t, DrawnIn w w' t → own t) → Homes own w' ∧ code own

namespace Emits

variable {code code' : (Temp → Prop) → Prop}

theorem refl (w : Work) : Emits w w fun _ => True := ⟨.refl _, fun _ h _ => ⟨h, trivial⟩⟩

theorem trans (h : Emits w w₁ code) (h' : Emits w₁ w₂ code') : Emits w w₂ fun own => code own ∧ code' own := by
  refine ⟨h.before.trans h'.before, fun own hhomes hdrawn => ?_⟩
  -- What either part draws was drawn between the two ends.
  obtain ⟨hhomes₁, hcode⟩ := h.emits own hhomes fun t ht => hdrawn t ⟨ht.1, ht.2.trans_le h'.before.1⟩
  obtain ⟨hhomes₂, hcode'⟩ := h'.emits own hhomes₁ fun t ht => hdrawn t ⟨h.before.1.trans ht.1, ht.2⟩
  exact ⟨hhomes₂, hcode, hcode'⟩

theorem imp (h : Emits w w' code) (hcode : ∀ own, code own → code' own) : Emits w w' code' :=
  ⟨h.before, fun own hhomes hdrawn => (h.emits own hhomes hdrawn).imp_right (hcode own)⟩

theorem of_same (hsupply : Before w.supply w'.supply)
    (hmethod : w'.method.parameters = w.method.parameters ∧ w'.method.locals = w.method.locals)
    (hframe : w'.frame.fp = w.frame.fp ∧ w'.frame.rv = w.frame.rv) : Emits w w' fun _ => True :=
  ⟨hsupply, fun _ h _ => ⟨h.of_same hmethod hframe, trivial⟩⟩

theorem noting (h : Emits w w' code) (e : Event) : Emits w (w'.noting e) code := by
  have hnoting : Emits w' (w'.noting e) fun _ => True := of_same (.refl _) ⟨rfl, rfl⟩ ⟨rfl, rfl⟩
  exact (h.trans hnoting).imp fun _ hcode => hcode.1

theorem draw {α : Type} {x : Draw α} {labels : α → List Label} {there : List Label} {a : α} {s : Supply}
    (h : Emits w w' code) (hspends : Spends x labels there) (hx : Yields x w'.supply a s) :
    Emits w { w' with supply := s } code := by
  have hdraw : Emits w' { w' with supply := s } fun _ => True :=
    of_same (hspends _ _ _ hx).1 ⟨rfl, rfl⟩ ⟨rfl, rfl⟩
  exact (h.trans hdraw).imp fun _ hcode => hcode.1

theorem leave {b : Block} {method : Method} (h : Emits w.entering w' code)
    (hleave : w'.method.leave = (.ok b, method)) : Emits w { w' with method } code := by
  have henter : Emits w w.entering fun _ => True := of_same (.refl _) ⟨rfl, rfl⟩ ⟨rfl, rfl⟩
  have hmethod : method.parameters = w'.method.parameters ∧ method.locals = w'.method.locals := by
    obtain ⟨outer, -, rfl⟩ := Method.leave_eq_ok.1 hleave
    exact ⟨rfl, rfl⟩
  have hleft : Emits w' { w' with method } fun _ => True := of_same (.refl _) hmethod ⟨rfl, rfl⟩
  exact ((henter.trans h).trans hleft).imp fun _ hcode => hcode.1.2

end Emits

/-! ## Expressions -/

theorem Lower.OnlyDraws.emits {ls : List Label} (h : Lower.OnlyDraws w w' ls) : Emits w w' fun _ => True := by
  refine .of_same h.before ?_ ?_ <;> rw [h.same] <;> exact ⟨rfl, rfl⟩

theorem emits_place {x : String} {c : Tree.Expr} (h : placeIn w x = some c) : Emits w w fun own => OwnPlace own c :=
  ⟨.refl _, fun _ hhomes _ => ⟨hhomes, hhomes.placeIn h⟩⟩

theorem emits_value {e : Source.Expr} {c : Tree.Expr} (h : Yields (Lower.lowerValue env e) w c w') :
    Emits w w' fun own => OwnValue own c := by
  obtain ⟨hdraws, hcode⟩ := Lower.lowerValue_lowers h
  refine ⟨hdraws.before, fun own hhomes hdrawn => ⟨(hdraws.emits.emits own hhomes hdrawn).1, ?_⟩⟩
  exact ⟨placeIn w, e, fun x c hx => hhomes.placeIn hx, hcode.mono (fun _ _ h => h) hdrawn⟩

/-- A test branches on two values. -/
def OwnTest (own : Temp → Prop) (l : Lowered) : Prop :=
  ∀ yes no test, l.toBranch yes no = .ok test →
    ∃ op a b, OwnValue own a ∧ OwnValue own b ∧ test = .cjump op a b yes no

theorem emits_test {e : Source.Expr} {l : Lowered} (h : Yields (Lower.lowerExpr env e) w l w') :
    Emits w w' fun own => OwnTest own l := by
  obtain ⟨hdraws, hcode⟩ := Lower.lowerExpr_lowers e _ _ _ h
  refine ⟨hdraws.before, fun own hhomes hdrawn => ⟨(hdraws.emits.emits own hhomes hdrawn).1, ?_⟩⟩
  intro yes no test htest
  have hplace : ∀ x c, placeIn w x = some c → OwnPlace own c := fun x c hx => hhomes.placeIn hx
  cases (hcode.mono (fun _ _ h => h) hdrawn).toBranch htest with
  | comparison hop hl hr => exact ⟨_, _, _, ⟨_, _, hplace, hl⟩, ⟨_, _, hplace, hr⟩, rfl⟩
  | value hv => exact ⟨_, _, _, ⟨_, _, hplace, hv⟩, ownValue_zero, rfl⟩

/-! ## Locals and formals -/

/-- Every statement that the piece can give is emitted code. -/
def GivesEmitted (own : Temp → Prop) (routine : String) (l : Lowered) : Prop :=
  ∀ c, l.GivesStm c → Emitted own routine c

theorem emits_home (w : Work) (parameters locals : List Variable)
    (hbound : ∀ v ∈ parameters ++ locals, v.access = some (.inReg (nextTemp w.supply)) ∨
      v ∈ w.method.parameters ++ w.method.locals) :
    Emits w { w.housing with method := { w.method with parameters, locals } } fun own => own (nextTemp w.supply) := by
  refine ⟨w.supply.before_temp, fun own hhomes hdrawn => ?_⟩
  have hnew : own (nextTemp w.supply) := hdrawn _ ⟨le_rfl, Nat.lt_succ_self _⟩
  refine ⟨⟨hhomes.fp, hhomes.rv, fun v hv t ht => ?_⟩, hnew⟩
  rcases hbound v hv with hv | hv
  · cases hv.symm.trans ht
    exact hnew
  · exact hhomes.bound v hv t ht

theorem emits_local {d : VarDecl} {l : Lowered} (henv : env.storage.localsEscape = false)
    (h : Yields (Lower.lowerLocal env d) w l w') : Emits w w' fun own => GivesEmitted own env.println l := by
  obtain ⟨v, -, rfl, rfl⟩ := Lower.yields_lowerLocal henv h
  have hhome := emits_home w w.method.parameters
    (Method.setAccess v.index (.inReg (nextTemp w.supply)) w.method.locals) fun u hu => by
      rcases List.mem_append.1 hu with hu | hu
      · exact .inr (List.mem_append_left _ hu)
      · exact (access_of_mem_setAccess hu).imp_right (List.mem_append_right _)
  refine hhome.imp fun own hown c hc => ?_
  obtain ⟨s, s', hc⟩ := hc
  obtain ⟨rfl, -⟩ := Lowered.yields_toStm_value.1 hc
  exact .value (ownPlace_temp hown).value

theorem emits_formal {d : VarDecl} {l : Lowered} (henv : env.storage.localsEscape = false)
    (h : Yields (Lower.lowerFormal env d) w l w') : Emits w w' fun own => GivesEmitted own env.println l := by
  obtain ⟨v, incoming, hv, hincoming, rfl, rfl⟩ := Lower.yields_lowerFormal henv h
  have hhome := emits_home w (Method.setAccess v.index (.inReg (nextTemp w.supply)) w.method.parameters)
    w.method.locals fun u hu => by
      rcases List.mem_append.1 hu with hu | hu
      · exact (access_of_mem_setAccess hu).imp_right (List.mem_append_left _)
      · exact .inr (List.mem_append_right _ hu)
  refine ⟨hhome.before, fun own hhomes hdrawn => ?_⟩
  obtain ⟨hhomes', hown⟩ := hhome.emits own hhomes hdrawn
  refine ⟨hhomes', fun c hc => ?_⟩
  obtain ⟨s, s', hc⟩ := hc
  obtain ⟨rfl, -⟩ := Lowered.yields_toStm_value.1 hc
  have hmem : v ∈ w.method.parameters ++ w.method.locals :=
    List.mem_append_left _ (List.mem_of_find?_eq_some hv)
  exact .arrive (ownPlace_temp hown) (ownPlace_exp hhomes.fp fun t ht => hhomes.bound v hmem t (ht ▸ hincoming))

theorem emits_mapM {α : Type} {f : α → Lower Lowered} {routine : String}
    (hf : ∀ {a w l w'}, Yields (f a) w l w' → Emits w w' fun own => GivesEmitted own routine l) (as : List α)
    {w w' : Work} {ls : List Lowered} (h : Yields (as.mapM f) w ls w') :
    Emits w w' fun own => ∀ l ∈ ls, GivesEmitted own routine l := by
  induction as generalizing w ls with
  | nil =>
    obtain ⟨rfl, rfl⟩ := yields_mapM_nil.1 h
    exact (Emits.refl w).imp fun _ _ => nofun
  | cons a rest ih =>
    obtain ⟨l, w₁, ls', hl, hls, rfl⟩ := yields_mapM_cons.1 h
    exact ((hf hl).trans (ih hls)).imp fun own hcode => List.forall_mem_cons.2 hcode

theorem emitted_of_gives {routine : String} {ls : List Lowered} {cs : List Stm}
    (hls : ∀ l ∈ ls, GivesEmitted own routine l) (hcs : List.Forall₂ Lowered.GivesStm ls cs) :
    ∀ c ∈ cs, Emitted own routine c := by
  induction hcs with
  | nil => nofun
  | cons hc _ ih =>
    rw [List.forall_mem_cons] at hls ⊢
    exact ⟨hls.1 _ hc, ih hls.2⟩

theorem emitted_fold {routine : String} {ls : List Lowered} {l : Lowered} {s s' : Supply}
    (hls : ∀ l ∈ ls, GivesEmitted own routine l) (hfold : Yields (Lowered.fold ls) s l s') :
    GivesEmitted own routine l := by
  intro c hc
  obtain ⟨cs, rfl, hcs⟩ := Lowered.givesStm_fold hfold hc
  exact .chain (emitted_of_gives hls hcs)

/-! ## Statements -/

theorem givesEmitted_missing {routine : String} {k : Construct} : GivesEmitted own routine (.missing k) :=
  fun _ hc => absurd hc Lowered.not_givesStm_missing

theorem givesEmitted_effect {routine : String} {st : Stm} (h : Emitted own routine st) :
    GivesEmitted own routine (.effect st) := by
  rintro c ⟨s, s', hc⟩
  obtain ⟨rfl, -⟩ := Lowered.yields_toStm_effect.1 hc
  exact h

mutual
theorem emits_stmt (henv : env.storage.localsEscape = false) (st : Stmt) {w w' : Work} {l : Lowered}
    (h : Yields (Lower.lowerStmt env st) w l w') : Emits w w' fun own => GivesEmitted own env.println l := by
  cases st with
  | block site locals body =>
    obtain ⟨declared, w₁, run, w₂, s, b, method, hdeclared, hrun, hfold, hleave, rfl⟩ := Lower.yields_block h
    have hcontents := (emits_mapM (emits_local henv) locals hdeclared).trans (emits_stmts henv body hrun)
    have hblock := (hcontents.draw (Lowered.fold_spends _) hfold).leave hleave
    refine (hblock.noting _).imp fun own hcode => emitted_fold (fun l hl => ?_) hfold
    rcases List.mem_append.1 hl with hl | hl
    · exact hcode.1 l hl
    · exact hcode.2 l hl
  | ifThen site cond body =>
    obtain ⟨c, w₁, b, w₂, hc, hb, rfl, rfl⟩ := Lower.yields_ifThen h
    have hboth := (emits_test hc).trans (emits_stmt henv body hb)
    -- Its labels are drawn only when the piece becomes a statement, which may be much later.
    refine (hboth.noting _).imp fun own hcode st hst => ?_
    obtain ⟨s, s', hst⟩ := hst
    obtain ⟨yes, _, no, _, test, b', -, -, htest, hb', rfl⟩ := Lowered.yields_toStm_ifThen.1 hst
    obtain ⟨op, x, y, hx, hy, rfl⟩ := hcode.1 yes no test htest
    exact .ifThen hx hy (hcode.2 b' ⟨_, _, hb'⟩)
  | ifElse site cond body otherwise =>
    obtain ⟨c, w₁, b, w₂, o, w₃, hc, hb, ho, rfl, rfl⟩ := Lower.yields_ifElse h
    have hall := ((emits_test hc).trans (emits_stmt henv body hb)).trans (emits_stmt henv otherwise ho)
    refine (hall.noting _).imp fun own hcode st hst => ?_
    obtain ⟨s, s', hst⟩ := hst
    obtain ⟨yes, _, no, _, join, _, test, b', _, o', -, -, -, htest, hb', ho', rfl⟩ :=
      Lowered.yields_toStm_ifElse.1 hst
    obtain ⟨op, x, y, hx, hy, rfl⟩ := hcode.1.1 yes no test htest
    exact .ifElse hx hy (hcode.1.2 b' ⟨_, _, hb'⟩) (hcode.2 o' ⟨_, _, ho'⟩)
  | «while» site cond body =>
    obtain ⟨start, s₁, inside, s₂, exit, s₃, c, w₁, branch, b, w₂, b', s, hstart, hinside, hexit, hc, hbranch,
      hb, hb', rfl, rfl⟩ := Lower.yields_while h
    have hdrawn : Before w.supply s₃ := (labelsBetween_of_gives hstart).1.trans
      ((labelsBetween_of_gives hinside).1.trans (labelsBetween_of_gives hexit).1)
    have hlabels : Emits w { w with supply := s₃ } fun _ => True := .of_same hdrawn ⟨rfl, rfl⟩ ⟨rfl, rfl⟩
    have hall := ((hlabels.trans (emits_test hc)).trans (emits_stmt henv body hb)).draw b.toStm_spends hb'
    refine (hall.noting _).imp fun own hcode => givesEmitted_effect ?_
    obtain ⟨op, x, y, hx, hy, rfl⟩ := hcode.1.2 inside exit branch hbranch
    exact .while hx hy (hcode.2 b' ⟨_, _, hb'⟩)
  | println site value =>
    obtain ⟨v, w₁, hv, rfl, rfl⟩ := Lower.yields_println h
    refine ((emits_value hv).noting _).imp fun own hcode st hst => ?_
    obtain ⟨s, s', hst⟩ := hst
    obtain ⟨rfl, -⟩ := Lowered.yields_toStm_value.1 hst
    exact .println hcode
  | assign site x value =>
    obtain ⟨target, v, w₁, htarget, hv, rfl, rfl⟩ | ⟨k, rfl, rfl⟩ := Lower.yields_assign h
    · have hall := (emits_place htarget).trans (emits_value hv)
      exact (hall.noting _).imp fun own hcode => givesEmitted_effect (.move hcode.1 hcode.2)
    · exact ((Emits.refl w).noting _).imp fun own _ => givesEmitted_missing
  | assignAt site x index value =>
    obtain ⟨base, i, w₁, v, w₂, hbase, hi, hv, rfl, rfl⟩ | ⟨k, rfl, rfl⟩ := Lower.yields_assignAt h
    · have hall := ((emits_place hbase).trans (emits_value hi)).trans (emits_value hv)
      exact (hall.noting _).imp fun own hcode => givesEmitted_effect (.store hcode.1.1 hcode.1.2 hcode.2)
    · exact ((Emits.refl w).noting _).imp fun own _ => givesEmitted_missing

theorem emits_stmts (henv : env.storage.localsEscape = false) (stmts : List Stmt) {w w' : Work}
    {ls : List Lowered} (h : Yields (Lower.lowerStmts env stmts) w ls w') :
    Emits w w' fun own => ∀ l ∈ ls, GivesEmitted own env.println l := by
  cases stmts with
  | nil =>
    obtain ⟨rfl, rfl⟩ := Lower.yields_lowerStmts_nil.1 h
    exact (Emits.refl _).imp fun _ _ => nofun
  | cons st rest =>
    obtain ⟨l, w₁, ls', hl, hls, rfl⟩ := Lower.yields_lowerStmts_cons.1 h
    exact ((emits_stmt henv st hl).trans (emits_stmts henv rest hls)).imp fun own hcode =>
      List.forall_mem_cons.2 hcode
end

/-! ## Procedures -/

theorem emits_result {result : Option Source.Expr} {ls : List Lowered}
    (h : Yields (Lower.lowerResult env result) w ls w') :
    Emits w w' fun own => ∀ l ∈ ls, GivesEmitted own env.println l := by
  cases result with
  | none =>
    obtain ⟨rfl, rfl⟩ := yields_pure.1 h
    exact (Emits.refl w).imp fun _ _ => nofun
  | some e =>
    simp only [Lower.lowerResult, yields_bind, yields_get, yields_pure] at h
    obtain ⟨v, w₁, hv, _, _, ⟨rfl, rfl⟩, rfl, rfl⟩ := h
    have hvalue := emits_value hv
    refine ⟨hvalue.before, fun own hhomes hdrawn => ?_⟩
    obtain ⟨hhomes', hcode⟩ := hvalue.emits own hhomes hdrawn
    refine ⟨hhomes', fun l hl => ?_⟩
    cases List.mem_singleton.1 hl
    exact givesEmitted_effect (.move (ownPlace_temp hhomes'.rv) hcode)

theorem emits_body {b : Lower.Body} {l : Lowered} (henv : env.storage.localsEscape = false)
    (h : Yields (Lower.lowerBody env b) w l w') : Emits w w' fun own => GivesEmitted own env.println l := by
  obtain ⟨formals, w₁, locals, w₂, stmts, w₃, result, w₄, s, hformals, hlocals, hstmts, hresult, hfold, rfl⟩ :=
    Lower.yields_lowerBody h
  have hall := (((emits_mapM (emits_formal henv) b.formals hformals).trans
    (emits_mapM (emits_local henv) b.locals hlocals)).trans (emits_stmts henv b.stmts hstmts)).trans
    (emits_result hresult)
  refine (hall.draw (Lowered.fold_spends _) hfold).imp fun own hcode => emitted_fold (fun l hl => ?_) hfold
  simp only [List.mem_append] at hl
  rcases hl with ((hl | hl) | hl) | hl
  · exact hcode.1.1.1 l hl
  · exact hcode.1.1.2 l hl
  · exact hcode.1.2 l hl
  · exact hcode.2 l hl

theorem emits_procedure {b : Lower.Body} {body : Stm} (henv : env.storage.localsEscape = false)
    (h : Yields (Lower.lowerProcedure env b) w body w') : Emits w w' fun own => Emitted own env.println body := by
  obtain ⟨l, w₁, block, method, s, supply, hinside, hleave, hs, rfl, rfl⟩ := Lower.yields_lowerProcedure h
  have hall := (((emits_body henv hinside).leave hleave).draw l.toStm_spends hs).noting
    (.bodyLowered w₁.frame.name (w₁.frame.bracket s))
  refine hall.imp fun own hcode => .chain fun c hc => ?_
  simp only [List.mem_cons, List.not_mem_nil, or_false] at hc
  rcases hc with rfl | rfl | rfl
  · exact .label
  · exact hcode c ⟨_, _, hs⟩
  · exact .label

end Lowering
