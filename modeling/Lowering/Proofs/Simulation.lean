import Lowering.Proofs.ArrayStore
import Lowering.Proofs.Scope.Storage

/-!
# Linear code follows the source

While linear code runs, each variable that has a value is kept in the home of its declaration. A
statement of the source is followed by its code to the same variables and the same output, whatever
the number of rounds of its loops.
-/

namespace Lowering

open Lowering.Tree
open Lowering.Source (Env VarDecl Stmt)

variable {f : Frame} {vars : List (String × Nat)} {env env' : Env} {m m' : Machine} {scopes : Scopes}
  {x : String} {w : Word}

/-! ## Variables in their homes -/

/-- Each variable that has a value is kept in the home with its number. -/
def Keeps (f : Frame) (vars : List (String × Nat)) (env : Env) (m : Machine) : Prop :=
  List.Forall₂ (fun d v => d.1 = v.1 ∧ ∀ w, v.2 = some w →
    ∃ t, f.locals[d.2 - 1]? = some (.inReg t) ∧ m.temps[t]? = some w) vars env

theorem slot?_eq_lookup (scopes : Scopes) (x : String) : scopes.slot? x = scopes.flatten.lookup x := by
  induction scopes with
  | nil => rfl
  | cons scope rest ih =>
    rw [List.flatten_cons, List.lookup_append, ← ih, Scopes.slot?, List.findSome?_cons]
    cases scope.lookup x <;> rfl

namespace Keeps

theorem lookup (h : Keeps f vars env m) {v : Word} (hv : env.read x = some v) :
    ∃ slot t, vars.lookup x = some slot ∧ f.locals[slot - 1]? = some (.inReg t) ∧ m.temps[t]? = some v := by
  induction h with
  | nil => simp [Env.read] at hv
  | @cons d u vars env hhead _ ih =>
    obtain ⟨hname, hvalue⟩ := hhead
    rw [Env.read, List.lookup_cons] at hv
    rw [List.lookup_cons, hname]
    by_cases hx : x = u.1
    · simp only [hx, beq_self_eq_true] at hv ⊢
      obtain ⟨t, ht, hget⟩ := hvalue v (by simpa using hv)
      exact ⟨d.2, t, rfl, ht, hget⟩
    · simp only [beq_eq_false_iff_ne.2 hx] at hv ⊢
      exact ih hv

theorem of_homes (h : Keeps f vars env m)
    (hsame : ∀ t, .inReg t ∈ f.locals → m'.temps[t]? = m.temps[t]?) : Keeps f vars env m' := by
  refine h.imp fun d v hd => ⟨hd.1, fun w hw => ?_⟩
  obtain ⟨t, ht, hget⟩ := hd.2 w hw
  exact ⟨t, ht, (hsame t (List.mem_of_getElem? ht)).trans hget⟩

theorem insert_other (h : Keeps f vars env m) {slot : Nat} {t : Temp}
    (ht : f.locals[slot - 1]? = some (.inReg t)) (hslot : 1 ≤ slot) (hother : slot ∉ vars.map Prod.snd)
    (hpositive : ∀ d ∈ vars, 1 ≤ d.2) (hlocals : f.locals.Nodup) :
    Keeps f vars env { m with temps := m.temps.insert t w } := by
  induction h with
  | nil => exact .nil
  | @cons d v vars env hhead _ ih =>
    rw [List.map_cons, List.mem_cons, not_or] at hother
    refine .cons ⟨hhead.1, fun u hu => ?_⟩ (ih hother.2 fun d hd => hpositive d (List.mem_cons_of_mem _ hd))
    obtain ⟨t', ht', hget⟩ := hhead.2 u hu
    refine ⟨t', ht', ?_⟩
    rw [getElem?_insert_ne, hget]
    rintro rfl
    have hlt : slot - 1 < f.locals.length := (List.getElem?_eq_some_iff.1 ht).1
    have hsame := (List.getElem?_inj hlt hlocals).1 (ht.trans ht'.symm)
    have hpos := hpositive d List.mem_cons_self
    exact hother.1 (by omega)

theorem write (h : Keeps f vars env m) {slot : Nat} {t : Temp} (hwrite : env.write x w = some env')
    (hslot : vars.lookup x = some slot) (ht : f.locals[slot - 1]? = some (.inReg t))
    (hnodup : (vars.map Prod.snd).Nodup) (hpositive : ∀ d ∈ vars, 1 ≤ d.2) (hlocals : f.locals.Nodup) :
    Keeps f vars env' { m with temps := m.temps.insert t w } := by
  induction h generalizing env' with
  | nil => simp [Env.write] at hwrite
  | @cons d v vars env hhead hrest ih =>
    obtain ⟨hname, hvalue⟩ := hhead
    obtain ⟨hnew, hnodup⟩ := List.nodup_cons.1 hnodup
    have hpositive' : ∀ d ∈ vars, 1 ≤ d.2 := fun d hd => hpositive d (List.mem_cons_of_mem _ hd)
    have hpos := hpositive d List.mem_cons_self
    rw [List.lookup_cons, hname] at hslot
    unfold Env.write at hwrite
    by_cases hx : v.1 = x
    · rw [if_pos hx] at hwrite
      cases hwrite
      simp only [hx, beq_self_eq_true, Option.some.injEq] at hslot
      subst hslot
      refine .cons ⟨hname, fun u hu => ?_⟩ (insert_other hrest ht hpos hnew hpositive' hlocals)
      cases hu
      exact ⟨t, ht, Std.ExtTreeMap.getElem?_insert_self⟩
    · rw [if_neg hx] at hwrite
      obtain ⟨env'', hlater, rfl⟩ := Option.map_eq_some_iff.1 hwrite
      have hx' : (x == v.1) = false := beq_eq_false_iff_ne.2 fun heq => hx heq.symm
      simp only [hx'] at hslot
      have hmem : slot ∈ vars.map Prod.snd := by
        obtain ⟨before, after, hvars, -⟩ := List.lookup_eq_some_iff.1 hslot
        simp [hvars]
      have hhead : Keeps f [d] [v] m := .cons ⟨hname, hvalue⟩ .nil
      have hslot' : 1 ≤ slot := by
        obtain ⟨d', hd', rfl⟩ := List.mem_map.1 hmem
        exact hpositive' d' hd'
      have hother : slot ∉ [d].map Prod.snd := by
        simp only [List.map_cons, List.map_nil, List.mem_singleton]
        rintro rfl
        exact hnew hmem
      have hkept := hhead.insert_other (w := w) ht hslot' hother (by simpa using hpos) hlocals
      exact List.rel_append hkept (ih hlater hslot hnodup hpositive')

end Keeps

/-! ## Numbers of scopes -/

/-- The numbers in the scopes are different, and all of them come before `first`. -/
structure NumberedBelow (scopes : Scopes) (first : Nat) : Prop where
  positive : 1 ≤ first
  nodup : (scopes.flatten.map Prod.snd).Nodup
  below : ∀ d ∈ scopes.flatten, 1 ≤ d.2 ∧ d.2 < first

theorem map_snd_numbered (first : Nat) (ds : List VarDecl) :
    (numbered first ds).map Prod.snd = List.range' first ds.length := by
  induction ds generalizing first with
  | nil => rfl
  | cons d rest ih => simp [numbered, ih, List.range'_succ]

namespace NumberedBelow

variable {first : Nat}

theorem mono {first' : Nat} (h : NumberedBelow scopes first) (hle : first ≤ first') : NumberedBelow scopes first' :=
  ⟨h.positive.trans hle, h.nodup, fun d hd => ⟨(h.below d hd).1, (h.below d hd).2.trans_le hle⟩⟩

theorem push (h : NumberedBelow scopes first) (ds : List VarDecl) :
    NumberedBelow (numbered first ds :: scopes) (first + ds.length) := by
  have hown : ∀ d ∈ numbered first ds, first ≤ d.2 ∧ d.2 < first + ds.length := by
    intro d hd
    have hmem : d.2 ∈ (numbered first ds).map Prod.snd := List.mem_map_of_mem hd
    rw [map_snd_numbered, List.mem_range'_1] at hmem
    exact hmem
  have hfirst := h.positive
  refine ⟨by omega, ?_, fun d hd => ?_⟩
  · rw [List.flatten_cons, List.map_append, map_snd_numbered, List.nodup_append]
    refine ⟨List.nodup_range', h.nodup, fun i hi j hj heq => ?_⟩
    obtain ⟨d, hd, rfl⟩ := List.mem_map.1 hj
    have hlt := (h.below d hd).2
    rw [List.mem_range'_1] at hi
    omega
  · rcases List.mem_append.1 hd with hd | hd
    · have := hown d hd
      omega
    · have := h.below d hd
      omega

end NumberedBelow

/-! ## Expressions -/

section

variable {println : String} {e : Source.Expr} {c : Tree.Expr}

/-- The machine is where the source is: its variables are in their homes, and it can print. -/
structure Follows (println : String) (f : Frame) (scopes : Scopes) (env : Env) (m : Machine) : Prop where
  keeps : Keeps f scopes.flatten env m
  printer : println ∈ m.printers

theorem isPlace_place? (h : f.place? scopes x = some c) : IsPlace c := by
  obtain ⟨slot, -, hhome⟩ := Option.bind_eq_some_iff.1 h
  obtain ⟨a, -, rfl⟩ := Option.map_eq_some_iff.1 hhome
  exact ⟨_, a, rfl⟩

namespace Follows

theorem knows (h : Follows println f scopes env m) : Knows (f.place? scopes) f.Spare env m := by
  intro x c v hx hv
  obtain ⟨slot, t, hslot, ht, hget⟩ := h.keeps.lookup hv
  refine ⟨t, ?_, fun hspare => hspare.1 (List.mem_of_getElem? ht), hget⟩
  simp only [Frame.place?, slot?_eq_lookup, hslot, Option.bind_some, Frame.home?, ht, Option.map_some,
    Option.some.injEq] at hx
  exact hx.symm

theorem after {ts : List Temp} (h : Follows println f scopes env m) (hwrites : WritesOnly ts m m')
    (hts : ∀ t ∈ ts, f.Spare t) : Follows println f scopes env m' := by
  refine ⟨h.keeps.of_homes fun t ht => hwrites.temps t fun hmem => (hts t hmem).1 ht, ?_⟩
  rw [hwrites.same]
  exact h.printer

theorem value (h : Follows println f scopes env m) (hcode : ValueCode (f.place? scopes) f.Spare e c)
    (hw : e.value? env = some w) :
    ∃ m', Eval m c w m' ∧ Follows println f scopes env m' ∧ m'.output = m.output := by
  obtain ⟨m', heval, hwrites⟩ := hcode.evaluates (fun _ _ => isPlace_place?) hw h.knows
  refine ⟨m', heval, h.after hwrites (hcode.written_fresh fun _ _ => isPlace_place?), ?_⟩
  rw [hwrites.same]

end Follows

theorem ValueCode.fits {n : Nat} (hcode : ValueCode (f.place? scopes) f.Spare e c) (hn : c.tempBound ≤ n) :
    c.Fits n := Tree.Expr.fits_of_hasCall (hcode.hasCall fun _ _ => isPlace_place?) hn

variable {n : Nat} {yes no : Label} {test : Stm}

theorem BranchCode.takes (places : Std.ExtTreeMap Label (List Stm))
    (hcode : BranchCode (f.place? scopes) f.Spare yes no e test) (hn : test.tempBound ≤ n)
    (hw : e.value? env = some w) (h : Follows println f scopes env m) :
    ∃ m', Takes places n test.straighten m (some (if w.value ≠ 0 then yes else no)) m' ∧
      Follows println f scopes env m' ∧ m'.output = m.output := by
  cases hcode with
  | @comparison op o l r a b hop hl hr =>
    simp only [Source.Expr.value?, Option.bind_eq_bind, Option.bind_eq_some_iff] at hw
    obtain ⟨u, hu, v, hv, hw⟩ := hw
    cases (Source.Op.result?_comparison hop u v).symm.trans hw
    obtain ⟨m₁, heval, hfollows, hout⟩ := h.value hl hu
    obtain ⟨m₂, heval', hfollows', hout'⟩ := hfollows.value hr hv
    have hstep : Step m (.cjump o a b yes no) _ m₂ := .cjump heval heval'
    refine ⟨m₂, ?_, hfollows', hout'.trans hout⟩
    have hif : (if (Word.ofBool (o.holds u.value v.value)).value ≠ 0 then yes else no) =
        if o.holds u.value v.value then yes else no := by
      cases o.holds u.value v.value <;> rfl
    rw [hif]
    rw [Stm.tempBound, Nat.max_le] at hn
    exact hstep.straightened (Stm.fits_cjump.2 ⟨hl.fits hn.1, hr.fits hn.2⟩)
  | value hvalue =>
    obtain ⟨m₁, heval, hfollows, hout⟩ := h.value hvalue hw
    have hstep : Step m (.cjump .ne _ (.const 0) yes no) _ m₁ := .cjump heval .const
    refine ⟨m₁, ?_, hfollows, hout⟩
    have hif : (if w.value ≠ 0 then yes else no) =
        if RelOp.ne.holds w.value (Word.narrow 0).value then yes else no := by
      have hzero : (Word.narrow 0).value = 0 := rfl
      simp [RelOp.holds, hzero]
    rw [hif]
    rw [Stm.tempBound, Nat.max_le] at hn
    exact hstep.straightened (Stm.fits_cjump.2 ⟨hvalue.fits hn.1, Nat.zero_le _, rfl⟩)

end

/-! ## Statements -/

section

variable {println : String} {places : Std.ExtTreeMap Label (List Stm)} {n : Nat} {s : Supply}
  {out more : List Int64} {env₁ : Env} {site : Source.Site} {cond e index : Source.Expr} {body otherwise st : Stmt}
  {stmts : List Stmt} {locals : List VarDecl} {code : Fresh (List Stm)}

/-- The code leads from `m` to the variables `env'` and prints `out`. -/
def Arrives (places : Std.ExtTreeMap Label (List Stm)) (n : Nat) (println : String) (f : Frame)
    (scopes : Scopes) (code : Fresh (List Stm)) (m : Machine) (env' : Env) (out : List Int64) : Prop :=
  ∃ m', Performs places n code m m' ∧ Follows println f scopes env' m' ∧ m'.output = m.output ++ out.toArray

/-- Whatever code the statement has, it follows an execution from `env` to `env'`. -/
def FollowsStmt (places : Std.ExtTreeMap Label (List Stm)) (n : Nat) (println : String) (f : Frame)
    (env : Env) (st : Stmt) (env' : Env) (out : List Int64) : Prop :=
  ∀ ⦃c scopes first m⦄, StmtCode f println scopes first st c → NumberedBelow scopes first → c.tempBound ≤ n →
    Follows println f scopes env m → Arrives places n println f scopes c.straighten m env' out

@[inherit_doc FollowsStmt]
def FollowsAll (places : Std.ExtTreeMap Label (List Stm)) (n : Nat) (println : String) (f : Frame)
    (env : Env) (stmts : List Stmt) (env' : Env) (out : List Int64) : Prop :=
  ∀ ⦃cs scopes first m⦄, StmtsCode f println scopes first stmts cs → NumberedBelow scopes first →
    (∀ c ∈ cs, c.tempBound ≤ n) → Follows println f scopes env m →
    Arrives places n println f scopes (Stm.straightenAll cs) m env' out

theorem tempBound_ofList_le {cs : List Stm} : (Stm.ofList cs).tempBound ≤ n ↔ ∀ c ∈ cs, c.tempBound ≤ n := by
  fun_induction Stm.ofList cs with
  | case1 => simp [Stm.nop, Stm.tempBound, Expr.tempBound]
  | case2 st => simp
  | case3 st rest _ ih => simp [Stm.tempBound, ih]

theorem Frame.Within.home? {slot : Nat} {c : Tree.Expr} (h : f.Within s) (hc : f.home? slot = some c) :
    ∃ t, c = .temp t ∧ f.locals[slot - 1]? = some (.inReg t) := by
  obtain ⟨a, ha, rfl⟩ := Option.map_eq_some_iff.1 hc
  obtain ⟨t, rfl, -⟩ := h.homes a (List.mem_of_getElem? ha)
  exact ⟨t, rfl, ha⟩

theorem keeps_fresh (first : Nat) (ds : List VarDecl) : Keeps f (numbered first ds) (Env.fresh ds) m := by
  induction ds generalizing first with
  | nil => exact .nil
  | cons d rest ih => exact .cons ⟨rfl, fun w hw => nomatch hw⟩ (ih (first + 1))

theorem LocalsCode.performs {first : Nat} {cs : List Stm} (hf : f.Within s) (h : LocalsCode f first locals cs) :
    Performs places n (Stm.straightenAll cs) m m := by
  rw [LocalsCode] at h
  generalize numbered first locals = ds at h
  induction h with
  | nil => exact performs_nil
  | cons hhead _ ih =>
    obtain ⟨home, hhome, rfl⟩ := hhead
    obtain ⟨t, rfl, -⟩ := hf.home? hhome
    refine Performs.cons ?_ ih
    intro s code s' hg _
    obtain ⟨h, hgt, rfl⟩ := gives_straighten_exp.1 hg
    obtain ⟨rfl, rfl⟩ := gives_pure.1 hgt
    exact .nil fun M hM => hM

theorem followsStmt_println {w : Word} (hw : e.value? env = some w) :
    FollowsStmt places n println f env (.println site e) env [w.value] := by
  intro c scopes first m hcode hnumbered hn h
  cases hcode with
  | @println _ _ _ _ v hv =>
    obtain ⟨m₁, heval, hfollows, hout⟩ := h.value hv hw
    let m₂ : Machine := { m₁ with output := m₁.output.push w.value, calls := m₁.calls.push ⟨println, [w.value]⟩ }
    have hanswer : m₁.answer println [w.value] = (.ok 0, m₂) := by
      rw [Machine.answer, if_pos hfollows.printer]
      rfl
    have hstep : Step m (.exp (externalCall println [v])) none m₂ :=
      .exp (.call .name (.cons heval .nil) hanswer)
    have hbound : v.tempBound ≤ n := by
      simpa [Stm.tempBound, externalCall, Expr.tempBound, Expr.tempBoundAll] using hn
    have hfits : (Stm.exp (externalCall println [v])).Fits n :=
      Expr.fits_call.2 ⟨⟨Nat.zero_le _, rfl⟩, Expr.fitsAll_cons.2 ⟨hv.fits hbound, Nat.zero_le _, rfl⟩⟩
    refine ⟨m₂, (hstep.straightened hfits).performs, ⟨hfollows.keeps.of_homes fun _ _ => rfl, hfollows.printer⟩, ?_⟩
    simp [m₂, hout]

theorem followsStmt_assign {w : Word} (hf : f.Within s) (hw : e.value? env = some w)
    (hwrite : env.write x w = some env') : FollowsStmt places n println f env (.assign site x e) env' [] := by
  intro c scopes first m hcode hnumbered hn h
  cases hcode with
  | @assign _ _ _ _ _ target v htarget hv =>
    obtain ⟨slot, hslot, hhome⟩ := Option.bind_eq_some_iff.1 htarget
    obtain ⟨t, rfl, ht⟩ := hf.home? hhome
    rw [slot?_eq_lookup] at hslot
    obtain ⟨m₁, heval, hfollows, hout⟩ := h.value hv hw
    have hstep : Step m (.move (.temp t) v) none _ := .move (.temp heval)
    rw [Stm.tempBound, Nat.max_le] at hn
    have hfits : (Stm.move (.temp t) v).Fits n := Stm.fits_move.2 ⟨.inl rfl, ⟨hn.1, rfl⟩, hv.fits hn.2⟩
    refine ⟨_, (hstep.straightened hfits).performs, ⟨?_, hfollows.printer⟩, by simp [hout]⟩
    exact hfollows.keeps.write hwrite hslot ht hnumbered.nodup (fun d hd => (hnumbered.below d hd).1) hf.nodup

theorem followsStmt_assignAt {i w : Word} (hi : index.value? env = some i)
    (hw : e.value? env = some w) (hx : (env.read x).isSome = true) :
    FollowsStmt places n println f env (.assignAt site x index e) env [] := by
  intro c scopes first m hcode hnumbered hn h
  cases hcode with
  | @assignAt _ _ _ _ _ _ base ci cv hbase hci hcv =>
    obtain ⟨a, ha⟩ := Option.isSome_iff_exists.1 hx
    obtain ⟨t, rfl, -, hget⟩ := h.knows x base a hbase ha
    obtain ⟨m₁, hindex, hfollows₁, hout₁⟩ := h.value hci hi
    obtain ⟨m₂, hvalue, hfollows₂, hout₂⟩ := hfollows₁.value hcv hw
    simp only [Stm.tempBound, Expr.tempBound, Nat.max_le] at hn
    have haddress : Eval m (.binOp .plus (.temp t) ci) _ m₁ := .binOp (.temp hget) hindex
    have hplaces : ∀ y d, f.place? scopes y = some d → IsPlace d := fun _ _ => isPlace_place?
    have hfits : (Tree.Expr.binOp .plus (.temp t) ci).Fits n :=
      Expr.fits_binOp.2 ⟨⟨hn.1.1, rfl⟩, hci.fits hn.1.2⟩
    have hhoisted : Computes places n _ m _ m₁ := haddress.hoisted hfits
    have hstore := Computes.store hhoisted (hvalue.hoisted (hcv.fits hn.2)) cv.hoist_advances
      cv.hoist_marks (hcv.hasCall hplaces) (hcv.hoistsNothing hplaces)
    refine ⟨_, hstore, ⟨hfollows₂.keeps.of_homes fun _ _ => rfl, hfollows₂.printer⟩, ?_⟩
    simp [hout₂, hout₁]

theorem followsStmt_block {inner : Env} (hf : f.Within s)
    (hbody : FollowsAll places n println f (Env.fresh locals ++ env) stmts (inner ++ env') out)
    (hinner : inner.length = locals.length) :
    FollowsStmt places n println f env (.block site locals stmts) env' out := by
  intro c scopes first m hcode hnumbered hn h
  cases hcode with
  | @block _ _ _ _ _ ds cs hlocals hstmts =>
    have hbound : ∀ c ∈ cs, c.tempBound ≤ n := fun c hc => tempBound_ofList_le.1 hn c (List.mem_append_right _ hc)
    have hfresh : Keeps f (numbered first locals) (Env.fresh locals) m := keeps_fresh first locals
    obtain ⟨m', hperforms, hfollows, hout⟩ := hbody hstmts (hnumbered.push locals) hbound
      ⟨List.rel_append hfresh h.keeps, h.printer⟩
    refine ⟨m', performs_ofList.2 ((hlocals.performs hf).append hperforms), ⟨?_, hfollows.printer⟩, hout⟩
    have houter := List.forall₂_drop locals.length hfollows.keeps
    rwa [List.flatten_cons, List.drop_left' (by simpa using congrArg List.length (map_snd_numbered first locals)),
      List.drop_left' hinner] at houter

theorem takes_label {l : Label} : Takes places n (Stm.label l).straighten m none m :=
  Step.label.straightened ⟨Nat.zero_le _, rfl⟩

theorem takes_jumpTo {l : Label} : Takes places n (Stm.jumpTo l).straighten m (some l) m :=
  (Step.jump .name).straightened ⟨Nat.zero_le _, rfl⟩

theorem followsStmt_ifTrue {w : Word} (hw : cond.value? env = some w) (hne : w.value ≠ 0)
    (hbody : FollowsStmt places n println f env body env' out) :
    FollowsStmt places n println f env (.ifThen site cond body) env' out := by
  intro c scopes first m hcode hnumbered hn h
  cases hcode with
  | @ifThen _ _ _ _ _ test b yes no htest hb =>
    have hbound := tempBound_ofList_le.1 hn
    obtain ⟨m₁, htakes, hfollows₁, hout₁⟩ := htest.takes places (hbound _ (by simp)) hw h
    obtain ⟨m₂, hperforms, hfollows₂, hout₂⟩ := hbody hb hnumbered (hbound _ (by simp)) hfollows₁
    rw [if_pos hne] at htakes
    refine ⟨m₂, performs_ofList.2 (leadsFrom_iff_performs.1 ?_), hfollows₂, by rw [hout₂, hout₁]⟩
    refine .goto htakes (show _ = [test] ++ _ from rfl) ?_
    exact .next takes_label (.next hperforms.takes (.next takes_label .done))

theorem followsStmt_ifFalse {w : Word} (hw : cond.value? env = some w) (hzero : w.value = 0) :
    FollowsStmt places n println f env (.ifThen site cond body) env [] := by
  intro c scopes first m hcode hnumbered hn h
  cases hcode with
  | @ifThen _ _ _ _ _ test b yes no htest hb =>
    have hbound := tempBound_ofList_le.1 hn
    obtain ⟨m₁, htakes, hfollows₁, hout₁⟩ := htest.takes places (hbound _ (by simp)) hw h
    rw [if_neg (not_not.2 hzero)] at htakes
    refine ⟨m₁, performs_ofList.2 (leadsFrom_iff_performs.1 ?_), hfollows₁, by simp [hout₁]⟩
    exact .goto htakes (show _ = [test, .label yes, b] ++ _ from rfl) (.next takes_label .done)

theorem followsStmt_elseTrue {w : Word} (hw : cond.value? env = some w) (hne : w.value ≠ 0)
    (hbody : FollowsStmt places n println f env body env' out) :
    FollowsStmt places n println f env (.ifElse site cond body otherwise) env' out := by
  intro c scopes first m hcode hnumbered hn h
  cases hcode with
  | @ifElse _ _ _ _ _ _ test b o yes no join htest hb ho =>
    have hbound := tempBound_ofList_le.1 hn
    obtain ⟨m₁, htakes, hfollows₁, hout₁⟩ := htest.takes places (hbound _ (by simp)) hw h
    obtain ⟨m₂, hperforms, hfollows₂, hout₂⟩ := hbody hb hnumbered (hbound _ (by simp)) hfollows₁
    rw [if_pos hne] at htakes
    refine ⟨m₂, performs_ofList.2 (leadsFrom_iff_performs.1 ?_), hfollows₂, by rw [hout₂, hout₁]⟩
    refine .goto htakes (show _ = [test] ++ _ from rfl) (.next takes_label (.next hperforms.takes ?_))
    exact .goto takes_jumpTo (show _ = [test, .label yes, b, .jumpTo join, .label no, o] ++ _ from rfl)
      (.next takes_label .done)

theorem followsStmt_elseFalse {w : Word} (hw : cond.value? env = some w) (hzero : w.value = 0)
    (hotherwise : FollowsStmt places n println f env otherwise env' out) :
    FollowsStmt places n println f env (.ifElse site cond body otherwise) env' out := by
  intro c scopes first m hcode hnumbered hn h
  cases hcode with
  | @ifElse _ _ _ _ _ _ test b o yes no join htest hb ho =>
    have hbound := tempBound_ofList_le.1 hn
    have hnumbered' := hnumbered.mono (Nat.le_add_right first body.declarations.length)
    obtain ⟨m₁, htakes, hfollows₁, hout₁⟩ := htest.takes places (hbound _ (by simp)) hw h
    obtain ⟨m₂, hperforms, hfollows₂, hout₂⟩ := hotherwise ho hnumbered' (hbound _ (by simp)) hfollows₁
    rw [if_neg (not_not.2 hzero)] at htakes
    refine ⟨m₂, performs_ofList.2 (leadsFrom_iff_performs.1 ?_), hfollows₂, by rw [hout₂, hout₁]⟩
    refine .goto htakes (show _ = [test, .label yes, b, .jumpTo join] ++ _ from rfl) ?_
    exact .next takes_label (.next hperforms.takes (.next takes_label .done))

theorem followsStmt_whileFalse {w : Word} (hw : cond.value? env = some w) (hzero : w.value = 0) :
    FollowsStmt places n println f env (.while site cond body) env [] := by
  intro c scopes first m hcode hnumbered hn h
  cases hcode with
  | @«while» _ _ _ _ _ test b start inside exit htest hb =>
    have hbound := tempBound_ofList_le.1 hn
    obtain ⟨m₁, htakes, hfollows₁, hout₁⟩ := htest.takes places (hbound _ (by simp)) hw h
    rw [if_neg (not_not.2 hzero)] at htakes
    refine ⟨m₁, performs_ofList.2 (leadsFrom_iff_performs.1 ?_), hfollows₁, by simp [hout₁]⟩
    refine .next takes_label (.goto htakes (show _ = [_, _, _, b, .jumpTo start] ++ _ from rfl) ?_)
    exact .next takes_label .done

theorem followsStmt_whileTrue {w : Word} (hw : cond.value? env = some w) (hne : w.value ≠ 0)
    (hbody : FollowsStmt places n println f env body env₁ out)
    (hagain : FollowsStmt places n println f env₁ (.while site cond body) env' more) :
    FollowsStmt places n println f env (.while site cond body) env' (out ++ more) := by
  intro c scopes first m hcode hnumbered hn h
  have hloop := hcode
  cases hcode with
  | @«while» _ _ _ _ _ test b start inside exit htest hb =>
    have hbound := tempBound_ofList_le.1 hn
    obtain ⟨m₁, htakes, hfollows₁, hout₁⟩ := htest.takes places (hbound _ (by simp)) hw h
    obtain ⟨m₂, hperforms, hfollows₂, hout₂⟩ := hbody hb hnumbered (hbound _ (by simp)) hfollows₁
    obtain ⟨m₃, hrounds, hfollows₃, hout₃⟩ := hagain hloop hnumbered hn hfollows₂
    rw [if_pos hne] at htakes
    refine ⟨m₃, performs_ofList.2 (leadsFrom_iff_performs.1 ?_), hfollows₃, by simp [hout₃, hout₂, hout₁]⟩
    refine .next takes_label (.goto htakes (show _ = [.label start, test] ++ _ from rfl) ?_)
    refine .next takes_label (.next hperforms.takes (.goto takes_jumpTo (show _ = [] ++ _ from rfl) ?_))
    exact leadsFrom_iff_performs.2 (performs_ofList.1 hrounds)

theorem followsAll_nil : FollowsAll places n println f env [] env [] := by
  intro cs scopes first m hcode hnumbered hn h
  cases hcode
  exact ⟨m, performs_nil, h, by simp⟩

theorem followsAll_cons (hst : FollowsStmt places n println f env st env₁ out)
    (hrest : FollowsAll places n println f env₁ stmts env' more) :
    FollowsAll places n println f env (st :: stmts) env' (out ++ more) := by
  intro cs scopes first m hcode hnumbered hn h
  cases hcode with
  | @cons _ _ _ _ c cs hc hcs =>
    have hnumbered' := hnumbered.mono (Nat.le_add_right first st.declarations.length)
    obtain ⟨m₁, hperforms, hfollows₁, hout₁⟩ := hst hc hnumbered (hn c List.mem_cons_self) h
    obtain ⟨m₂, hperforms', hfollows₂, hout₂⟩ :=
      hrest hcs hnumbered' (fun d hd => hn d (List.mem_cons_of_mem _ hd)) hfollows₁
    exact ⟨m₂, hperforms.cons hperforms', hfollows₂, by simp [hout₂, hout₁]⟩

end

/-! ## Executions -/

section

variable {println : String} {places : Std.ExtTreeMap Label (List Stm)} {n : Nat} {s : Supply}

-- The induction is on the execution, so a loop costs one step for each round.
mutual
theorem Source.Exec.followed (hf : f.Within s) : ∀ {env : Env} {st : Stmt} {env' : Env} {out : List Int64},
    Source.Exec true env st env' out → FollowsStmt places n println f env st env' out
  | _, _, _, _, .block hbody hinner => followsStmt_block hf (hbody.followed hf) hinner
  | _, _, _, _, .ifTrue hw hne hbody => followsStmt_ifTrue hw hne (hbody.followed hf)
  | _, _, _, _, .ifFalse hw hzero => followsStmt_ifFalse hw hzero
  | _, _, _, _, .elseTrue hw hne hbody => followsStmt_elseTrue hw hne (hbody.followed hf)
  | _, _, _, _, .elseFalse hw hzero hotherwise => followsStmt_elseFalse hw hzero (hotherwise.followed hf)
  | _, _, _, _, .whileTrue hw hne hbody hagain =>
    followsStmt_whileTrue hw hne (hbody.followed hf) (hagain.followed hf)
  | _, _, _, _, .whileFalse hw hzero => followsStmt_whileFalse hw hzero
  | _, _, _, _, .println hw => followsStmt_println hw
  | _, _, _, _, .assign hw hwrite => followsStmt_assign hf hw hwrite
  | _, _, _, _, .assignAt hi hw hx => followsStmt_assignAt hi hw (hx rfl)

theorem Source.ExecAll.followed (hf : f.Within s) : ∀ {env : Env} {stmts : List Stmt} {env' : Env}
    {out : List Int64}, Source.ExecAll true env stmts env' out → FollowsAll places n println f env stmts env' out
  | _, _, _, _, .nil => followsAll_nil
  | _, _, _, _, .cons hst hrest => followsAll_cons (hst.followed hf) (hrest.followed hf)
end

end

end Lowering
