import Lowering.Activation
import Lowering.Proofs.Scoping
import Lowering.Proofs.Simulation

/-!
# Lowering is correct

A procedure finds its arguments in memory, moves them to their homes, and from there on its code
follows the source. The main statement says this for every procedure of every program that is
declared without a report and lowered.
-/

namespace Lowering

open Lowering.Tree
open Lowering.Source (Env VarDecl Stmt Program)

/-! ## Arguments in memory -/

theorem Word.value_combine_plus {fp : Int64} {offset : Int32} (hlow : 0 ≤ offset.toInt)
    (hhigh : fp.toInt + offset.toInt ≤ Int32.maxValue.toInt) :
    (Word.combine .plus (.ofValue fp) (.narrow offset)).value = fp + offset.toInt64 := by
  unfold Word.ofValue
  split
  next hnarrow =>
    simp only [Word.combine, BinOp.apply, Word.value, hnarrow]
    have hfp : -2147483648 ≤ fp.toInt := by
      rw [← hnarrow, Int32.toInt_toInt64]
      exact fp.toInt32.le_toInt
    have hmax : Int32.maxValue.toInt = 2147483647 := rfl
    have hsum : (fp + offset.toInt64).toInt = fp.toInt + offset.toInt := by
      rw [Int64.toInt_add, Int32.toInt_toInt64]
      exact Int.bmod_eq_of_le (by omega) (by omega)
    rw [← Int64.toInt_inj, Int32.toInt_toInt64, Int64.toInt_toInt32, hsum]
    exact Int.bmod_eq_of_le (by omega) (by omega)
  next => rfl

namespace Machine

variable {fp : Int64} {offset : Int32}

theorem activated_eq (fp : Int64) (ps : List (Access × Int64)) (m : Machine) :
    ps.foldl (passArgument fp) m = { m with memory := (ps.foldl (passArgument fp) m).memory } := by
  induction ps generalizing m with
  | nil => rfl
  | cons p rest ih =>
    obtain ⟨_ | _, _⟩ := p
    · rw [List.foldl_cons, ih]
      rfl
    · exact ih m

theorem memory_foldl_passArgument (ps : List (Access × Int64)) (m : Machine)
    (h : .inFrame offset ∉ ps.map Prod.fst) :
    (ps.foldl (passArgument fp) m).memory[fp + offset.toInt64]? = m.memory[fp + offset.toInt64]? := by
  induction ps generalizing m with
  | nil => rfl
  | cons p rest ih =>
    rw [List.map_cons, List.mem_cons, not_or] at h
    rw [List.foldl_cons, ih _ h.2]
    obtain ⟨other | t, v⟩ := p
    · have hne : fp + other.toInt64 ≠ fp + offset.toInt64 := by
        intro heq
        have hsame := congrArg Int64.toInt ((Int64.add_right_inj fp).1 heq)
        rw [Int32.toInt_toInt64, Int32.toInt_toInt64] at hsame
        exact h.1 (congrArg Access.inFrame (Int32.toInt_inj.1 hsame).symm)
      simp only [passArgument, store]
      rw [Std.ExtTreeMap.getElem?_insert]
      simp [hne]
    · rfl

theorem memory_of_passed {ps : List (Access × Int64)} (m : Machine) {v : Int64}
    (hnodup : (ps.map Prod.fst).Nodup) (h : (.inFrame offset, v) ∈ ps) :
    (ps.foldl (passArgument fp) m).memory[fp + offset.toInt64]? = some (Word.ofValue v) := by
  induction ps generalizing m with
  | nil => cases h
  | cons p rest ih =>
    rw [List.map_cons, List.nodup_cons] at hnodup
    rw [List.foldl_cons]
    rcases List.mem_cons.1 h with rfl | h
    · rw [memory_foldl_passArgument rest _ hnodup.1]
      exact Std.ExtTreeMap.getElem?_insert_self
    · exact ih _ hnodup.2 h

end Machine

/-! ## Formals move to their homes -/

section

variable {f : Frame} {s : Supply} {m : Machine} {places : Std.ExtTreeMap Label (List Stm)} {n : Nat}

theorem Frame.slot_inj {i j : Nat} (hi : 4 * i ≤ Int32.maxValue.toInt.toNat)
    (hj : 4 * j ≤ Int32.maxValue.toInt.toNat) (h : Frame.slot i = Frame.slot j) : i = j := by
  have hmax : Int32.maxValue.toInt.toNat = 2147483647 := rfl
  have hoffset := congrArg Int32.toInt (Access.inFrame.inj h)
  simp only [Frame.wordSize] at hoffset
  rw [Int32.toInt_ofNat_of_lt (by omega), Int32.toInt_ofNat_of_lt (by omega)] at hoffset
  omega

theorem takes_formal {t : Temp} {offset : Int32} {a v : Word} (hn : (Stm.exp (.eseq (.move (.temp t)
      (.mem (.binOp .plus (.temp f.fp) (.const offset)))) (.temp t))).tempBound ≤ n)
    (hfp : m.temps[f.fp]? = some a) (hv : m.loadWord (Word.combine .plus a (.narrow offset)).value = v) :
    Takes places n (Stm.exp (.eseq (.move (.temp t) (.mem (.binOp .plus (.temp f.fp) (.const offset))))
      (.temp t))).straighten m none { m with temps := m.temps.insert t v } := by
  have hread : Eval m (.mem (.binOp .plus (.temp f.fp) (.const offset))) v m := by
    rw [← hv]
    exact .mem (.binOp (.temp hfp) .const)
  have hmove : Step m (.move (.temp t) (.mem (.binOp .plus (.temp f.fp) (.const offset)))) none _ :=
    .move (.temp hread)
  have hhome : Eval { m with temps := m.temps.insert t v } (.temp t) v _ :=
    .temp Std.ExtTreeMap.getElem?_insert_self
  exact (Step.exp (.eseq (.next hmove .done) hhome)).straightened ⟨hn, rfl⟩

/-- Each formal comes in where its argument was stored. -/
def Arrived (f : Frame) (a : Word) (m : Machine) : List (String × Nat) → List Word → Prop :=
  List.Forall₂ fun d v => ∃ offset, f.formals[d.2 - 1]? = some (.inFrame offset) ∧
    m.loadWord (Word.combine .plus a (.narrow offset)).value = v

theorem FormalsCode.performs {ds : List VarDecl} {first : Nat} {cs : List Stm} {args : List Word} {a : Word}
    (hf : f.Within s) (h : FormalsCode f first ds cs) (hfirst : 1 ≤ first) (hn : ∀ c ∈ cs, c.tempBound ≤ n)
    (hargs : Arrived f a m (numbered first ds) args) (hfp : m.temps[f.fp]? = some a) :
    ∃ m', Performs places n (Stm.straightenAll cs) m m' ∧
      Keeps f (numbered first ds) ((ds.map (·.name.val)).zip (args.map some)) m' ∧
      m' = { m with temps := m'.temps } ∧
      ∀ t, .inReg t ∉ f.locals.drop (first - 1) → m'.temps[t]? = m.temps[t]? := by
  induction ds generalizing first cs args m with
  | nil =>
    cases h
    exact ⟨m, performs_nil, .nil, rfl, fun _ _ => rfl⟩
  | cons d rest ih =>
    cases h with
    | @cons _ c _ cs hc hcs =>
      cases hargs with
      | @cons _ v _ args hv hargs =>
        obtain ⟨home, incoming, hhome, hincoming, rfl⟩ := hc
        obtain ⟨t, rfl, ht⟩ := hf.home? hhome
        obtain ⟨offset, hoffset, hload⟩ := hv
        cases hincoming.symm.trans hoffset
        have htakes : Takes places n _ m none _ := takes_formal (hn _ List.mem_cons_self) hfp hload
        have hdrop : f.locals.drop (first - 1) = .inReg t :: f.locals.drop (first + 1 - 1) := by
          have hlt := (List.getElem?_eq_some_iff.1 ht).1
          rw [List.drop_eq_getElem_cons hlt, (List.getElem?_eq_some_iff.1 ht).2]
          congr 2
          simp only
          omega
        have hlater : .inReg t ∉ f.locals.drop (first + 1 - 1) := by
          have hnodup := hf.nodup.sublist (List.drop_sublist (first - 1) f.locals)
          rw [hdrop] at hnodup
          exact (List.nodup_cons.1 hnodup).1
        have hfp' : t ≠ f.fp := by
          rintro rfl
          exact hf.fp.2 (List.mem_of_getElem? ht)
        obtain ⟨m', hperforms, hkeeps, hsame, hothers⟩ := ih (m := { m with temps := m.temps.insert t v }) hcs
          (by omega) (fun c hc => hn c (List.mem_cons_of_mem _ hc)) hargs
          ((getElem?_insert_ne hfp' _ v).trans hfp)
        refine ⟨m', htakes.performs.cons hperforms, .cons ⟨rfl, fun w hw => ?_⟩ hkeeps, hsame, fun u hu => ?_⟩
        · cases hw
          exact ⟨t, ht, (hothers t hlater).trans Std.ExtTreeMap.getElem?_insert_self⟩
        · rw [hdrop, List.mem_cons, not_or] at hu
          rw [hothers u hu.2]
          refine getElem?_insert_ne ?_ _ v
          rintro rfl
          exact hu.1 rfl

/-! ## Bodies -/

variable {println : String} {scopes : Scopes} {env : Env} {cs : List Stm} {w : Word} {b : Lower.Body}

theorem performs_result {e : Source.Expr} (h : ResultCode f scopes (some e) cs)
    (hn : ∀ c ∈ cs, c.tempBound ≤ n) (hfollows : Follows println f scopes env m)
    (hw : e.value? env = some w) :
    ∃ m', Performs places n (Stm.straightenAll cs) m m' ∧ m'.output = m.output ∧
      f.rv.index < n ∧ m'.temps[f.rv]? = some w := by
  cases h with
  | @some _ v hv =>
    obtain ⟨m₁, heval, -, hout⟩ := hfollows.value hv hw
    have hbound := hn _ (List.mem_singleton_self _)
    rw [Stm.tempBound, Nat.max_le] at hbound
    have hrv : (Tree.Expr.temp f.rv).Fits n := ⟨hbound.1, rfl⟩
    have hstep : Step m (.move (.temp f.rv) v) none _ := .move (.temp heval)
    have htakes : Takes places n _ m none _ := hstep.straightened (Stm.fits_move.2 ⟨.inl rfl, hrv, hv.fits hbound.2⟩)
    exact ⟨_, htakes.performs.cons performs_nil, hout, Expr.fits_temp.1 hrv,
      Std.ExtTreeMap.getElem?_insert_self⟩

theorem Lower.Body.numberedBelow_scopes (b : Lower.Body) :
    NumberedBelow b.scopes (b.formals.length + 1 + b.locals.length) := by
  have hnone : NumberedBelow [] 1 := ⟨le_rfl, .nil, fun d hd => nomatch hd⟩
  have hformals := hnone.push b.formals
  rw [Nat.add_comm] at hformals
  exact hformals.push b.locals

theorem BodyCode.performs {c : Stm} {a : Word} {args : List Word} {result : Option Word} {out : List Int64}
    (hf : f.Within s) (hcode : BodyCode f println b c) (hn : c.tempBound ≤ n)
    (hargs : Arrived f a m (numbered 1 b.formals) args) (hfp : m.temps[f.fp]? = some a)
    (hprinter : println ∈ m.printers) (hexec : b.Executes true args result out) :
    ∃ m', Performs places n c.straighten m m' ∧ m'.output = m.output ++ out.toArray ∧
      ∀ w, result = some w → f.rv.index < n ∧ m'.temps[f.rv]? = some w := by
  cases hcode with
  | @mk formals locals stmts rs hformals hlocals hstmts hresult =>
    have hinner : (Stm.ofList (formals ++ locals ++ stmts ++ rs)).tempBound ≤ n :=
      tempBound_ofList_le.1 hn _ (by simp)
    have hpart : ∀ ds : List Stm, (∀ d ∈ ds, d ∈ formals ++ locals ++ stmts ++ rs) → ∀ d ∈ ds, d.tempBound ≤ n :=
      fun ds hds d hd => tempBound_ofList_le.1 hinner d (hds d hd)
    obtain ⟨m₁, hperforms₁, hkeeps, hsame, -⟩ : ∃ m₁, Performs places n _ m m₁ ∧ _ :=
      hformals.performs hf le_rfl (hpart _ fun d hd => by simp [hd]) hargs hfp
    have hfresh : Keeps f (numbered (b.formals.length + 1) b.locals) (Env.fresh b.locals) m₁ := keeps_fresh _ _
    have hstart : Follows println f b.scopes (b.start args) m₁ := by
      refine ⟨?_, by rw [hsame]; exact hprinter⟩
      have hflat : b.scopes.flatten = numbered (b.formals.length + 1) b.locals ++ numbered 1 b.formals := by
        simp [Lower.Body.scopes]
      rw [hflat]
      exact List.rel_append hfresh hkeeps
    -- the labels around the body come to nothing
    have hbracket : ∀ {m'}, Performs places n (Stm.straightenAll (formals ++ locals ++ stmts ++ rs)) m m' →
        Performs places n (f.bracket (.ofList (formals ++ locals ++ stmts ++ rs))).straighten m m' := fun h =>
      performs_ofList.2 (takes_label.performs.cons
        ((performs_ofList.2 h).cons (takes_label.performs.cons performs_nil)))
    have hentry := hperforms₁.append (hlocals.performs hf)
    have hout₁ : m₁.output = m.output := by rw [hsame]
    have hfollowed : ∀ {env out}, Source.ExecAll true (b.start args) b.stmts env out →
        Arrives places n println f b.scopes (Stm.straightenAll stmts) m₁ env out := fun h =>
      h.followed hf hstmts b.numberedBelow_scopes (hpart _ fun d hd => by simp [hd]) hstart
    cases hexec with
    | plain hnone hall =>
      obtain ⟨m₂, hperforms₂, -, hout₂⟩ := hfollowed hall
      rw [hnone] at hresult
      cases hresult
      exact ⟨m₂, hbracket ((hentry.append hperforms₂).append performs_nil), by rw [hout₂, hout₁], nofun⟩
    | result hsome hall hw =>
      obtain ⟨m₂, hperforms₂, hfollows₂, hout₂⟩ := hfollowed hall
      rw [hsome] at hresult
      obtain ⟨m₃, hperforms₃, hout₃, hrv⟩ := performs_result hresult (hpart _ fun d hd => by simp [hd]) hfollows₂ hw
      refine ⟨m₃, hbracket ((hentry.append hperforms₂).append hperforms₃), by rw [hout₃, hout₂, hout₁], ?_⟩
      rintro _ ⟨⟩
      exact hrv

/-! ## Procedures -/

theorem nodup_slots {k : Nat} (h : 4 * k ≤ Int32.maxValue.toInt) :
    ((List.range k).map fun i => Frame.slot (i + 1)).Nodup := by
  have hmax : Int32.maxValue.toInt = 2147483647 := rfl
  refine List.Nodup.map_on (fun i hi j hj heq => ?_) List.nodup_range
  rw [List.mem_range] at hi hj
  exact Nat.succ_inj.1 (Frame.slot_inj (by omega) (by omega) heq)

theorem Machine.arrived_activate (m : Machine) {fp : Int64} {args : List Int64} {ds : List VarDecl}
    (hformals : f.formals = (List.range ds.length).map fun i => Frame.slot (i + 1))
    (hlength : args.length = ds.length) (hfp : fp.toInt + 4 * ds.length ≤ Int32.maxValue.toInt)
    (hoffsets : 4 * ds.length ≤ Int32.maxValue.toInt) :
    Arrived f (.ofValue fp) (m.activate f fp args) (numbered 1 ds) (args.map Word.ofValue) := by
  have hmax : Int32.maxValue.toInt = 2147483647 := rfl
  have hnodup : ((f.formals.zip args).map Prod.fst).Nodup := by
    rw [List.map_fst_zip (by simp [hformals, hlength]), hformals]
    exact nodup_slots hoffsets
  have hnumbers : (numbered 1 ds).map Prod.snd = List.range' 1 ds.length := map_snd_numbered 1 ds
  have hcount : (numbered 1 ds).length = ds.length := by simpa using congrArg List.length hnumbers
  refine List.forall₂_iff_get.2 ⟨by simp [hcount, hlength], fun i hi hi' => ?_⟩
  have hlt : i < ds.length := hcount ▸ hi
  have hnumber : ((numbered 1 ds).get ⟨i, hi⟩).2 - 1 = i := by
    have := congrArg (·[i]?) hnumbers
    simp only [List.getElem?_map, List.getElem?_eq_getElem hi, List.getElem?_range' hlt, Option.map_some,
      Option.some.injEq] at this
    rw [List.get_eq_getElem, this]
    omega
  have hslot : f.formals[i]? = some (.inFrame (Int32.ofNat ((i + 1) * 4))) := by
    rw [hformals, List.getElem?_map, List.getElem?_range hlt]
    rfl
  have hoffset : (Int32.ofNat ((i + 1) * 4)).toInt = (i + 1) * 4 := by
    rw [Int32.toInt_ofNat_of_lt (by omega)]
    push_cast
    rfl
  refine ⟨_, by rw [hnumber, hslot], ?_⟩
  have hi'' : i < args.length := hlength ▸ hlt
  have hmem : (.inFrame (Int32.ofNat ((i + 1) * 4)), args[i]) ∈ f.formals.zip args := by
    refine List.mem_of_getElem? (i := i) ?_
    rw [List.getElem?_zip_eq_some]
    exact ⟨hslot, List.getElem?_eq_getElem hi''⟩
  rw [Word.value_combine_plus (by omega) (by omega), Machine.loadWord, Machine.activate,
    Machine.memory_of_passed _ hnodup hmem]
  simp

theorem Compiled.run_linearized {q : Procedure} {method : Method} {g : Fragment}
    (hcompiled : Compiled println q method g) {m : Machine} (hprinter : println ∈ m.printers) {fp : Int64}
    {args : List Int64} (hlength : args.length = q.body.formals.length)
    (hfp : fp.toInt + 4 * q.body.formals.length ≤ Int32.maxValue.toInt)
    (hoffsets : 4 * q.body.formals.length ≤ Int32.maxValue.toInt) {result : Option Word} {out : List Int64}
    (hexec : q.body.Executes true (args.map Word.ofValue) result out) :
    ∃ enough, ∀ limit, enough ≤ limit → ∃ steps M,
      ((m.activate g.frame fp args).withLimit limit).run g.linearized = (.ok steps, M) ∧
        M.output = m.output ++ out.toArray ∧ ∀ w, result = some w → M.temps[g.frame.rv]? = some w := by
  obtain ⟨s, hwithin⟩ := hcompiled.within
  have hactive := Machine.activated_eq fp (g.frame.formals.zip args) (m.setTemp g.frame.fp fp)
  have hfpTemp : (m.activate g.frame fp args).temps[g.frame.fp]? = some (.ofValue fp) := by
    rw [Machine.activate, hactive]
    exact Std.ExtTreeMap.getElem?_insert_self
  have hprinter' : println ∈ (m.activate g.frame fp args).printers := by
    rw [Machine.activate, hactive]
    exact hprinter
  have houtput : (m.activate g.frame fp args).output = m.output := by
    rw [Machine.activate, hactive]
    rfl
  obtain ⟨m', hperforms, hout, hrv⟩ := hcompiled.code.performs hwithin le_rfl
    (m.arrived_activate hcompiled.formals hlength hfp hoffsets) hfpTemp hprinter' hexec
  obtain ⟨enough, hrun⟩ := g.body.run_linearize_of_performs hcompiled.labels hperforms
  refine ⟨enough, fun limit hlimit => ?_⟩
  obtain ⟨steps, M, hsteps, hM⟩ := hrun limit hlimit
  refine ⟨steps, M, hsteps, by rw [hM.output, hout, houtput], fun w hw => ?_⟩
  obtain ⟨hbelow, hvalue⟩ := hrv w hw
  rw [hM.temps _ hbelow, hvalue]

end

/-- Every procedure of a program does in linear code what it does in the source. -/
theorem lower_correct (p : Program) (options : Options) (fs : List Fragment) (hdeclare : (declare p).2 = [])
    (hlower : (lower p (declare p).1 options).1 = .ok fs) :
    List.Forall₂ (fun q f => ∀ (m : Machine) (fp : Int64) (args : List Int64) (result : Option Word)
      (out : List Int64), options.linkage.linkName .println ∈ m.printers →
      args.length = q.body.formals.length →
      fp.toInt + 4 * q.body.formals.length ≤ Int32.maxValue.toInt →
      4 * q.body.formals.length ≤ Int32.maxValue.toInt →
      q.body.Executes true (args.map Word.ofValue) result out →
      ∃ enough, ∀ limit, enough ≤ limit → ∃ steps M,
        ((m.activate f.frame fp args).withLimit limit).run f.linearized = (.ok steps, M) ∧
          M.output = m.output ++ out.toArray ∧ ∀ w, result = some w → M.temps[f.frame.rv]? = some w)
      p.procedures fs := by
  refine (lower_compiles hdeclare hlower).imp fun q f hqf => ?_
  obtain ⟨method, -, hcompiled⟩ := hqf
  intro m fp args result out hprinter hlength hfp hoffsets hexec
  exact hcompiled.run_linearized hprinter hlength hfp hoffsets hexec

/-! ## A loop, and an array without a value -/

/-- One round of the loop in `countUp`. -/
def countUpRound : Stmt :=
  .block {} [intDecl "n"] [
    .assign {} "n" (.binary .add (.ident "i") (.literal "2147483648L")), .println {} (.ident "n"),
    .assign {} "i" (.binary .add (.ident "i") (.literal "1"))]

/-- Counts up to its argument and prints sums that need 64 bits. The formal is hidden in the loop. -/
def countUp : Source.MethodDecl where
  returns := { val := .boolean }
  name := { val := "run" }
  formals := [intDecl "n"]
  locals := [intDecl "i"]
  body := [.assign {} "i" (.literal "0"), .while {} (.binary .less (.ident "i") (.ident "n")) countUpRound]
  result := .not (.binary .equals (.ident "i") (.ident "n"))

def counting : Program where
  main := {
    name := { val := "Main" }, method := { val := "main" }, args := { val := "a" }, locals := []
    body := [.println {} (.binary .less (.literal "1") (.literal "2"))] }
  classes := [{ name := { val := "A" }, extends? := none, fields := [], methods := [countUp] }]

theorem countUpRound_executes (i j : Int32) {v : Int64}
    (hv : Source.Expr.value? [("n", none), ("i", some (.narrow i)), ("n", some (.narrow 2))]
      (.binary .add (.ident "i") (.literal "2147483648L")) = some (.wide v))
    (hj : Source.Expr.value? [("n", some (.wide v)), ("i", some (.narrow i)), ("n", some (.narrow 2))]
      (.binary .add (.ident "i") (.literal "1")) = some (.narrow j)) :
    Source.Exec true [("i", some (.narrow i)), ("n", some (.narrow 2))] countUpRound
      [("i", some (.narrow j)), ("n", some (.narrow 2))] [v] := by
  have hprintln : Source.Exec true [("n", some (.wide v)), ("i", some (.narrow i)), ("n", some (.narrow 2))]
      (.println {} (.ident "n")) _ [v] := .println (w := .wide v) rfl
  refine @Source.Exec.block true _ _ [("n", some (.wide v))] _ _ _ _ ?_ rfl
  exact .cons (.assign hv rfl) (.cons hprintln (.cons (.assign hj rfl) .nil))

theorem countUp_executes : (countUp.procedure "A").body.Executes true [.narrow 2] (some (.narrow 0))
    [2147483648, 2147483649] := by
  have hloop : Source.Exec true [("i", some (.narrow 0)), ("n", some (.narrow 2))]
      (.while {} (.binary .less (.ident "i") (.ident "n")) countUpRound)
      [("i", some (.narrow 2)), ("n", some (.narrow 2))] [2147483648, 2147483649] :=
    .whileTrue (w := .narrow 1) (by decide +kernel) (by decide)
      (countUpRound_executes 0 1 (by decide +kernel) (by decide +kernel))
      (.whileTrue (w := .narrow 1) (by decide +kernel) (by decide)
        (countUpRound_executes 1 2 (by decide +kernel) (by decide +kernel))
        (.whileFalse (w := .narrow 0) (by decide +kernel) (by decide)))
  refine @Lower.Body.Executes.result true _ _ [("i", some (.narrow 2)), ("n", some (.narrow 2))] _ _ _ rfl ?_
    (by decide +kernel)
  exact .cons (.assign (w := .narrow 0) (by decide +kernel) rfl) (.cons hloop .nil)

theorem lower_correct_counting : (declare counting).2 = [] ∧
    ∃ g f, (lower counting (declare counting).1 { linkage := .jvm }).1 = .ok [g, f] ∧
      (countUp.procedure "A").body.Executes true [.narrow 2] (some (.narrow 0)) [2147483648, 2147483649] ∧
      ∃ enough, ∀ limit, enough ≤ limit → ∃ steps M,
        (((({} : Machine).addPrinter "java/io/PrintStream/println(I)V").activate f.frame 1000 [2]).withLimit
          limit).run f.linearized = (.ok steps, M) ∧
          M.output = #[2147483648, 2147483649] ∧ M.temps[f.frame.rv]? = some (.narrow 0) := by
  have hdeclare : (declare counting).2 = [] := by decide +kernel
  obtain ⟨fs, hfs⟩ : ∃ fs, (lower counting (declare counting).1 { linkage := .jvm }).1 = .ok fs :=
    exists_of_isOk (by decide +kernel)
  have hall := lower_correct counting { linkage := .jvm } fs hdeclare hfs
  rcases hall with _ | ⟨-, _ | ⟨hrun, _ | _⟩⟩
  refine ⟨hdeclare, _, _, hfs, countUp_executes, ?_⟩
  obtain ⟨enough, hrun⟩ := hrun (({} : Machine).addPrinter "java/io/PrintStream/println(I)V") 1000 [2] _ _
    (by decide) rfl (by decide) (by decide) countUp_executes
  refine ⟨enough, fun limit hlimit => ?_⟩
  obtain ⟨steps, M, hsteps, hout, hrv⟩ := hrun limit hlimit
  exact ⟨steps, M, hsteps, hout, hrv _ rfl⟩

/-- Assigns to an element of an array that has no value. -/
def storing : Program where
  main := {
    name := { val := "Main" }, method := { val := "main" }, args := { val := "a" }
    locals := [{ type := { val := .intArray }, name := { val := "a" } }]
    body := [.assignAt {} "a" (.literal "0") (.literal "1")] }
  classes := []

def storingFragment : Fragment where
  frame := { name := ⟨"Main$main"⟩, formals := [], locals := [.inReg ⟨2⟩], slots := 1, fp := ⟨0⟩, rv := ⟨1⟩ }
  body := .ofList [.label ⟨"Main$main"⟩,
    .ofList [.exp (.temp ⟨2⟩), .move (.binOp .plus (.temp ⟨2⟩) (.const 0)) (.const 1)], .label ⟨"Main$main$end"⟩]

/-- An array assignment reads the variable of its array. Index and value alone are not enough. -/
theorem run_storing_faults : (declare storing).2 = [] ∧
    (lower storing (declare storing).1 { linkage := .jvm }).1 = .ok [storingFragment] ∧
    storing.main.procedure.body.Executes false [] none [] ∧
    ∀ limit steps M, (((({} : Machine).addPrinter "java/io/PrintStream/println(I)V").activate
      storingFragment.frame 1000 []).withLimit limit).run storingFragment.linearized ≠ (.ok steps, M) := by
  refine ⟨by decide +kernel, by decide +kernel, ?_, fun limit steps M h => ?_⟩
  · have hassign : Source.Exec false [("a", none)] (.assignAt {} "a" (.literal "0") (.literal "1")) _ [] :=
      .assignAt (i := .narrow 0) (w := .narrow 1) (by decide +kernel) (by decide +kernel) nofun
    exact .plain rfl (.cons hassign .nil)
  · match limit with
    | 0 => cases congrArg Prod.fst h
    | 1 => cases congrArg Prod.fst h
    | k + 2 =>
      have hfault : (((({} : Machine).addPrinter "java/io/PrintStream/println(I)V").activate
        storingFragment.frame 1000 []).withLimit (k + 2)).run storingFragment.linearized =
          (.error (.unboundTemp ⟨2⟩), _) := rfl
      cases congrArg Prod.fst (hfault.symm.trans h)

end Lowering
