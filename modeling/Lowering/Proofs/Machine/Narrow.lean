import Lowering.Proofs.Arithmetic
import Lowering.Proofs.Machine.Safety

/-!
# Narrow code on a narrow machine

Only a constant of 64 bits, a routine or a word that was wide before can bring a wide word into a run.
Without them a machine stays narrow wherever control comes, also where a fault stops it.
-/

namespace Lowering

open Lowering.Tree (Temp Label Expr Stm)
open Word (InRange)

/-! ## Code without wide constants -/

namespace Tree

mutual
/-- No constant of 64 bits stands in the expression. -/
def Expr.isShort : Expr → Bool
  | .const _ | .name _ | .temp _ => true
  | .longConst _ => false
  | .binOp _ l r => l.isShort && r.isShort
  | .mem a => a.isShort
  | .call f args => f.isShort && Expr.areShort args
  | .eseq s e => s.isShort && e.isShort

def Expr.areShort : List Expr → Bool
  | [] => true
  | e :: rest => e.isShort && Expr.areShort rest

@[inherit_doc Expr.isShort]
def Stm.isShort : Stm → Bool
  | .move d s => d.isShort && s.isShort
  | .exp e | .jump e _ => e.isShort
  | .cjump _ l r _ _ => l.isShort && r.isShort
  | .seq a b => a.isShort && b.isShort
  | .label _ => true
end

theorem Expr.areShort_append (es es' : List Expr) :
    Expr.areShort (es ++ es') = (Expr.areShort es && Expr.areShort es') := by
  induction es with
  | nil => rfl
  | cons e rest ih => simp [Expr.areShort, ih, Bool.and_assoc]

theorem Expr.isShort_addressOf {e : Expr} (h : e.isShort = true) : (Exec.addressOf e).isShort = true := by
  cases e <;> exact h

end Tree

/-! ## Narrow machines -/

namespace Machine

/-- The routine that calls of a name reach. -/
def routine? (m : Machine) (name : String) : Option Routine :=
  if name ∈ m.printers then none else m.routines[name]?

/-- What routines keep after calls. -/
def cellsAfter (m : Machine) (history : List Call) : Cells :=
  history.foldl (fun cells c => ((m.routine? c.name).map fun r => (r cells c.args).2).getD cells) m.cells

/-- All words are narrow, and whatever calls came before, routines reply with values of 32 bits. -/
structure Narrow (m : Machine) : Prop where
  temps : ∀ (t : Temp) w, m.temps[t]? = some w → w.isNarrow = true
  memory : ∀ (address : Int64) w, m.memory[address]? = some w → w.isNarrow = true
  replies : ∀ history name r args, m.routine? name = some r → InRange (r (m.cellsAfter history) args).1

/-- The machine `m'`, later than `m`, is narrow, and what was printed since are values of 32 bits. -/
structure StaysNarrow (m m' : Machine) : Prop where
  narrow : m'.Narrow
  printed : ∃ printed, m'.output.toList = m.output.toList ++ printed ∧ ∀ v ∈ printed, InRange v

variable {m m' m'' : Machine} {w : Word}

namespace Narrow

theorem stays (h : m.Narrow) : StaysNarrow m m := ⟨h, [], by simp, by simp⟩

theorem loadWord (h : m.Narrow) (address : Int64) : (m.loadWord address).isNarrow = true := by
  unfold Machine.loadWord
  cases hword : m.memory[address]? with
  | none => rfl
  | some w => exact h.memory address w hword

theorem insert_temp (h : m.Narrow) (t : Temp) (hw : w.isNarrow = true) :
    Narrow { m with temps := m.temps.insert t w } := by
  refine ⟨fun u v hv => ?_, h.memory, h.replies⟩
  rw [Std.ExtTreeMap.getElem?_insert] at hv
  split at hv
  · cases hv
    exact hw
  · exact h.temps u v hv

theorem insert_memory (h : m.Narrow) (address : Int64) (hw : w.isNarrow = true) :
    Narrow { m with memory := m.memory.insert address w } := by
  refine ⟨h.temps, fun a v hv => ?_, h.replies⟩
  rw [Std.ExtTreeMap.getElem?_insert] at hv
  split at hv
  · cases hv
    exact hw
  · exact h.memory a v hv

theorem keep_cells (h : m.Narrow) {name : String} {r : Routine} (hr : m.routine? name = some r)
    (args : List Int64) : Narrow { m with cells := (r m.cells args).2 } := by
  refine ⟨h.temps, h.memory, fun history name' r' args' hr' => ?_⟩
  have hlater : cellsAfter { m with cells := (r m.cells args).2 } history = m.cellsAfter (⟨name, args⟩ :: history) := by
    rw [cellsAfter, cellsAfter, List.foldl_cons, hr]
    rfl
  rw [hlater]
  exact h.replies _ name' r' args' hr'

theorem answer (h : m.Narrow) (name : String) {args : List Int64} (hargs : ∀ v ∈ args, InRange v) :
    StaysNarrow m (m.answer name args).2 ∧ ∀ v, (m.answer name args).1 = .ok v → InRange v := by
  unfold Machine.answer
  split
  next =>
    have hzero : InRange 0 := ⟨by decide, by decide⟩
    refine ⟨⟨⟨h.temps, h.memory, h.replies⟩, [args.headD 0], by simp, List.forall_mem_singleton.2 ?_⟩, fun v hv => ?_⟩
    · cases args with
      | nil => exact hzero
      | cons v rest => exact hargs v List.mem_cons_self
    · cases hv
      exact hzero
  next hprinter =>
    split
    next => exact ⟨h.stays, by simp⟩
    next r hr =>
      have hreached : m.routine? name = some r := by rw [routine?, if_neg hprinter, hr]
      have hnext := h.keep_cells hreached args
      refine ⟨⟨⟨hnext.temps, hnext.memory, hnext.replies⟩, [], by simp, by simp⟩, fun v hv => ?_⟩
      cases hv
      exact h.replies [] name r args hreached

end Narrow

theorem StaysNarrow.trans (h : StaysNarrow m m') (h' : StaysNarrow m' m'') : StaysNarrow m m'' := by
  obtain ⟨first, hfirst, hall⟩ := h.printed
  obtain ⟨second, hsecond, hall'⟩ := h'.printed
  exact ⟨h'.narrow, first ++ second, by rw [hsecond, hfirst, List.append_assoc],
    List.forall_mem_append.2 ⟨hall, hall'⟩⟩

end Machine

open Machine (StaysNarrow)

namespace Exec

variable {α β : Type} {m m' : Machine} {w : Word}

/-! ## Work that keeps a machine narrow -/

/-- The work leaves a narrow machine narrow, whether it ends or stops, and what it ends with is `good`. -/
def KeepsNarrow (x : Exec α) (good : α → Prop) : Prop :=
  ∀ m : Machine, m.Narrow → StaysNarrow m (x.run.run m).2 ∧ ∀ a m', Yields x m a m' → good a

namespace KeepsNarrow

variable {good : α → Prop} {good' : β → Prop}

theorem stays {x : Exec α} {a : α} (h : KeepsNarrow x good) (hm : m.Narrow) (hx : Yields x m a m') :
    StaysNarrow m m' ∧ good a := by
  obtain ⟨hstays, hgood⟩ := h m hm
  rw [hx] at hstays
  exact ⟨hstays, hgood a m' hx⟩

theorem pure {a : α} (ha : good a) : KeepsNarrow (pure a) good := by
  refine fun m hm => ⟨hm.stays, fun b m' hb => ?_⟩
  obtain ⟨rfl, -⟩ := yields_pure.1 hb
  exact ha

theorem throw (fault : Fault) : KeepsNarrow (throw fault : Exec α) good :=
  fun _ hm => ⟨hm.stays, fun _ _ h => absurd h (not_yields_throw _)⟩

theorem bind {x : Exec α} {f : α → Exec β} (hx : KeepsNarrow x good) (hf : ∀ a, good a → KeepsNarrow (f a) good') :
    KeepsNarrow (x >>= f) good' := by
  intro m hm
  obtain ⟨hstays, hgood⟩ := hx m hm
  unfold Yields at hgood ⊢
  rcases hfirst : x.run.run m with ⟨fault | a, m₁⟩
  · rw [hfirst] at hstays
    rw [run_bind_error hfirst]
    exact ⟨hstays, fun b m' h => by cases h⟩
  · rw [hfirst] at hstays
    rw [run_bind_ok hfirst]
    obtain ⟨hstays', hgood'⟩ := hf a (hgood a m₁ hfirst) m₁ hstays.narrow
    exact ⟨hstays.trans hstays', hgood'⟩

theorem get {f : Machine → Exec α} (hf : ∀ m : Machine, m.Narrow → StaysNarrow m ((f m).run.run m).2 ∧
    ∀ a m', Yields (f m) m a m' → good a) : KeepsNarrow (MonadState.get >>= f) good := hf

theorem modify {f : Machine → Machine} (hf : ∀ m : Machine, m.Narrow → StaysNarrow m (f m)) :
    KeepsNarrow (modify f) fun _ => True := fun m hm => ⟨hf m hm, fun _ _ _ => trivial⟩

end KeepsNarrow

/-! ## Evaluation -/

theorem call_keepsNarrow (name : String) {args : List Int64} (hargs : ∀ v ∈ args, InRange v) :
    KeepsNarrow (call name args) (·.isNarrow = true) := by
  have hanswer : KeepsNarrow (ExceptT.mk (modifyGet fun m => m.answer name args)) InRange := by
    intro m hm
    obtain ⟨hstays, hgood⟩ := hm.answer name hargs
    exact ⟨hstays, fun v m' hv => hgood v (congrArg Prod.fst hv)⟩
  exact hanswer.bind fun v hv => .pure (Word.isNarrow_ofValue hv)

mutual
theorem eval_keepsNarrow (e : Expr) (h : e.isShort = true) : KeepsNarrow (eval e) (·.isNarrow = true) := by
  cases e with
  | const v =>
    rw [eval]
    exact .pure rfl
  | longConst v => cases h
  | name l =>
    rw [eval]
    exact .throw _
  | temp t =>
    rw [eval]
    refine .get fun m hm => ?_
    split
    next w hw =>
      have hkeeps : KeepsNarrow (pure w) (·.isNarrow = true) := .pure (hm.temps t w hw)
      exact hkeeps m hm
    next => exact KeepsNarrow.throw _ m hm
  | binOp op l r =>
    obtain ⟨hl, hr⟩ := Bool.and_eq_true_iff.1 h
    rw [eval]
    refine (eval_keepsNarrow l hl).bind fun a ha => (eval_keepsNarrow r hr).bind fun b hb => .pure ?_
    rw [Word.isNarrow_combine, ha, hb]
    rfl
  | mem a =>
    rw [eval]
    refine (eval_keepsNarrow a h).bind fun address _ => .get fun m hm => ?_
    have hkeeps : KeepsNarrow (pure (m.loadWord address.value)) (·.isNarrow = true) :=
      .pure (hm.loadWord address.value)
    exact hkeeps m hm
  | call f args =>
    obtain ⟨-, hargs⟩ := Bool.and_eq_true_iff.1 h
    cases f with
    | name l =>
      rw [eval]
      exact (evalAll_keepsNarrow args hargs).bind fun values hvalues => call_keepsNarrow l.name hvalues
    | _ =>
      rw [eval]
      · exact .throw _
      · simp
  | eseq s e =>
    rw [eval]
    exact .throw _

theorem evalAll_keepsNarrow (es : List Expr) (h : Expr.areShort es = true) :
    KeepsNarrow (evalAll es) fun values => ∀ v ∈ values, InRange v := by
  cases es with
  | nil =>
    rw [evalAll]
    exact .pure (by simp)
  | cons e rest =>
    obtain ⟨he, hrest⟩ := Bool.and_eq_true_iff.1 h
    rw [evalAll]
    refine (eval_keepsNarrow e he).bind fun w hw => (evalAll_keepsNarrow rest hrest).bind fun ws hws => .pure ?_
    exact List.forall_mem_cons.2 ⟨Word.inRange_value hw, hws⟩
end

/-! ## Statements -/

theorem storeWord_keepsNarrow (address : Word) (hw : w.isNarrow = true) :
    KeepsNarrow (storeWord address w) fun _ => True := by
  refine .modify fun m hm => ⟨hm.insert_memory address.value hw, [], by simp, by simp⟩

theorem assign_keepsNarrow (target : Expr) (h : target.isShort = true) (hw : w.isNarrow = true) :
    KeepsNarrow (assign target w) fun _ => True := by
  cases target with
  | temp t => exact .modify fun m hm => ⟨hm.insert_temp t hw, [], by simp, by simp⟩
  | mem a => exact (eval_keepsNarrow a h).bind fun address _ => storeWord_keepsNarrow address hw
  | _ => exact (eval_keepsNarrow _ h).bind fun address _ => storeWord_keepsNarrow address hw

theorem step_keepsNarrow (c : Stm) (h : c.isShort = true) : KeepsNarrow (step c) fun _ => True := by
  cases c with
  | label l =>
    rw [step]
    exact .pure trivial
  | move target source =>
    obtain ⟨htarget, hsource⟩ := Bool.and_eq_true_iff.1 h
    rw [step]
    refine (eval_keepsNarrow source hsource).bind fun w hw => ?_
    exact (assign_keepsNarrow target htarget hw).bind fun _ _ => .pure trivial
  | exp e =>
    rw [step]
    exact (eval_keepsNarrow e h).bind fun _ _ => .pure trivial
  | jump target labels =>
    cases target with
    | name l =>
      rw [step]
      exact .pure trivial
    | _ =>
      rw [step]
      · exact .throw _
      · simp
  | cjump op l r ifTrue ifFalse =>
    obtain ⟨hl, hr⟩ := Bool.and_eq_true_iff.1 h
    rw [step]
    exact (eval_keepsNarrow l hl).bind fun _ _ => (eval_keepsNarrow r hr).bind fun _ _ => .pure trivial
  | seq a b =>
    rw [step]
    exact .throw _

/-! ## Points of a run -/

/-- To evaluate `e` on `m`, the part `sub` of it is evaluated on `m'`. -/
inductive Visits : (e : Expr) → (m : Machine) → (sub : Expr) → (m' : Machine) → Prop
  | here {e m} : Visits e m e m
  | left {op l r m sub m'} : Visits l m sub m' → Visits (.binOp op l r) m sub m'
  | right {op l r m a m₁ sub m'} :
    Yields (eval l) m a m₁ → Visits r m₁ sub m' → Visits (.binOp op l r) m sub m'
  | address {a m sub m'} : Visits a m sub m' → Visits (.mem a) m sub m'
  | arg {l before e after m values m₁ sub m'} :
    Yields (evalAll before) m values m₁ → Visits e m₁ sub m' →
      Visits (.call (.name l) (before ++ e :: after)) m sub m'

/-- To run the statement on `m`, the expression `sub` is evaluated on `m'`. -/
inductive StepVisits : (c : Stm) → (m : Machine) → (sub : Expr) → (m' : Machine) → Prop
  | source {target source m sub m'} : Visits source m sub m' → StepVisits (.move target source) m sub m'
  | target {target source m w m₁ sub m'} :
    (∀ t, target ≠ .temp t) → Yields (eval source) m w m₁ → Visits (addressOf target) m₁ sub m' →
      StepVisits (.move target source) m sub m'
  | exp {e m sub m'} : Visits e m sub m' → StepVisits (.exp e) m sub m'
  | left {op l r t f m sub m'} : Visits l m sub m' → StepVisits (.cjump op l r t f) m sub m'
  | right {op l r t f m a m₁ sub m'} :
    Yields (eval l) m a m₁ → Visits r m₁ sub m' → StepVisits (.cjump op l r t f) m sub m'

variable {e sub : Expr} {c : Stm}

theorem Visits.staysNarrow (h : Visits e m sub m') (he : e.isShort = true) (hm : m.Narrow) :
    StaysNarrow m m' ∧ sub.isShort = true := by
  induction h with
  | here => exact ⟨hm.stays, he⟩
  | left _ ih => exact ih (Bool.and_eq_true_iff.1 he).1 hm
  | right hl _ ih =>
    obtain ⟨hshortl, hshortr⟩ := Bool.and_eq_true_iff.1 he
    obtain ⟨hfirst, -⟩ := (eval_keepsNarrow _ hshortl).stays hm hl
    obtain ⟨hrest, hsub⟩ := ih hshortr hfirst.narrow
    exact ⟨hfirst.trans hrest, hsub⟩
  | address _ ih => exact ih he hm
  | arg hbefore _ ih =>
    obtain ⟨-, hargs⟩ := Bool.and_eq_true_iff.1 he
    rw [Expr.areShort_append, Bool.and_eq_true_iff] at hargs
    obtain ⟨hfirst, -⟩ := (evalAll_keepsNarrow _ hargs.1).stays hm hbefore
    obtain ⟨hrest, hsub⟩ := ih (Bool.and_eq_true_iff.1 hargs.2).1 hfirst.narrow
    exact ⟨hfirst.trans hrest, hsub⟩

theorem StepVisits.staysNarrow (h : StepVisits c m sub m') (hc : c.isShort = true) (hm : m.Narrow) :
    StaysNarrow m m' ∧ sub.isShort = true := by
  cases h with
  | source h => exact h.staysNarrow (Bool.and_eq_true_iff.1 hc).2 hm
  | target _ hsource h =>
    obtain ⟨hshortt, hshorts⟩ := Bool.and_eq_true_iff.1 hc
    obtain ⟨hfirst, -⟩ := (eval_keepsNarrow _ hshorts).stays hm hsource
    obtain ⟨hrest, hsub⟩ := h.staysNarrow (Expr.isShort_addressOf hshortt) hfirst.narrow
    exact ⟨hfirst.trans hrest, hsub⟩
  | exp h => exact h.staysNarrow hc hm
  | left h => exact h.staysNarrow (Bool.and_eq_true_iff.1 hc).1 hm
  | right hl h =>
    obtain ⟨hshortl, hshortr⟩ := Bool.and_eq_true_iff.1 hc
    obtain ⟨hfirst, -⟩ := (eval_keepsNarrow _ hshortl).stays hm hl
    obtain ⟨hrest, hsub⟩ := h.staysNarrow hshortr hfirst.narrow
    exact ⟨hfirst.trans hrest, hsub⟩

end Exec

/-! ## Whole runs -/

namespace Machine

open Exec (KeepsNarrow step_keepsNarrow)

variable {places : Std.ExtTreeMap Label (List Stm)} {code code' : List Stm} {m m' : Machine}

def AllShort (code : List Stm) : Prop := ∀ c ∈ code, c.isShort = true

instance : DecidablePred AllShort := fun code => inferInstanceAs (Decidable (∀ c ∈ code, _))

theorem AllShort.targets (h : AllShort code) {l : Label} {rest : List Stm} (hl : (targets code)[l]? = some rest) :
    AllShort rest := fun c hc => h c ((suffix_of_targets hl).mem hc)

theorem Reaches.staysNarrow (h : Reaches places code m code' m')
    (hplaces : ∀ (l : Label) rest, places[l]? = some rest → AllShort rest) (hcode : AllShort code) (hm : m.Narrow) :
    StaysNarrow m m' ∧ AllShort code' := by
  induction h with
  | refl => exact ⟨hm.stays, hcode⟩
  | next hstep _ ih =>
    obtain ⟨hc, hrest⟩ := List.forall_mem_cons.1 hcode
    obtain ⟨hfirst, -⟩ := (step_keepsNarrow _ hc).stays hm hstep
    obtain ⟨hlater, hcode'⟩ := ih hrest hfirst.narrow
    exact ⟨hfirst.trans hlater, hcode'⟩
  | goto hstep hl _ ih =>
    obtain ⟨hc, -⟩ := List.forall_mem_cons.1 hcode
    obtain ⟨hfirst, -⟩ := (step_keepsNarrow _ hc).stays hm hstep
    obtain ⟨hlater, hcode'⟩ := ih (hplaces _ _ hl) hfirst.narrow
    exact ⟨hfirst.trans hlater, hcode'⟩

theorem step_staysNarrow {c : Stm} {result : Except Fault (Option Label)} (hc : c.isShort = true) (hm : m.Narrow)
    (hstep : m.step c = (result, m')) : StaysNarrow m m' := by
  have hstays : StaysNarrow m (m.step c).2 := (step_keepsNarrow c hc m hm).1
  rwa [hstep] at hstays

theorem runFrom_staysNarrow (hplaces : ∀ (l : Label) rest, places[l]? = some rest → AllShort rest) (fuel : Nat)
    (code : List Stm) (m : Machine) (hcode : AllShort code) (hm : m.Narrow) :
    StaysNarrow m (runFrom places fuel code m).2 := by
  fun_induction runFrom places fuel code m with
  | case1 fuel m => exact hm.stays
  | case2 c rest m => exact hm.stays
  | case3 fuel c rest m fault m' hstep => exact step_staysNarrow (hcode c List.mem_cons_self) hm hstep
  | case4 fuel c rest m m' hstep ih =>
    obtain ⟨hc, hrest⟩ := List.forall_mem_cons.1 hcode
    have hfirst := step_staysNarrow hc hm hstep
    exact hfirst.trans (ih hrest hfirst.narrow)
  | case5 fuel c rest m l m' hstep hnone => exact step_staysNarrow (hcode c List.mem_cons_self) hm hstep
  | case6 fuel c rest m l m' hstep code' hplace ih =>
    have hfirst := step_staysNarrow (hcode c List.mem_cons_self) hm hstep
    exact hfirst.trans (ih (hplaces l code' hplace) hfirst.narrow)

theorem run_staysNarrow (code : List Stm) (m : Machine) (hcode : AllShort code) (hm : m.Narrow) :
    StaysNarrow m (m.run code).2 := by
  rw [run_eq]
  exact runFrom_staysNarrow (fun _ _ hl => hcode.targets hl) m.stepLimit code m hcode hm

/-- The run of the code on `m`, if the steps last, comes to evaluate `e` on `m'`. -/
def Passes (code : List Stm) (m : Machine) (e : Expr) (m' : Machine) : Prop :=
  ∃ c rest m₁, Reaches (targets code) code m (c :: rest) m₁ ∧ Exec.StepVisits c m₁ e m'

theorem Passes.staysNarrow {e : Expr} (h : Passes code m e m') (hcode : AllShort code) (hm : m.Narrow) :
    StaysNarrow m m' ∧ e.isShort = true := by
  obtain ⟨c, rest, m₁, hreaches, hvisits⟩ := h
  obtain ⟨hfirst, hrest⟩ := hreaches.staysNarrow (fun _ _ hl => hcode.targets hl) hcode hm
  obtain ⟨hlater, he⟩ := hvisits.staysNarrow (hrest c List.mem_cons_self) hfirst.narrow
  exact ⟨hfirst.trans hlater, he⟩

theorem Passes.operands {op : BinOp} {l r : Expr} {w : Word} {m'' : Machine} (h : Passes code m (.binOp op l r) m')
    (hcode : AllShort code) (hm : m.Narrow) (hw : Yields (Exec.eval (.binOp op l r)) m' w m'') :
    ∃ a m₁ b, Yields (Exec.eval l) m' (.narrow a) m₁ ∧ Yields (Exec.eval r) m₁ (.narrow b) m'' ∧
      w = Word.combine op (.narrow a) (.narrow b) := by
  obtain ⟨hstays, hshort⟩ := h.staysNarrow hcode hm
  obtain ⟨hshortl, hshortr⟩ := Bool.and_eq_true_iff.1 hshort
  obtain ⟨a, m₁, b, hl, hr, rfl⟩ := Exec.yields_binOp.1 hw
  obtain ⟨hstays₁, ha⟩ := (Exec.eval_keepsNarrow l hshortl).stays hstays.narrow hl
  obtain ⟨-, hb⟩ := (Exec.eval_keepsNarrow r hshortr).stays hstays₁.narrow hr
  cases a with
  | wide _ => cases ha
  | narrow a =>
    cases b with
    | wide _ => cases hb
    | narrow b => exact ⟨a, m₁, b, hl, hr, rfl⟩

/-- Code without wide constants on a narrow machine computes in 32 bits. Under every limit the machine stays
narrow and prints values of 32 bits. So it is wherever a run comes, and each operator gives there the one
32-bit number that is congruent to the exact result. Elsewhere a result is wide as soon as an operand is,
and then it is the exact result wrapped to 64 bits. -/
theorem narrow_run_exact (code : List Stm) (m : Machine) (hcode : AllShort code) (hm : m.Narrow) :
    (∀ limit, StaysNarrow m ((m.withLimit limit).run code).2) ∧
    (∀ code' m', Reaches (targets code) code m code' m' → StaysNarrow m m') ∧
    (∀ e m', Passes code m e m' → StaysNarrow m m' ∧
      ∀ w m'', Yields (Exec.eval e) m' w m'' → StaysNarrow m m'' ∧ w.isNarrow = true) ∧
    (∀ op l r m', Passes code m (.binOp op l r) m' → ∀ w m'', Yields (Exec.eval (.binOp op l r)) m' w m'' →
      ∃ a m₁ b, Yields (Exec.eval l) m' (.narrow a) m₁ ∧ Yields (Exec.eval r) m₁ (.narrow b) m'' ∧
        ∃ v, w = .narrow v ∧ ∀ u : Int32, u.toInt ≡ op.exact a.toInt b.toInt [ZMOD 2 ^ 32] ↔ u = v) ∧
    (∀ op l r (m' : Machine) w m'', Yields (Exec.eval (.binOp op l r)) m' w m'' →
      ∃ a m₁ b, Yields (Exec.eval l) m' a m₁ ∧ Yields (Exec.eval r) m₁ b m'' ∧
        (w.isNarrow = false ↔ a.isNarrow = false ∨ b.isNarrow = false) ∧
        (w.isNarrow = false → w.value.toInt = (op.exact a.value.toInt b.value.toInt).bmod (2 ^ 64))) := by
  refine ⟨fun limit => ?_, fun code' m' h => ?_, fun e m' h => ?_, fun op l r m' h w m'' hw => ?_,
    fun op l r m' w m'' hw => ?_⟩
  · have hlimit : (m.withLimit limit).Narrow := ⟨hm.temps, hm.memory, hm.replies⟩
    obtain ⟨hnarrow, hprinted⟩ := run_staysNarrow code (m.withLimit limit) hcode hlimit
    exact ⟨hnarrow, hprinted⟩
  · exact (h.staysNarrow (fun _ _ hl => hcode.targets hl) hcode hm).1
  · obtain ⟨hstays, he⟩ := h.staysNarrow hcode hm
    refine ⟨hstays, fun w m'' hw => ?_⟩
    obtain ⟨hlater, hnarrow⟩ := (Exec.eval_keepsNarrow e he).stays hstays.narrow hw
    exact ⟨hstays.trans hlater, hnarrow⟩
  · obtain ⟨a, m₁, b, hl, hr, rfl⟩ := h.operands hcode hm hw
    exact ⟨a, m₁, b, hl, hr, Word.combine_narrow op a b⟩
  · obtain ⟨a, m₁, b, hl, hr, rfl⟩ := Exec.yields_binOp.1 hw
    refine ⟨a, m₁, b, hl, hr, ?_, Word.toInt_combine_wide op⟩
    rw [Word.isNarrow_combine, Bool.and_eq_false_iff]

/-- Squares what a routine replies, prints that, and steps below the least number. -/
def overflowing : List Stm :=
  [.label ⟨"again"⟩, .move (.temp ⟨0⟩) (.call (.name ⟨"tick"⟩) []),
    .exp (.call (.name ⟨"print"⟩) [.binOp .mul (.temp ⟨0⟩) (.temp ⟨0⟩)]),
    .move (.mem (.const 8)) (.binOp .minus (.const (-2147483648)) (.const 1)),
    .exp (.call (.name ⟨"print"⟩) [.mem (.const 8)]), .jumpTo ⟨"again"⟩]

/-- The routine replies with the largest number first and with smaller ones after that. -/
def ticking : Machine :=
  Machine.addRoutine { printers := ["print"], stepLimit := 9 } "tick" fun cells _ =>
    (if cells.contains "tick" then 65536 else 2147483647, cells.insert "tick" 1)

theorem narrow_run_exact_overflowing : AllShort overflowing ∧ ticking.Narrow ∧
    (ticking.run overflowing).2.output = #[1, 2147483647, 0] ∧ StaysNarrow ticking (ticking.run overflowing).2 := by
  have hshort : AllShort overflowing := by decide
  have hnarrow : ticking.Narrow := by
    refine ⟨fun _ _ h => by simp [ticking, addRoutine] at h, fun _ _ h => by simp [ticking, addRoutine] at h,
      fun history name r args hr => ?_⟩
    simp only [routine?, ticking, addRoutine, Std.ExtTreeMap.getElem?_insert] at hr
    split at hr
    next => cases hr
    next =>
      split at hr
      next =>
        cases hr
        dsimp only
        split <;> exact ⟨by decide, by decide⟩
      next => simp at hr
  obtain ⟨hlimits, -⟩ := narrow_run_exact overflowing ticking hshort hnarrow
  exact ⟨hshort, hnarrow, by decide +kernel, hlimits 9⟩

end Machine

end Lowering
