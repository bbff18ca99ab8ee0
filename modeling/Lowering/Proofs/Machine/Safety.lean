import Lowering.Proofs.Linear.Direct
import Lowering.Proofs.Linear.Flat
import Lowering.Proofs.Machine.Reach

/-!
# Code that cannot go wrong

Flat, direct code whose jumps stay inside it never meets an unknown label, a routine that is not
there or a node that no machine can execute. All that may stop it is a temp without a value and the
step limit.
-/

namespace Lowering

open Lowering.Tree

variable {m m' : Machine} {w : Word} {routine : String} {fault : Fault}

namespace Exec

/-! ## What stops a statement -/

theorem stops_temp {t : Temp} (h : Stops (eval (.temp t)) m fault) : fault = .unboundTemp t := by
  simp only [eval, stops_bind, not_stops_get, yields_get, false_or] at h
  obtain ⟨_, _, ⟨rfl, rfl⟩, h⟩ := h
  split at h
  · exact absurd h not_stops_pure
  · exact (stops_throw.1 h).symm

theorem not_stops_call {args : List Int64} (hprinter : routine ∈ m.printers) :
    ¬ Stops (call routine args) m fault := by
  simp only [call, stops_bind, stops_mk_modifyGet, not_stops_pure, and_false, exists_false, or_false,
    Machine.answer, if_pos hprinter]
  intro h
  cases h

mutual
theorem eval_stops (e : Expr) {m : Machine} (hflat : e.isFlat = true) (hdirect : e.Direct routine)
    (hprinter : routine ∈ m.printers) (h : Stops (eval e) m fault) : ∃ t, fault = .unboundTemp t := by
  cases e with
  | const v | longConst v =>
    rw [eval] at h
    exact absurd h not_stops_pure
  | name l => exact hdirect.elim
  | temp t => exact ⟨t, stops_temp h⟩
  | binOp op l r =>
    obtain ⟨hfl, hfr⟩ := Bool.and_eq_true_iff.1 hflat
    simp only [eval, stops_bind, not_stops_pure, and_false, exists_false, or_false] at h
    rcases h with hl | ⟨a, m₁, hl, hr⟩
    · exact eval_stops l hfl hdirect.1 hprinter hl
    · exact eval_stops r hfr hdirect.2 (((orderly_eval l).later hl).printers ▸ hprinter) hr
  | mem a =>
    simp only [eval, stops_bind, not_stops_get, not_stops_pure, and_false, exists_false, or_false] at h
    exact eval_stops a hflat hdirect hprinter h
  | call f args =>
    obtain ⟨rfl, hargs⟩ := hdirect
    obtain ⟨-, hfargs⟩ := Bool.and_eq_true_iff.1 hflat
    simp only [eval, stops_bind] at h
    rcases h with h | ⟨values, m₁, hvalues, h⟩
    · exact evalAll_stops args hfargs hargs hprinter h
    · exact absurd h (not_stops_call (((orderly_evalAll args).later hvalues).printers ▸ hprinter))
  | eseq s e => cases hflat

theorem evalAll_stops (es : List Expr) {m : Machine} (hflat : Expr.areFlat es = true)
    (hdirect : Expr.AllDirect routine es) (hprinter : routine ∈ m.printers) (h : Stops (evalAll es) m fault) :
    ∃ t, fault = .unboundTemp t := by
  cases es with
  | nil =>
    rw [evalAll] at h
    exact absurd h not_stops_pure
  | cons e rest =>
    obtain ⟨hfe, hfrest⟩ := Bool.and_eq_true_iff.1 hflat
    simp only [evalAll, stops_bind, not_stops_pure, and_false, exists_false, or_false] at h
    rcases h with he | ⟨w, m₁, he, hrest⟩
    · exact eval_stops e hfe hdirect.1 hprinter he
    · exact evalAll_stops rest hfrest hdirect.2 (((orderly_eval e).later he).printers ▸ hprinter) hrest
end

theorem assign_stops (target : Expr) (hflat : target.isFlat = true) (hdirect : target.Direct routine)
    (hprinter : routine ∈ m.printers) (h : Stops (assign target w) m fault) : ∃ t, fault = .unboundTemp t := by
  cases target with
  | temp t => exact absurd h not_stops_modify
  | mem a =>
    simp only [assign, stops_bind, storeWord, not_stops_modify, and_false, exists_false, or_false] at h
    exact eval_stops a hflat hdirect hprinter h
  | _ =>
    simp only [assign, stops_bind, storeWord, not_stops_modify, and_false, exists_false, or_false] at h
    exact eval_stops _ hflat hdirect hprinter h

theorem step_stops (c : Stm) (hflat : c.isFlat = true) (hdirect : c.Direct routine)
    (hprinter : routine ∈ m.printers) (h : Stops (step c) m fault) : ∃ t, fault = .unboundTemp t := by
  cases c with
  | label l =>
    rw [step] at h
    exact absurd h not_stops_pure
  | move target source =>
    obtain ⟨hft, hfs⟩ := Bool.and_eq_true_iff.1 hflat
    simp only [step, stops_bind, not_stops_pure, and_false, exists_false, or_false] at h
    rcases h with hs | ⟨w, m₁, hs, ht⟩
    · exact eval_stops source hfs hdirect.2 hprinter hs
    · exact assign_stops target hft hdirect.1 (((orderly_eval source).later hs).printers ▸ hprinter) ht
  | exp e =>
    simp only [step, stops_bind, not_stops_pure, and_false, exists_false, or_false] at h
    exact eval_stops e hflat hdirect hprinter h
  | jump target labels =>
    obtain ⟨l, rfl, rfl⟩ := hdirect
    rw [step] at h
    exact absurd h not_stops_pure
  | cjump op l r ifTrue ifFalse =>
    obtain ⟨hfl, hfr⟩ := Bool.and_eq_true_iff.1 hflat
    simp only [step, stops_bind, not_stops_pure, and_false, exists_false, or_false] at h
    rcases h with hl | ⟨a, m₁, hl, hr⟩
    · exact eval_stops l hfl hdirect.1 hprinter hl
    · exact eval_stops r hfr hdirect.2 (((orderly_eval l).later hl).printers ▸ hprinter) hr
  | seq a b => cases hflat

theorem mem_targets_of_step (c : Stm) {l : Label} (hdirect : c.Direct routine) (h : Yields (step c) m (some l) m') :
    ∃ mark ∈ c.marks, l ∈ mark.targets := by
  cases c with
  | label _ => cases (yields_step_label.1 h).1
  | move target source =>
    obtain ⟨_, _, _, _, hnext⟩ := yields_step_move.1 h
    cases hnext
  | exp e =>
    obtain ⟨_, _, hnext⟩ := yields_step_exp.1 h
    cases hnext
  | jump target labels =>
    obtain ⟨l', rfl, rfl⟩ := hdirect
    cases (yields_step_jump.1 h).1
    exact ⟨.jump (some l) [l], by simp [Stm.marks, Expr.target?], by simp [Mark.targets]⟩
  | cjump op a b ifTrue ifFalse =>
    obtain ⟨_, _, _, _, _, hnext⟩ := yields_step_cjump.1 h
    refine ⟨.branch op ifTrue ifFalse, by simp [Stm.marks], ?_⟩
    rw [Option.some.inj hnext]
    split <;> simp [Mark.targets]
  | seq a b => exact absurd h not_yields_step_seq

end Exec

/-! ## What stops a run -/

namespace Machine

theorem mem_targets {code : List Stm} {l : Label} (h : .label l ∈ code) : l ∈ targets code := by
  fun_induction targets code with
  | case1 => cases h
  | case2 l' rest ih =>
    rw [Std.ExtTreeMap.mem_insertIfNew]
    rcases List.mem_cons.1 h with heq | h
    · cases heq
      exact .inl Std.ReflCmp.compare_self
    · exact .inr (ih h)
  | case3 s rest hs ih =>
    rcases List.mem_cons.1 h with rfl | h
    · exact absurd rfl (hs l)
    · exact ih h

theorem suffix_of_targets {code rest : List Stm} {l : Label} (h : (targets code)[l]? = some rest) :
    rest <:+ code := by
  fun_induction targets code with
  | case1 => simp at h
  | case2 l' later ih =>
    rw [Std.ExtTreeMap.getElem?_insertIfNew] at h
    split at h
    · cases h
      exact List.suffix_rfl
    · exact (ih h).trans (List.suffix_cons _ _)
  | case3 s later _ ih => exact (ih h).trans (List.suffix_cons _ _)

/-- Flat and direct code, and all its targets are known. -/
structure Guarded (routine : String) (places : Std.ExtTreeMap Label (List Stm)) (code : List Stm) : Prop where
  flat : AllFlat code
  direct : DirectCode routine code
  known : ∀ c ∈ code, ∀ mark ∈ c.marks, ∀ l ∈ mark.targets, l ∈ places

theorem Guarded.of_suffix {places : Std.ExtTreeMap Label (List Stm)} {code rest : List Stm}
    (h : Guarded routine places code) (hrest : rest <:+ code) : Guarded routine places rest :=
  ⟨fun c hc => h.flat c (hrest.mem hc), fun c hc => h.direct c (hrest.mem hc), fun c hc => h.known c (hrest.mem hc)⟩

/-- A run ends, or lacks a value or steps. -/
inductive Benign : Except Fault Nat → Prop
  | ok (steps : Nat) : Benign (.ok steps)
  | unboundTemp (t : Temp) : Benign (.error (.unboundTemp t))
  | outOfSteps (limit : Nat) : Benign (.error (.outOfSteps limit))

theorem Benign.map {result : Except Fault Nat} (h : Benign result) (f : Nat → Nat) : Benign (result.map f) := by
  cases h <;> constructor

theorem runFrom_benign {places : Std.ExtTreeMap Label (List Stm)}
    (hplaces : ∀ (l : Label) code, places[l]? = some code → Guarded routine places code) (fuel : Nat) (code : List Stm)
    (m : Machine) (hcode : Guarded routine places code) (hprinter : routine ∈ m.printers) :
    Benign (runFrom places fuel code m).1 := by
  -- The code that is left stays guarded: it is the rest of the code before, or the code at a label.
  fun_induction runFrom places fuel code m with
  | case1 fuel m => exact .ok fuel
  | case2 c rest m => exact .outOfSteps _
  | case3 fuel c rest m fault m' hstep =>
    have hstops : Stops (Exec.step c) m fault := congrArg Prod.fst hstep
    obtain ⟨t, rfl⟩ := Exec.step_stops c (hcode.flat c List.mem_cons_self) (hcode.direct c List.mem_cons_self)
      hprinter hstops
    exact .unboundTemp t
  | case4 fuel c rest m m' hstep ih =>
    exact ih (hcode.of_suffix (List.suffix_cons _ _)) ((Continues.of_step hstep).printers ▸ hprinter)
  | case5 fuel c rest m l m' hstep hnone =>
    obtain ⟨mark, hmark, hl⟩ := Exec.mem_targets_of_step c (hcode.direct c List.mem_cons_self) hstep
    have hknown := hcode.known c List.mem_cons_self mark hmark l hl
    -- A target without a place is none of the known ones.
    rw [Std.ExtTreeMap.mem_iff_isSome_getElem?, hnone] at hknown
    cases hknown
  | case6 fuel c rest m l m' hstep code' hplace ih =>
    exact ih (hplaces l code' hplace) ((Continues.of_step hstep).printers ▸ hprinter)

theorem run_benign {code : List Stm} (hflat : AllFlat code) (hdirect : DirectCode routine code)
    (hclosed : Closed (marksOf code)) (hprinter : routine ∈ m.printers) : Benign (m.run code).1 := by
  have hcode : Guarded routine (targets code) code := by
    refine ⟨hflat, hdirect, fun c hc mark hmark l hl => mem_targets ?_⟩
    have hlabel := hclosed mark (List.mem_flatMap.2 ⟨c, hc, hmark⟩) l hl
    obtain ⟨c', hc', hlabel⟩ := List.mem_flatMap.1 hlabel
    exact Stm.eq_label_of_mem_marks (hflat c' hc') hlabel ▸ hc'
  have hplaces : ∀ (l : Label) rest, (targets code)[l]? = some rest → Guarded routine (targets code) rest :=
    fun l rest h => hcode.of_suffix (suffix_of_targets h)
  have hrun := runFrom_benign hplaces m.stepLimit code m hcode hprinter
  rw [run_eq]
  exact hrun.map _

end Machine

end Lowering
