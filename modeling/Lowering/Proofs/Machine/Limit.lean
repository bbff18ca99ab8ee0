import Lowering.Proofs.Machine.Evaluation

/-!
# The step limit

A machine looks at its limit only when a step is due. So its work goes the same way under every limit,
and of two runs of the same code the one with the lower limit is the start of the other.
-/

namespace Lowering

open Lowering.Tree (Temp Label Expr Stm)

/-- The same machine with another limit. -/
def Machine.withLimit (m : Machine) (limit : Nat) : Machine := { m with stepLimit := limit }

/-- The machine `m'` is later than `m`: what was printed stays printed, and the setup is the same. -/
structure Machine.Continues (m m' : Machine) : Prop where
  stepLimit : m'.stepLimit = m.stepLimit
  printers : m'.printers = m.printers
  output : m.output.toList <+: m'.output.toList

namespace Machine

variable {m m' m'' : Machine}

theorem continues_refl (m : Machine) : Continues m m := ⟨rfl, rfl, List.prefix_rfl⟩

theorem Continues.trans (h : Continues m m') (h' : Continues m' m'') : Continues m m'' :=
  ⟨h'.stepLimit.trans h.stepLimit, h'.printers.trans h.printers, h.output.trans h'.output⟩

theorem answer_withLimit (m : Machine) (name : String) (args : List Int64) (limit : Nat) :
    (m.withLimit limit).answer name args = ((m.answer name args).1, (m.answer name args).2.withLimit limit) := by
  by_cases hprinter : name ∈ m.printers
  · simp [answer, withLimit, hprinter]
  · cases hroutine : m.routines[name]? <;> simp [answer, withLimit, hprinter, hroutine]

theorem continues_answer (m : Machine) (name : String) (args : List Int64) :
    Continues m (m.answer name args).2 := by
  unfold answer
  split
  · exact ⟨rfl, rfl, by simp⟩
  · split
    · exact continues_refl m
    · exact ⟨rfl, rfl, List.prefix_rfl⟩

theorem answer_ne_outOfSteps (m : Machine) (name : String) (args : List Int64) (limit : Nat) :
    (m.answer name args).1 ≠ .error (.outOfSteps limit) := by
  unfold answer
  split
  · simp
  · split <;> simp

end Machine

open Machine (Continues)

namespace Exec

variable {α β : Type}

/-! ## Orderly work -/

/-- The work goes the same way under every limit, and whatever stops it is not the limit. -/
structure Orderly (x : Exec α) : Prop where
  withLimit : ∀ m limit, x.run.run (Machine.withLimit m limit) = ((x.run.run m).1, (x.run.run m).2.withLimit limit)
  not_stops : ∀ m limit, ¬ Stops x m (.outOfSteps limit)
  continues : ∀ m, Continues m (x.run.run m).2

namespace Orderly

theorem pure (a : α) : Orderly (pure a) :=
  ⟨fun _ _ => rfl, fun _ _ => not_stops_pure, Machine.continues_refl⟩

theorem throw {fault : Fault} (h : ∀ limit, fault ≠ .outOfSteps limit) : Orderly (throw fault : Exec α) :=
  ⟨fun _ _ => rfl, fun _ limit hstops => h limit (stops_throw.1 hstops), Machine.continues_refl⟩

theorem bind {x : Exec α} {f : α → Exec β} (hx : Orderly x) (hf : ∀ a, Orderly (f a)) : Orderly (x >>= f) := by
  refine ⟨fun m limit => ?_, fun m limit => ?_, fun m => ?_⟩
  · have hlimit := hx.withLimit m limit
    rcases hfirst : x.run.run m with ⟨fault | a, m₁⟩
    · rw [hfirst] at hlimit
      rw [run_bind_error hfirst, run_bind_error hlimit]
    · rw [hfirst] at hlimit
      rw [run_bind_ok hfirst, run_bind_ok hlimit]
      exact (hf a).withLimit m₁ limit
  · rw [stops_bind, not_or]
    refine ⟨hx.not_stops m limit, ?_⟩
    rintro ⟨a, m₁, -, hstops⟩
    exact (hf a).not_stops m₁ limit hstops
  · have hcontinues := hx.continues m
    rcases hfirst : x.run.run m with ⟨fault | a, m₁⟩
    · rw [hfirst] at hcontinues
      rw [run_bind_error hfirst]
      exact hcontinues
    · rw [hfirst] at hcontinues
      rw [run_bind_ok hfirst]
      exact hcontinues.trans ((hf a).continues m₁)

theorem get {f : Machine → Exec α} (hsame : ∀ m limit, f (Machine.withLimit m limit) = f m)
    (hf : ∀ m, Orderly (f m)) : Orderly (MonadState.get >>= f) := by
  refine ⟨fun m limit => ?_, fun m limit => (hf m).not_stops m limit, fun m => (hf m).continues m⟩
  rw [run_get_bind, run_get_bind, hsame]
  exact (hf m).withLimit m limit

theorem modify {f : Machine → Machine} (hsame : ∀ m limit, f (Machine.withLimit m limit) = (f m).withLimit limit)
    (hf : ∀ m, Continues m (f m)) : Orderly (modify f) :=
  ⟨fun m limit => congrArg (Prod.mk _) (hsame m limit), fun _ _ => not_stops_modify, hf⟩

theorem later {x : Exec α} {a : α} {m m' : Machine} (hx : Orderly x) (h : Yields x m a m') : Continues m m' := by
  have hcontinues := hx.continues m
  rwa [h] at hcontinues

end Orderly

/-! ## All work is orderly -/

theorem orderly_call (name : String) (args : List Int64) : Orderly (call name args) := by
  have hanswer : Orderly (ExceptT.mk (modifyGet fun m => m.answer name args)) :=
    ⟨fun m limit => m.answer_withLimit name args limit, fun m limit => m.answer_ne_outOfSteps name args limit,
      fun m => m.continues_answer name args⟩
  exact hanswer.bind fun v => .pure _

mutual
theorem orderly_eval (e : Expr) : Orderly (eval e) := by
  cases e with
  | const v | longConst v =>
    unfold eval
    exact .pure _
  | name l =>
    unfold eval
    exact .throw (by simp)
  | temp t =>
    unfold eval
    apply Orderly.get
    · intro m limit
      rfl
    · intro m
      split
      · exact .pure _
      · exact .throw (by simp)
  | binOp op l r =>
    unfold eval
    exact (orderly_eval l).bind fun a => (orderly_eval r).bind fun b => .pure _
  | mem a =>
    unfold eval
    exact (orderly_eval a).bind fun address => .get (fun _ _ => rfl) fun m => .pure _
  | call f args =>
    cases f with
    | name l =>
      unfold eval
      exact (orderly_evalAll args).bind fun values => orderly_call l.name values
    | _ =>
      unfold eval
      exact .throw (by simp)
  | eseq s e =>
    unfold eval
    exact .throw (by simp)

theorem orderly_evalAll (es : List Expr) : Orderly (evalAll es) := by
  cases es with
  | nil =>
    unfold evalAll
    exact .pure _
  | cons e rest =>
    unfold evalAll
    exact (orderly_eval e).bind fun w => (orderly_evalAll rest).bind fun ws => .pure _
end

theorem orderly_storeWord (address w : Word) : Orderly (storeWord address w) :=
  .modify (fun _ _ => rfl) fun _ => ⟨rfl, rfl, List.prefix_rfl⟩

theorem orderly_assign (target : Expr) (w : Word) : Orderly (assign target w) := by
  unfold assign
  split
  · exact .modify (fun _ _ => rfl) fun _ => ⟨rfl, rfl, List.prefix_rfl⟩
  · exact (orderly_eval _).bind fun address => orderly_storeWord address w
  · exact (orderly_eval _).bind fun address => orderly_storeWord address w

theorem orderly_step (s : Stm) : Orderly (step s) := by
  unfold step
  split
  · exact .pure _
  · exact (orderly_eval _).bind fun w => (orderly_assign _ w).bind fun _ => .pure _
  · exact (orderly_eval _).bind fun _ => .pure _
  · exact .pure _
  · exact .throw (by simp)
  · exact (orderly_eval _).bind fun a => (orderly_eval _).bind fun b => .pure _
  · exact .throw (by simp)

end Exec

namespace Machine

variable {places : Std.ExtTreeMap Label (List Stm)} {m m' : Machine} {s : Stm}
  {result : Except Fault (Option Label)}

/-! ## Steps -/

theorem step_withLimit (limit : Nat) (h : m.step s = (result, m')) :
    (m.withLimit limit).step s = (result, m'.withLimit limit) := by
  have hstep := (Exec.orderly_step s).withLimit m limit
  rw [show (Exec.step s).run.run m = (result, m') from h] at hstep
  exact hstep

theorem Continues.of_step (h : m.step s = (result, m')) : Continues m m' := by
  have hstep := (Exec.orderly_step s).continues m
  rwa [show (Exec.step s).run.run m = (result, m') from h] at hstep

theorem step_ne_outOfSteps {fault : Fault} (h : m.step s = (.error fault, m')) (limit : Nat) :
    fault ≠ .outOfSteps limit := by
  rintro rfl
  exact (Exec.orderly_step s).not_stops m limit (congrArg Prod.fst h)

/-! ## Runs -/

theorem continues_runFrom (fuel : Nat) (rest : List Stm) (m : Machine) :
    Continues m (runFrom places fuel rest m).2 := by
  fun_induction runFrom places fuel rest m with
  | case1 fuel m => exact continues_refl m
  | case2 s rest m => exact continues_refl m
  | case3 fuel s rest m fault m' hstep => exact .of_step hstep
  | case4 fuel s rest m m' hstep ih => exact (Continues.of_step hstep).trans ih
  | case5 fuel s rest m l m' hstep hnone => exact .of_step hstep
  | case6 fuel s rest m l m' hstep rest' hplace ih => exact (Continues.of_step hstep).trans ih

theorem run_eq (m : Machine) (code : List Stm) : m.run code =
    ((runFrom (targets code) m.stepLimit code m).1.map (m.stepLimit - ·),
      (runFrom (targets code) m.stepLimit code m).2) := by
  unfold run
  split
  all_goals
    next h =>
      rw [h]
      rfl

theorem continues_run (m : Machine) (code : List Stm) : Continues m (m.run code).2 := by
  rw [run_eq]
  exact continues_runFrom _ _ m

/-- What a run comes to, and what it comes to with `more` steps and another limit. -/
inductive Prolongs (more limit : Nat) : (early late : Except Fault Nat × Machine) → Prop
  | ended {left : Nat} {m : Machine} : Prolongs more limit (.ok left, m) (.ok (left + more), m.withLimit limit)
  | stopped {fault : Fault} {m : Machine} : (∀ k, fault ≠ .outOfSteps k) →
      Prolongs more limit (.error fault, m) (.error fault, m.withLimit limit)
  | cut {m : Machine} {late : Except Fault Nat × Machine} : m.output.toList <+: late.2.output.toList →
      Prolongs more limit (.error (.outOfSteps m.stepLimit), m) late

/-- Both runs take the same steps until the steps of one of them are used up. -/
theorem prolongs_runFrom (more limit fuel : Nat) (rest : List Stm) (m : Machine) :
    Prolongs more limit (runFrom places fuel rest m) (runFrom places (fuel + more) rest (m.withLimit limit)) := by
  fun_induction runFrom places fuel rest m with
  | case1 fuel m =>
    rw [runFrom]
    exact .ended
  | case2 s rest m =>
    apply Prolongs.cut
    exact (continues_runFrom _ _ (m.withLimit limit)).output
  | case3 fuel s rest m fault m' hstep =>
    rw [Nat.succ_add, runFrom, step_withLimit limit hstep]
    exact .stopped (step_ne_outOfSteps hstep)
  | case4 fuel s rest m m' hstep ih =>
    rw [Nat.succ_add, runFrom, step_withLimit limit hstep]
    exact ih
  | case5 fuel s rest m l m' hstep hnone =>
    rw [Nat.succ_add, runFrom, step_withLimit limit hstep]
    simp only [hnone]
    exact .stopped (by simp)
  | case6 fuel s rest m l m' hstep rest' hplace ih =>
    rw [Nat.succ_add, runFrom, step_withLimit limit hstep]
    simp only [hplace]
    exact ih

theorem prolongs_run (m : Machine) (code : List Stm) {a b : Nat} (hab : a ≤ b) :
    Prolongs 0 b ((m.withLimit a).run code) ((m.withLimit b).run code) := by
  obtain ⟨more, rfl⟩ := Nat.exists_eq_add_of_le hab
  have hruns : Prolongs more (a + more) (runFrom (targets code) a code (m.withLimit a))
      (runFrom (targets code) (a + more) code (m.withLimit (a + more))) :=
    prolongs_runFrom more (a + more) a code (m.withLimit a)
  rw [run_eq, run_eq, show (m.withLimit a).stepLimit = a from rfl,
    show (m.withLimit (a + more)).stepLimit = a + more from rfl]
  generalize runFrom (targets code) a code (m.withLimit a) = early at hruns
  generalize runFrom (targets code) (a + more) code (m.withLimit (a + more)) = late at hruns
  cases hruns with
  | @ended left m' =>
    have hsteps : a + more - (left + more) = a - left := by omega
    simp only [Except.map, hsteps]
    exact .ended
  | stopped hfault => exact .stopped hfault
  | cut hprinted => exact .cut hprinted

/-- The limit only cuts a run short. What a run comes to within its limit, it comes to under every higher
limit. A run that is cut short is also cut short under every lower limit, and has printed no less. -/
theorem limit_only_cuts (m : Machine) (code : List Stm) {a b : Nat} (hab : a ≤ b) :
    ((∀ k, ((m.withLimit a).run code).1 ≠ .error (.outOfSteps k)) →
      (m.withLimit b).run code = (((m.withLimit a).run code).1, ((m.withLimit a).run code).2.withLimit b)) ∧
    (∀ k, ((m.withLimit b).run code).1 = .error (.outOfSteps k) →
      ((m.withLimit a).run code).1 = .error (.outOfSteps a) ∧
      ((m.withLimit a).run code).2.output.toList <+: ((m.withLimit b).run code).2.output.toList) := by
  have hruns := prolongs_run m code hab
  have hlimit : ((m.withLimit a).run code).2.stepLimit = a := (continues_run (m.withLimit a) code).stepLimit
  generalize (m.withLimit a).run code = early at hruns hlimit
  generalize (m.withLimit b).run code = late at hruns
  cases hruns with
  | ended => exact ⟨fun _ => rfl, by simp⟩
  | stopped hfault =>
    refine ⟨fun _ => rfl, fun k hk => ?_⟩
    exact absurd (Except.error.inj hk) (hfault k)
  | cut hprinted =>
    refine ⟨fun hends => absurd rfl (hends _), fun k hk => ⟨?_, hprinted⟩⟩
    rw [← hlimit]

/-- Prints what a routine replies until that is zero. -/
def untilZero : List Stm :=
  [.label ⟨"again"⟩, .move (.temp ⟨0⟩) (.call (.name ⟨"tick"⟩) []), .exp (.call (.name ⟨"print"⟩) [.temp ⟨0⟩]),
    .cjump .gt (.temp ⟨0⟩) (.const 0) ⟨"again"⟩ ⟨"done"⟩, .label ⟨"done"⟩]

/-- The routine counts down from one. -/
def countingDown : Machine :=
  Machine.addRoutine { printers := ["print"] } "tick" fun cells _ =>
    let n := cells.getD "tick" 2 - 1
    (.ofNat n, cells.insert "tick" n)

/-- The run takes nine steps, so a limit of nine is just enough and one of eight is not. -/
theorem limit_only_cuts_untilZero :
    ((countingDown.withLimit 9).run untilZero).1 = .ok 9 ∧
    (countingDown.withLimit 50).run untilZero = (.ok 9, ((countingDown.withLimit 9).run untilZero).2.withLimit 50) ∧
    ((countingDown.withLimit 8).run untilZero).1 = .error (.outOfSteps 8) ∧
    ((countingDown.withLimit 4).run untilZero).1 = .error (.outOfSteps 4) ∧
    ((countingDown.withLimit 4).run untilZero).2.output = #[1] ∧
    ((countingDown.withLimit 8).run untilZero).2.output = #[1, 0] ∧
    ((countingDown.withLimit 4).run untilZero).2.output.toList <+:
      ((countingDown.withLimit 8).run untilZero).2.output.toList := by
  have hends : ((countingDown.withLimit 9).run untilZero).1 = .ok 9 := by decide +kernel
  have hcut : ((countingDown.withLimit 8).run untilZero).1 = .error (.outOfSteps 8) := by decide +kernel
  obtain ⟨hlonger, -⟩ := limit_only_cuts countingDown untilZero (a := 9) (b := 50) (by decide)
  obtain ⟨-, hshorter⟩ := limit_only_cuts countingDown untilZero (a := 4) (b := 8) (by decide)
  obtain ⟨hcut', hprinted⟩ := hshorter 8 hcut
  refine ⟨hends, ?_, hcut, hcut', by decide +kernel, by decide +kernel, hprinted⟩
  rw [hlonger (by simp [hends]), hends]

end Machine

end Lowering
