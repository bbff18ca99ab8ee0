import Lowering.Proofs.Linear.Direct
import Lowering.Proofs.Linear.Flat
import Lowering.Proofs.Linear.Marks
import Lowering.Proofs.Lowered.Emission
import Lowering.Proofs.Machine.Safety
import Lowering.Proofs.Scoping

/-!
# Lowered code never goes wrong

A machine that knows the printing routine can run every fragment. The run ends, or it lacks the
value of a temp, or it lacks steps. This needs nothing of the table with which the program was lowered.
-/

namespace Lowering

open Lowering.Tree (Temp Stm)
open Lowering.Source (Program)
open LowerUnit (Chain)

variable {options : Options} {fs : List Fragment} {f : Fragment}

theorem LowerUnit.Chain.emitted {At : Procedure → LowerUnit.Place → Prop} {qs : List Procedure} {u u' : UnitWork}
    (h : Chain options At qs u fs u') (hf : f ∈ fs) :
    Emitted (fun _ => True) (options.linkage.linkName .println) f.body := by
  induction h with
  | nil _ => cases hf
  | cons _ _ _ hyields _ ih =>
    rcases List.mem_cons.1 hf with rfl | hf
    · obtain ⟨body, w, hbody, rfl, -⟩ := LowerUnit.yields_lowerProcedure hyields
      exact ((emits_procedure rfl hbody).emits _ ⟨trivial, trivial, fun _ _ _ _ => trivial⟩ fun _ _ => trivial).2
    · exact ih hf

theorem Emitted.run_benign {own : Temp → Prop} {routine : String} {m : Machine} {st : Stm} (h : Emitted own routine st)
    (hprinter : routine ∈ m.printers) : Machine.Benign (m.run st.linearize).1 := by
  refine Machine.run_benign st.linearize_flat (st.linearize_direct h.direct) ?_ hprinter
  rw [st.marksOf_linearize]
  exact h.closed

/-- No fragment jumps to an unknown place, calls an unknown routine or leaves the machine's instructions. -/
theorem lower_safe (p : Program) (t : Table) (options : Options) (fs : List Fragment)
    (hlower : (lower p t options).1 = .ok fs) (f : Fragment) (hf : f ∈ fs) (m : Machine)
    (hprinter : options.linkage.linkName .println ∈ m.printers) : Machine.Benign (m.run f.linearized).1 :=
  ((lower_chain hlower).emitted hf).run_benign hprinter

/-- Fits the table of the program in which blocks hide names, without being that program. The main
procedure prints a variable that has no value, and the method never ends. -/
def looping : Program where
  main := {
    name := { val := "Main" }, method := { val := "main" }, args := { val := "a" }, locals := [intDecl "x"]
    body := [.println {} (.ident "x")] }
  classes := [{
    name := { val := "A" }, extends? := none, fields := []
    methods := [{
      returns := { val := .boolean }, name := { val := "run" }, formals := [intDecl "x"], locals := []
      body := [.while {} (.binary .lessEquals (.literal "1") (.literal "2")) (.println {} (.literal "3"))]
      result := .bool true }] }]

/-- A machine that prints and gives up early. -/
def impatient : Machine := { printers := ["java/io/PrintStream/println(I)V"], stepLimit := 50 }

theorem lower_safe_looping : ∃ main method,
    (lower looping (declare shadowing).1 { linkage := .jvm }).1 = .ok [main, method] ∧
      Machine.Benign (impatient.run main.linearized).1 ∧ Machine.Benign (impatient.run method.linearized).1 := by
  obtain ⟨main, method, hfs⟩ : ∃ main method,
      (lower looping (declare shadowing).1 { linkage := .jvm }).1 = .ok [main, method] :=
    exists_pair_of_length (by decide +kernel)
  have hsafe : ∀ f ∈ [main, method], Machine.Benign (impatient.run f.linearized).1 := fun f hf =>
    lower_safe looping _ { linkage := .jvm } _ hfs f hf impatient (by decide)
  exact ⟨main, method, hfs, hsafe main (by simp), hsafe method (by simp)⟩

end Lowering
