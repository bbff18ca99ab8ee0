import Lowering.Fragment
import Lowering.Journal
import Lowering.Machine.Run
import Lowering.Table.Declare

/-!
# Noted operations

The operations that leave a line in the journal.
-/

namespace Lowering.Noted

open Lowering.Source (Program)
open Lowering.Tree (Label Stm)

def linearize (s : Stm) : Noted (List Stm) := do
  let code := s.linearize
  note (.linearized code.length)
  return code

/-- Only a run that comes to its end is noted. -/
def execute (m : Machine) (code : List Stm) : Noted (Except Fault Nat × Machine) := do
  let (result, m) := m.run code
  match result with
  | .ok steps => note (.runFinished steps)
  | .error _ => pure ()
  return (result, m)

def declare (p : Program) : Noted (Table × List Diagnostic) := do
  let (table, reports) := Lowering.declare p
  note (.declared table.classes.length reports.length)
  return (table, reports)

def createFrame (name : Label) (formals : Nat) (supply : Supply) : Noted (Frame × Supply) := do
  note (.frameCreated name formals)
  return (Frame.create name formals).run supply

/-- The text form is made of linear code. -/
def dump (f : Fragment) : DumpFormat → Noted String
  | .text => do return f.listing (← linearize f.body)
  | .json => return f.dump .json

end Lowering.Noted
