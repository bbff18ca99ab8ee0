import Lowering.Tree.Text
import Std.Data.ExtTreeMap

/-!
# The machine

A machine holds words in temps and in memory. Memory reads zero where nothing was stored. A call
goes to a printer or to a routine of that name.
-/

namespace Lowering

open Lowering.Tree (Temp Label Expr Stm)

/-- What routines keep between calls. They may keep it apart, each in a cell of its own, or share it. -/
abbrev Cells := Std.ExtTreeMap String Nat

/-- Code from outside: its reply to some arguments, and what is kept then. -/
abbrev Routine := Cells → List Int64 → Int64 × Cells

/-- A call that was answered. -/
structure Call where
  name : String
  args : List Int64
  deriving DecidableEq, Repr

structure Machine where
  temps : Std.ExtTreeMap Temp Word := {}
  memory : Std.ExtTreeMap Int64 Word := {}
  routines : Std.ExtTreeMap String Routine := {}
  cells : Cells := {}
  printers : List String := []
  /-- What the printers were given, in order. -/
  output : Array Int64 := #[]
  /-- The calls made so far, in order. -/
  calls : Array Call := #[]
  stepLimit : Nat := 100000

/-- Why a run stops before the end of its code. -/
inductive Fault where
  | unknownLabel (label : Label)
  | unboundTemp (temp : Temp)
  | unknownRoutine (name : String)
  | indirectCall (target : Expr)
  | indirectJump (target : Expr)
  | nestedExpr (node : Expr)
  | nestedStm (node : Stm)
  | outOfSteps (limit : Nat)
  deriving DecidableEq

def Fault.message : Fault → String
  | .unknownLabel l => s!"jump to unknown label '{l.name}'"
  | .unboundTemp t => s!"{t.text} is read before it is written"
  | .unknownRoutine name => s!"call to unknown external '{name}'"
  | .indirectCall target => s!"call to unknown external '{target.text}'"
  | .indirectJump target => s!"{target.text} is not a label"
  | .nestedExpr node => s!"cannot execute non-canonical node {node.text}"
  | .nestedStm node => s!"cannot execute non-canonical node {node.text}"
  | .outOfSteps limit => s!"no result after {limit} steps"

namespace Machine

/-! ## Words in and out -/

def setTemp (m : Machine) (t : Temp) (value : Int64) : Machine :=
  { m with temps := m.temps.insert t (Word.ofValue value) }

def temp? (m : Machine) (t : Temp) : Option Int64 := m.temps[t]?.map Word.value

def store (m : Machine) (address value : Int64) : Machine :=
  { m with memory := m.memory.insert address (Word.ofValue value) }

def loadWord (m : Machine) (address : Int64) : Word := m.memory[address]?.getD (.narrow 0)

def load (m : Machine) (address : Int64) : Int64 := (m.loadWord address).value

/-! ## What calls reach -/

/-- Calls of `name` print their first argument. -/
def addPrinter (m : Machine) (name : String) : Machine :=
  { m with printers := m.printers ++ [name] }

/-- Replaces a routine of the same name. -/
def addRoutine (m : Machine) (name : String) (routine : Routine) : Machine :=
  { m with routines := m.routines.insert name routine }

/-! ## The state as text -/

def listing (opening closing : String) (items : List String) : String :=
  opening ++ ", ".intercalate items ++ closing

/-- The words of a machine, in the order of temps and of addresses, and its output. -/
def text (m : Machine) : String :=
  let temps := m.temps.toList.map fun (t, w) => s!"Temp({t.index}): {w.text}"
  let memory := m.memory.toList.map fun (a, w) => s!"{a.toInt}: {w.text}"
  let output := m.output.toList.map fun v => toString v.toInt
  listing "Machine \x7b " " \x7d" [
    "temps: " ++ listing "\x7b" "\x7d" temps,
    "memory: " ++ listing "\x7b" "\x7d" memory,
    "output: " ++ listing "[" "]" output]

end Machine

end Lowering
