import Lowering.Json.Basic
import Lowering.Supply
import Lowering.Tree.Encoding

/-!
# Frames

A frame numbers the variable slots of one procedure. Slot 0 is the receiver's, the formals follow
in order, and locals that must live in memory come after them. All other locals live in temps.
-/

namespace Lowering

open Lowering.Tree (Temp Label Expr Stm)

/-- Where a variable lives. -/
inductive Access where
  /-- In memory, at an offset from the frame pointer. -/
  | inFrame (offset : Int32)
  | inReg (temp : Temp)
  deriving DecidableEq, Repr, Inhabited

namespace Access

/-- The tree that reads or writes the variable. -/
def exp (framePointer : Expr) : Access → Expr
  | .inFrame offset => .mem (.binOp .plus framePointer (.const offset))
  | .inReg t => .temp t

def toJson : Access → Json
  | .inFrame offset => .tagged "InFrame" (.num offset.toInt)
  | .inReg t => .tagged "InReg" t.toJson

end Access

structure Frame where
  /-- The label of the procedure. -/
  name : Label
  formals : List Access
  /-- In the order of their allocation. -/
  locals : List Access := []
  /-- The number of slots in use, the receiver's included. It is not bounded here, only the offsets are. -/
  slots : Nat
  /-- The frame pointer. -/
  fp : Temp
  /-- Where the procedure leaves its result. -/
  rv : Temp
  deriving DecidableEq, Repr, Inhabited

namespace Frame

/-- Bytes per slot. -/
def wordSize : Nat := 4

def slot (number : Nat) : Access := .inFrame (Int32.ofNat (number * wordSize))

/-- A frame with the given number of formals. -/
def create (name : Label) (formals : Nat) : Fresh Frame := do
  let fp ← Fresh.temp
  let rv ← Fresh.temp
  return {
    name, fp, rv
    formals := (List.range formals).map fun i => slot (i + 1)
    slots := formals + 1 }

/-- Storage for one more local. A local that escapes gets a slot. -/
def alloc (f : Frame) (escapes : Bool) : Fresh (Access × Frame) := do
  if escapes then
    let access := slot f.slots
    return (access, { f with slots := f.slots + 1, locals := f.locals ++ [access] })
  else
    let access := .inReg (← Fresh.temp)
    return (access, { f with locals := f.locals ++ [access] })

/-- The label at the end of the body. -/
def exitLabel (f : Frame) : Label := ⟨f.name.name ++ "$end"⟩

/-- The body between the labels of its entry and its exit. -/
def bracket (f : Frame) (body : Stm) : Stm :=
  .ofList [.label f.name, body, .label f.exitLabel]

end Frame

/-- A call of a routine outside the program. -/
def externalCall (name : String) (args : List Expr) : Expr := .call (.name ⟨name⟩) args

end Lowering
