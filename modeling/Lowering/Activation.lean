import Lowering.Frame
import Lowering.Machine.Basic

/-!
# Activations

How a machine is made ready for the code of a procedure, and where the variables of the procedure
are found afterwards.
-/

namespace Lowering.Machine

/-- Stores an argument where a formal comes in. -/
def passArgument (fp : Int64) (m : Machine) : Access × Int64 → Machine
  | (.inFrame offset, value) => m.store (fp + offset.toInt64) value
  | (.inReg _, _) => m

/-- Sets the frame pointer and passes the arguments, as far as there are formals for them. -/
def activate (m : Machine) (f : Frame) (fp : Int64) (args : List Int64) : Machine :=
  (f.formals.zip args).foldl (passArgument fp) (m.setTemp f.fp fp)

/-- The value of a variable. A temp that was never written has none. -/
def valueOf? (m : Machine) (fp : Int64) : Access → Option Int64
  | .inFrame offset => some (m.load (fp + offset.toInt64))
  | .inReg t => m.temp? t

end Lowering.Machine
