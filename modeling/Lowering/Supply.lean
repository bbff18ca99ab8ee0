import Lowering.Counter
import Lowering.Tree.Basic

/-!
# Fresh temps and labels

One supply serves a whole unit, because the fragments of a unit are put together later: neither
a temp nor a label is ever handed out twice.
-/

namespace Lowering

open Lowering.Tree (Temp Label)

structure Supply where
  temps : Counter := {}
  labels : Counter := {}
  deriving DecidableEq, Repr, Inhabited

namespace Supply

/-- Temps start at `first`, labels at zero. -/
def startingAt (first : Nat) : Supply := { temps := ⟨first⟩ }

def temp (s : Supply) : Temp × Supply :=
  (⟨s.temps.draw.1⟩, { s with temps := s.temps.draw.2 })

def label (s : Supply) : Label × Supply :=
  (⟨"L" ++ toString s.labels.draw.1⟩, { s with labels := s.labels.draw.2 })

end Supply

/-- Work that draws from a supply. -/
abbrev Fresh := StateM Supply

namespace Fresh

def temp : Fresh Temp := modifyGet Supply.temp

def label : Fresh Label := modifyGet Supply.label

end Fresh

end Lowering
