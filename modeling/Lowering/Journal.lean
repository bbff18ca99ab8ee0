import Lowering.Lowered.Basic
import Lowering.Source.Site
import Lowering.Tree.Text

/-!
# The journal

What a run does, step by step, for whoever wants to follow it. Each event has a level, and a
reader chooses how much detail to see.
-/

namespace Lowering

open Lowering.Source (Site)
open Lowering.Tree (Label Stm)

inductive Level where
  | info
  | debug
  | trace
  deriving DecidableEq, Repr, Inhabited

namespace Level

def text : Level → String
  | .info => "INFO"
  | .debug => "DEBUG"
  | .trace => "TRACE"

def detail : Level → Nat
  | .info => 0
  | .debug => 1
  | .trace => 2

end Level

inductive Event where
  | declared (classes errors : Nat)
  | mainStarted (cls method : String)
  | classStarted (cls : String)
  | methodStarted (cls method : String)
  | frameCreated (name : Label) (formals : Nat)
  | stmtLowered (site : Site) (form : Form)
  | bodyLowered (name : Label) (body : Stm)
  | linearized (statements : Nat)
  | runFinished (steps : Nat)
  | dumped (text : String)

namespace Event

def level : Event → Level
  | .dumped _ => .info
  | .declared .. | .mainStarted .. | .classStarted _ | .methodStarted .. | .runFinished _ => .debug
  | .frameCreated .. | .stmtLowered .. | .bodyLowered .. | .linearized _ => .trace

def message : Event → String
  | .declared classes errors => s!"declared {classes} classes with {errors} errors"
  | .mainStarted cls method => s!"translate main procedure {cls}${method}"
  | .classStarted cls => s!"translate class {cls}"
  | .methodStarted cls method => s!"translate method {cls}${method}"
  | .frameCreated name formals => s!"frame {name.name} with {formals} formals"
  | .stmtLowered site form => s!"statement at {site.text} lowered to {form.text}"
  | .bodyLowered name body => s!"{name.name}: {body.text}"
  | .linearized statements => s!"linearized into {statements} statements"
  | .runFinished steps => s!"simulation finished after {steps} steps"
  | .dumped text => text

end Event

abbrev Journal := Array Event

/-- The lines of a journal down to a level of detail. -/
def Journal.lines (j : Journal) (level : Level) : List (Level × String) :=
  (j.toList.filter fun e => e.level.detail ≤ level.detail).map fun e => (e.level, e.message)

/-- Work that is noted in a journal. -/
abbrev Noted := StateM Journal

def Noted.note (e : Event) : Noted Unit := modify fun j => j.push e

end Lowering
