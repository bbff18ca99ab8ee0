import Lowering.Fragment
import Lowering.Json.Reader
import Lowering.Linkage

/-!
# Options

Options come from a JSON document: an object with the members `dump_fragments` and `runtime`, or
a list of the two values in this order. What is missing has its default.
-/

namespace Lowering

structure Options where
  /-- Add the dump of every fragment to the journal. -/
  dumpFragments : Option DumpFormat := none
  linkage : Linkage := .miniJava
  deriving DecidableEq, Repr, Inhabited

namespace Options

open Json (Document)

/-- A choice by name, plain or as the key of an object with the only value null. -/
def choice? {α : Type} (ofKey? : String → Option α) : Document → Option α
  | .text (some key) => ofKey? key
  | .object [(some key, .null)] => ofKey? key
  | _ => none

def dumpFragments? : Document → Option (Option DumpFormat)
  | .null => some none
  | d => (choice? DumpFormat.ofKey? d).map some

def linkage? (d : Document) : Option Linkage := choice? Linkage.ofKey? d

/-- What was read so far of an object. -/
structure Partial where
  dumpFragments : Option (Option DumpFormat) := none
  linkage : Option Linkage := none

/-- A known member may come once, all others are ignored. -/
def readMember? (p : Partial) : Option String × Document → Option Partial
  | (none, _) => none
  | (some "dump_fragments", d) =>
    if p.dumpFragments.isSome then none
    else (dumpFragments? d).map fun v => { p with dumpFragments := some v }
  | (some "runtime", d) =>
    if p.linkage.isSome then none else (linkage? d).map fun v => { p with linkage := some v }
  | (some _, _) => some p

def Partial.complete (p : Partial) : Options :=
  { dumpFragments := p.dumpFragments.getD none, linkage := p.linkage.getD .miniJava }

def ofDocument? : Document → Option Options
  | .object members => (members.foldlM readMember? {}).map Partial.complete
  | .list [] => some {}
  | .list [d] => do return { dumpFragments := ← dumpFragments? d }
  | .list [d, l] => do return { dumpFragments := ← dumpFragments? d, linkage := ← linkage? l }
  | _ => none

def parse? (s : String) : Option Options := (Document.parse? s).bind ofDocument?

end Options

end Lowering
