import Lowering.Frame
import Lowering.Tree.Encoding
import Lowering.Tree.Linear
import Lowering.Tree.Text

/-!
# Fragments

A fragment is a lowered procedure. Its dump is either its linear code, one statement a line, or
the whole of it as JSON.
-/

namespace Lowering

open Lowering.Tree (Stm)

structure Fragment where
  frame : Frame
  body : Stm
  deriving DecidableEq

inductive DumpFormat where
  | text
  | json
  deriving DecidableEq, Repr, Inhabited

namespace DumpFormat

def key : DumpFormat → String
  | .text => "text"
  | .json => "json"

def ofKey? (s : String) : Option DumpFormat := [.text, .json].find? (·.key == s)

end DumpFormat

namespace Fragment

def name (f : Fragment) : String := f.frame.name.name

def text (f : Fragment) : String := s!"PROC {f.name}: {f.body.text}"

def linearized (f : Fragment) : List Stm := f.body.linearize

/-- A label stands at the margin, all else is indented. -/
def line : Stm → String
  | .label l => l.name ++ ":"
  | s => "    " ++ s.text

def listing (f : Fragment) (code : List Stm) : String :=
  s!"PROC {f.name} ({f.frame.formals.length} formals, {f.frame.locals.length} locals)\n" ++
    "\n".intercalate (code.map line)

def toJson (f : Fragment) : Json :=
  .obj [("name", .str f.name), ("formals", .arr (f.frame.formals.map Access.toJson)),
    ("locals", .arr (f.frame.locals.map Access.toJson)), ("body", f.body.toJson)]

def dump (f : Fragment) : DumpFormat → String
  | .text => f.listing f.linearized
  | .json => f.toJson.pretty

end Fragment

end Lowering
