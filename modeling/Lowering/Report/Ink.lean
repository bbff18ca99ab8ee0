import Lowering.Report.Diagnostic

/-!
# Coloured reports

A report is a list of writing commands. A terminal obeys all of them, a plain file takes only the
text.
-/

namespace Lowering

inductive Color where
  | red
  | green
  deriving DecidableEq, Repr, Inhabited

def Color.name : Color → String
  | .red => "Red"
  | .green => "Green"

inductive Ink where
  | reset
  /-- Sets color and weight of the text that follows. -/
  | style (color : Option Color) (bold : Bool)
  | text (s : String)
  deriving DecidableEq, Repr, Inhabited

namespace Ink

/-! ## Reports -/

def error (d : Diagnostic) : List Ink :=
  [.reset, .text s!"[{d.site.line},{d.site.column}] ",
    .style (some .red) false, .style (some .red) true, .text "error:",
    .style none true, .style none false, .text (" " ++ d.message ++ "\n"), .reset]

/-- The closing line after so many errors. -/
def statistics (errors : Nat) : List Ink :=
  let (color, line) :=
    match errors with
    | 0 => (Color.green, "Compilation finished successfully\n")
    | 1 => (.red, "Compilation aborted due to an error\n")
    | n => (.red, s!"Compilation aborted due to {n} errors\n")
  [.reset, .style none true, .style (some color) true, .text line, .reset]

/-! ## What they look like -/

def plain (inks : List Ink) : String :=
  String.join (inks.map fun
    | .text s => s
    | _ => "")

def escapeCode (n : Nat) : String := s!"\x1b[{n}m"

/-- On a terminal. A new style starts from scratch. -/
def ansi (inks : List Ink) : String :=
  String.join (inks.map fun
    | .reset => escapeCode 0
    | .style color bold =>
      escapeCode 0 ++ (if bold then escapeCode 1 else "") ++
        match color with
        | none => ""
        | some .red => escapeCode 31
        | some .green => escapeCode 32
    | .text s => s)

end Ink

end Lowering
