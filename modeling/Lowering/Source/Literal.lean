import Lowering.Word

/-!
# Integer literals

An optional sign, decimal digits, and an optional `l` or `L` at the end. The suffix asks for a
wide word, and without it the number has to fit a narrow one.
-/

namespace Lowering.Source.Literal

/-- The number that digits spell, the first digit after `seen`. -/
def digitsValue (seen : Nat) (ds : List Char) : Nat :=
  ds.foldl (fun n d => 10 * n + (d.toNat - '0'.toNat)) seen

/-- One or more digits. -/
def natural? (cs : List Char) : Option Nat :=
  if !cs.isEmpty && cs.all Char.isDigit then some (digitsValue 0 cs) else none

def integer? : List Char → Option Int
  | '+' :: cs => (natural? cs).map Int.ofNat
  | '-' :: cs => (natural? cs).map fun n => -(n : Int)
  | cs => (natural? cs).map Int.ofNat

def narrow? (n : Int) : Option Word :=
  if Int32.minValue.toInt ≤ n ∧ n ≤ Int32.maxValue.toInt then some (.narrow (Int32.ofInt n))
  else none

def wide? (n : Int) : Option Word :=
  if Int64.minValue.toInt ≤ n ∧ n ≤ Int64.maxValue.toInt then some (.wide (Int64.ofInt n))
  else none

def isSuffix (c : Char) : Bool := c == 'l' || c == 'L'

def parse? (spelling : String) : Option Word :=
  let cs := spelling.toList
  if cs.getLast?.any isSuffix then (integer? cs.dropLast).bind wide? else (integer? cs).bind narrow?

end Lowering.Source.Literal
