/-!
# JSON values and their indented text

Members of an object keep their order. The text has one item per line, two spaces of indentation
per level, and nothing between the brackets of an empty list.
-/

namespace Lowering

inductive Json where
  | num (value : Int)
  | str (text : String)
  | arr (items : List Json)
  | obj (members : List (String × Json))

namespace Json

/-- A value under its tag. -/
def tagged (tag : String) (value : Json) : Json := .obj [(tag, value)]

/-! ## Quoted strings -/

def hexDigit (n : Nat) : Char := Char.ofNat (if n < 10 then 48 + n else 87 + n)

/-- Quotes, backslashes and control characters are escaped, all else stands for itself. -/
def escape (c : Char) : String :=
  if c = '"' then "\\\""
  else if c = '\\' then "\\\\"
  else if c.toNat = 0x08 then "\\b"
  else if c.toNat = 0x09 then "\\t"
  else if c.toNat = 0x0a then "\\n"
  else if c.toNat = 0x0c then "\\f"
  else if c.toNat = 0x0d then "\\r"
  else if c.toNat < 0x20 then
    "\\u00" ++ String.ofList [hexDigit (c.toNat / 16), hexDigit (c.toNat % 16)]
  else String.singleton c

def quote (s : String) : String := "\"" ++ String.join (s.toList.map escape) ++ "\""

/-! ## Layout -/

def newline (depth : Nat) : String := "\n" ++ String.ofList (List.replicate (2 * depth) ' ')

/-- Items one level below `depth`, between brackets. -/
def enclose (opening closing : String) (depth : Nat) (items : List String) : String :=
  if items.isEmpty then opening ++ closing
  else
    let line := newline (depth + 1)
    opening ++ line ++ ("," ++ line).intercalate items ++ newline depth ++ closing

mutual
def write (depth : Nat) : Json → String
  | .num n => toString n
  | .str s => quote s
  | .arr items => enclose "[" "]" depth (writeItems (depth + 1) items)
  | .obj members => enclose "\x7b" "\x7d" depth (writeMembers (depth + 1) members)

def writeItems (depth : Nat) : List Json → List String
  | [] => []
  | v :: rest => write depth v :: writeItems depth rest

def writeMembers (depth : Nat) : List (String × Json) → List String
  | [] => []
  | (key, v) :: rest => (quote key ++ ": " ++ write depth v) :: writeMembers depth rest
end

def pretty (v : Json) : String := v.write 0

end Json

end Lowering
