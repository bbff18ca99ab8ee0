import Lowering.Table.Method

/-!
# Symbol tables

The classes of a program with their fields and methods. Within a table, a class or a method of a
class goes by its number in order of declaration, and the first declaration of a name wins.
-/

namespace Lowering

open Lowering.Source (Site)

structure MethodId where
  index : Nat
  deriving DecidableEq, Repr, Inhabited

def MethodId.text (m : MethodId) : String := s!"method#{m.index}"

inductive DeclarationError where
  | duplicateClass (name : String)
  | duplicateField (name : String)
  | duplicateMethod (name : String)
  deriving DecidableEq, Repr

def DeclarationError.message : DeclarationError → String
  | .duplicateClass name => s!"class '{name}' is already declared"
  | .duplicateField name => s!"field '{name}' is already declared"
  | .duplicateMethod name => s!"method '{name}' is already declared"

/-! ## Classes -/

structure Field where
  name : String
  type : Ty
  site : Site
  deriving DecidableEq, Repr, Inhabited

structure Class where
  name : String
  site : Site
  superclass : Option ClassId := none
  fields : List Field := []
  methods : List Method := []
  deriving DecidableEq, Repr, Inhabited

namespace Class

/-- A field that the class declares itself. -/
def field? (c : Class) (name : String) : Option Field := c.fields.find? (·.name == name)

def addField (c : Class) (name : String) (type : Ty) (site : Site) :
    Except DeclarationError Class :=
  match c.field? name with
  | some _ => .error (.duplicateField name)
  | none => .ok { c with fields := c.fields ++ [⟨name, type, site⟩] }

def fieldsByName (c : Class) : List Field := c.fields.mergeSort fun a b => a.name ≤ b.name

def methodId? (c : Class) (name : String) : Option MethodId :=
  (c.methods.findIdx? (·.name == name)).map MethodId.mk

def addMethod (c : Class) (m : Method) : Except DeclarationError (MethodId × Class) :=
  match c.methodId? m.name with
  | some _ => .error (.duplicateMethod m.name)
  | none => .ok (⟨c.methods.length⟩, { c with methods := c.methods ++ [m] })

def method? (c : Class) (id : MethodId) : Option Method := c.methods[id.index]?

/-- The method of a name with its number. -/
def find? (c : Class) (name : String) : Option (MethodId × Method) := do
  let id ← c.methodId? name
  return (id, ← c.method? id)

def setMethod (c : Class) (id : MethodId) (m : Method) : Class :=
  { c with methods := c.methods.set id.index m }

end Class

/-! ## Tables -/

structure Table where
  classes : List Class := []
  deriving DecidableEq, Repr, Inhabited

namespace Table

def classId? (t : Table) (name : String) : Option ClassId :=
  (t.classes.findIdx? (·.name == name)).map ClassId.mk

def class? (t : Table) (id : ClassId) : Option Class := t.classes[id.index]?

/-- The class of a name with its number. -/
def find? (t : Table) (name : String) : Option (ClassId × Class) := do
  let id ← t.classId? name
  return (id, ← t.class? id)

def addClass (t : Table) (name : String) (site : Site) :
    Except DeclarationError (ClassId × Table) :=
  match t.classId? name with
  | some _ => .error (.duplicateClass name)
  | none => .ok (⟨t.classes.length⟩, ⟨t.classes ++ [{ name, site }]⟩)

def setClass (t : Table) (id : ClassId) (c : Class) : Table := ⟨t.classes.set id.index c⟩

def setSuperclass (t : Table) (id : ClassId) (superclass : Option ClassId) : Table :=
  ⟨t.classes.modify id.index fun c => { c with superclass }⟩

def setMethod (t : Table) (id : ClassId) (method : MethodId) (m : Method) : Table :=
  ⟨t.classes.modify id.index fun c => c.setMethod method m⟩

def hierarchy (t : Table) : Hierarchy := ⟨t.classes.map fun c => ⟨c.name, c.superclass⟩⟩

/-- The field of the nearest class among `c` and its ancestors, at most `steps` classes. -/
def fieldWithin (t : Table) (name : String) : (steps : Nat) → (c : ClassId) → Option Field
  | 0, _ => none
  | steps + 1, c => do
    let k ← t.class? c
    match k.field? name with
    | some f => some f
    | none => t.fieldWithin name steps (← k.superclass)

/-- The field of a class, its own or inherited. -/
def field? (t : Table) (c : ClassId) (name : String) : Option Field :=
  t.fieldWithin name t.classes.length c

end Table

end Lowering
