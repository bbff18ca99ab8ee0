/-!
# Types and class hierarchies

The type `undefined` stands for a type that could not be found. Every test of two types accepts
it on either side, so that one mistake is not reported again and again.
-/

namespace Lowering

/-- The number of a class, in order of declaration. -/
structure ClassId where
  index : Nat
  deriving DecidableEq, Repr, Inhabited

def ClassId.text (c : ClassId) : String := s!"class#{c.index}"

/-! ## Hierarchies -/

structure ClassEntry where
  name : String
  superclass : Option ClassId
  deriving DecidableEq, Repr

/-- The classes by number, each with the class it extends. Cycles are possible. -/
structure Hierarchy where
  classes : List ClassEntry

namespace Hierarchy

def superclass (h : Hierarchy) (c : ClassId) : Option ClassId :=
  h.classes[c.index]?.bind ClassEntry.superclass

def className (h : Hierarchy) (c : ClassId) : String :=
  (h.classes[c.index]?.map ClassEntry.name).getD ""

/-- Whether `target` is `c` or one of its first `steps` ancestors. -/
def reaches (h : Hierarchy) (target : ClassId) : (steps : Nat) → (c : ClassId) → Bool
  | 0, c => c == target
  | steps + 1, c => c == target || match h.superclass c with
    | none => false
    | some parent => h.reaches target steps parent

/-- A chain of ancestors repeats itself after as many steps as there are classes. -/
def isSubclass (h : Hierarchy) (c target : ClassId) : Bool := h.reaches target h.classes.length c

end Hierarchy

/-! ## Types -/

inductive Ty where
  | int
  | intArray
  | boolean
  | cls (id : ClassId)
  | undefined
  deriving DecidableEq, Repr, Inhabited

namespace Ty

def isBuiltin : Ty → Bool
  | .int | .intArray | .boolean => true
  | .cls _ | .undefined => false

def isClass : Ty → Bool
  | .cls _ => true
  | _ => false

/-- Values that live on the heap. -/
def isReference (t : Ty) : Bool := t == .intArray || t.isClass

/-- Whether a value of type `t` may be stored in a place of type `u`. -/
def isAssignable (h : Hierarchy) (t u : Ty) : Bool :=
  match t, u with
  | .undefined, _ | _, .undefined => true
  | .cls c, .cls d => h.isSubclass c d
  | t, u => t == u

def isComparable (t u : Ty) : Bool := t == .undefined || u == .undefined || t == u

def bothInt : Ty → Ty → Bool
  | .undefined, _ | _, .undefined => true
  | .int, .int => true
  | _, _ => false

def bothBoolean : Ty → Ty → Bool
  | .undefined, _ | _, .undefined => true
  | .boolean, .boolean => true
  | _, _ => false

def name (h : Hierarchy) : Ty → String
  | .int => "int"
  | .intArray => "int[]"
  | .boolean => "boolean"
  | .cls c => h.className c
  | .undefined => "<undefined>"

/-- The type in the signature of a method. An undefined type has none. -/
def descriptor? (h : Hierarchy) : Ty → Option String
  | .int => some "I"
  | .intArray => some "[I"
  | .boolean => some "Z"
  | .cls c => some ("L" ++ h.className c ++ ";")
  | .undefined => none

end Ty

end Lowering
