import Lowering.Counter
import Lowering.Frame
import Lowering.Source.Site
import Lowering.Types

/-!
# Methods and their scopes

A method knows its parameters, the locals of all its blocks, and the blocks that are open at the
moment. Blocks are numbered in the order in which they are entered, and the numbers start over
when the last block is left. So a second walk over the same blocks meets the same numbers.
Variables have numbers of their own, and these never start over.
-/

namespace Lowering

open Lowering.Source (Site)

structure Block where
  number : Nat
  deriving DecidableEq, Repr, Inhabited

def Block.text (b : Block) : String := s!"block#{b.number}"

inductive ScopeError where
  | noOpenBlock (name : String)
  | blockOpen (name : String)
  | underflow (method : String)
  deriving DecidableEq, Repr

def ScopeError.message : ScopeError → String
  | .noOpenBlock name => s!"local '{name}' declared outside of any block"
  | .blockOpen name => s!"parameter '{name}' declared while a block is open"
  | .underflow method => s!"left more blocks than were entered in method '{method}'"

structure Variable where
  name : String
  type : Ty
  site : Site
  /-- Numbers the variables of a method from 1, in order of declaration. -/
  index : Nat
  /-- A parameter has no block. -/
  block : Option Block
  access : Option Access := none
  deriving DecidableEq, Repr, Inhabited

structure Method where
  name : String
  /-- The main method returns nothing. -/
  returns : Option Ty
  site : Site
  parameters : List Variable := []
  /-- The locals of all blocks, the latest first. -/
  locals : List Variable := []
  /-- The open blocks, the innermost first. -/
  blocks : List Block := []
  nextBlock : Counter := {}
  /-- Index 0 is that of the receiver. -/
  nextIndex : Counter := ⟨1⟩
  deriving DecidableEq, Repr, Inhabited

namespace Method

/-! ## Blocks -/

def enter (m : Method) : Block × Method :=
  let b : Block := ⟨m.nextBlock.draw.1⟩
  (b, { m with blocks := b :: m.blocks, nextBlock := m.nextBlock.draw.2 })

def leave (m : Method) : Except ScopeError Block × Method :=
  match m.blocks with
  | [] => (.error (.underflow m.name), m)
  | b :: rest =>
    let next := if rest.isEmpty then m.nextBlock.reset else m.nextBlock
    (.ok b, { m with blocks := rest, nextBlock := next })

def currentBlock? (m : Method) : Option Block := m.blocks.head?

/-- The number of open blocks. -/
def depth (m : Method) : Nat := m.blocks.length

/-! ## Declarations -/

def numVariables (m : Method) : Nat := m.parameters.length + m.locals.length

def drawIndex (m : Method) : Nat × Method :=
  (m.nextIndex.draw.1, { m with nextIndex := m.nextIndex.draw.2 })

def addParameter (m : Method) (name : String) (type : Ty) (site : Site) :
    Except ScopeError Variable × Method :=
  match m.blocks with
  | [] =>
    let (index, m) := m.drawIndex
    let v : Variable := { name, type, site, index, block := none }
    (.ok v, { m with parameters := m.parameters ++ [v] })
  | _ :: _ => (.error (.blockOpen name), m)

def addLocal (m : Method) (name : String) (type : Ty) (site : Site) :
    Except ScopeError Variable × Method :=
  match m.blocks with
  | [] => (.error (.noOpenBlock name), m)
  | b :: _ =>
    let (index, m) := m.drawIndex
    let v : Variable := { name, type, site, index, block := some b }
    (.ok v, { m with locals := v :: m.locals })

/-! ## Lookup -/

/-- The locals of a name in all blocks, the latest first. -/
def namesakes (m : Method) (name : String) : List Variable := m.locals.filter (·.name == name)

/-- The latest local of a name in one block. -/
def localIn? (m : Method) (name : String) (b : Block) : Option Variable :=
  (m.namesakes name).find? (·.block == some b)

/-- The visible local of a name: that of the innermost open block that has one. -/
def local? (m : Method) (name : String) : Option Variable :=
  let named := m.namesakes name
  m.blocks.findSome? fun b => named.find? (·.block == some b)

def isDeclaredHere (m : Method) (name : String) : Bool :=
  m.currentBlock?.any fun b => (m.localIn? name b).isSome

def parameter? (m : Method) (name : String) : Option Variable :=
  m.parameters.find? (·.name == name)

/-! ## Storage -/

/-- Gives the variable with this index an access. -/
def setAccess (index : Nat) (access : Access) (vs : List Variable) : List Variable :=
  vs.map fun v => if v.index = index then { v with access := some access } else v

/-- Binds the visible local of a name. -/
def bindLocal? (m : Method) (name : String) (access : Access) : Option Method :=
  (m.local? name).map fun v => { m with locals := setAccess v.index access m.locals }

def bindParameter? (m : Method) (name : String) (access : Access) : Option Method :=
  (m.parameter? name).map fun v => { m with parameters := setAccess v.index access m.parameters }

/-- Binds the parameters from the first on, as far as both lists go. -/
def bindParameters (accesses : List Access) (vs : List Variable) : List Variable :=
  match vs, accesses with
  | v :: vs, a :: accesses => { v with access := some a } :: bindParameters accesses vs
  | vs, _ => vs

/-! ## Signature -/

/-- Parameter types in parentheses, then the return type. There is none if one of the types is
undefined. -/
def descriptor? (m : Method) (h : Hierarchy) : Option String := do
  let parameters ← m.parameters.mapM fun v => v.type.descriptor? h
  let returns ← match m.returns with
    | none => some "V"
    | some t => t.descriptor? h
  return "(" ++ String.join parameters ++ ")" ++ returns

end Method

end Lowering
