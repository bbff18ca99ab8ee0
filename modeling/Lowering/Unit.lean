import Lowering.Noted
import Lowering.Options
import Lowering.Procedure
import Lowering.Table.Basic

/-!
# Lowering a unit

The main procedure first, then the methods of each class in order. One supply serves the whole
unit. If anything cannot be lowered, there are no fragments at all.
-/

namespace Lowering

open Lowering.Source (MainClass MethodDecl ClassDecl Program)

/-- What changes while a unit is lowered. -/
structure UnitWork where
  table : Table
  supply : Supply := {}
  journal : Journal := #[]

/-- Work that lowers a unit and may fail. -/
abbrev LowerUnit := ExceptT LowerError (StateM UnitWork)

namespace LowerUnit

def noted {α : Type} (x : Noted α) : LowerUnit α := modifyGet fun w =>
  let (a, journal) := x.run w.journal
  (a, { w with journal })

def note (e : Event) : LowerUnit Unit := noted (Noted.note e)

/-- A class and one of its methods, by their names. -/
structure Place where
  classId : ClassId
  cls : Class
  methodId : MethodId
  method : Method

def findPlace (t : Table) (cls method : String) : Except LowerError Place := do
  let some (classId, c) := t.find? cls | .error (.unknownClass cls)
  let some (methodId, m) := c.find? method | .error (.unknownMethod cls method)
  return ⟨classId, c, methodId, m⟩

/-- The label of a procedure. -/
def procedureLabel (cls method : String) : Tree.Label := ⟨cls ++ "$" ++ method⟩

/-- Lowers one procedure. Its method goes back to the table even if that fails. -/
def lowerProcedure (options : Options) (storage : Storage) (p : Place) (b : Lower.Body) :
    LowerUnit Fragment := ExceptT.mk (modifyGet fun w =>
  let formals := p.method.parameters.length
  let name := procedureLabel p.cls.name p.method.name
  let ((created, supply), journal) := (Noted.createFrame name formals w.supply).run w.journal
  let frame := if storage.formalsKnown then created else { created with formals := [] }
  let method := { p.method with
    parameters := Method.bindParameters frame.formals p.method.parameters }
  let env : Surroundings := {
    isField := fun name => (w.table.field? p.classId name).isSome
    println := options.linkage.linkName .println
    storage }
  let (result, done) := (Lower.lowerProcedure env b).run.run { method, frame, supply, journal }
  (result.map fun body => ⟨done.frame, body⟩,
    { table := w.table.setMethod p.classId p.methodId done.method
      supply := done.supply
      journal := done.journal }))

def lowerMain (options : Options) (storage : Storage) (d : MainClass) : LowerUnit Fragment := do
  let place ← findPlace (← get).table d.name.val d.method.val
  note (.mainStarted d.name.val d.method.val)
  lowerProcedure options storage place { locals := d.locals, stmts := d.body }

def lowerMethod (options : Options) (storage : Storage) (cls : String) (d : MethodDecl) :
    LowerUnit Fragment := do
  let place ← findPlace (← get).table cls d.name.val
  note (.methodStarted cls d.name.val)
  lowerProcedure options storage place
    { formals := d.formals, locals := d.locals, stmts := d.body, result := some d.result }

def lowerClass (options : Options) (storage : Storage) (d : ClassDecl) :
    LowerUnit (List Fragment) := do
  note (.classStarted d.name.val)
  d.methods.mapM (lowerMethod options storage d.name.val)

def noteDump (format : DumpFormat) (f : Fragment) : LowerUnit Unit := do
  let text ← noted (Noted.dump f format)
  note (.dumped text)

def lowerProgram (options : Options) (storage : Storage) (p : Program) :
    LowerUnit (List Fragment) := do
  let main ← lowerMain options storage p.main
  let methods ← p.classes.mapM (lowerClass options storage)
  let fragments := main :: methods.flatten
  match options.dumpFragments with
  | some format => fragments.forM (noteDump format)
  | none => pure ()
  return fragments

end LowerUnit

/-- The fragments of a program, with the table and the journal after lowering it. -/
def lower (p : Program) (t : Table) (options : Options := {}) (storage : Storage := {}) :
    Except LowerError (List Fragment) × UnitWork :=
  (LowerUnit.lowerProgram options storage p).run.run { table := t }

end Lowering
