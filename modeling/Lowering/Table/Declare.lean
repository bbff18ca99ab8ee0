import Lowering.Report.Diagnostic
import Lowering.Source.Program
import Lowering.Table.Basic

/-!
# The declaration pass

Fills a table with every class, field, method, parameter and local of a program. A declaration
that cannot be accepted is reported and left out, and the pass goes on. Blocks are entered and
left where lowering enters and leaves them: around each method body and at each block statement.
-/

namespace Lowering

open Lowering.Source (Site Located TypeExpr VarDecl Stmt MethodDecl ClassDecl MainClass Program)

/-- Work that reports diagnostics. -/
abbrev Reporting := StateM (List Diagnostic)

namespace Reporting

def report (kind : Diagnostic.Kind) (site : Site) (args : List String) : Reporting Unit :=
  modify (· ++ [⟨kind, site, args⟩])

/-- Goes on with the method, and reports it if the method refused. -/
def settle {α : Type} (site : Site) : Except ScopeError α × Method → Reporting Method
  | (.ok _, m) => pure m
  | (.error e, m) => do
    report .internal site [e.message]
    return m

/-! ## Bodies -/

def resolveType (t : Table) (type : Located TypeExpr) : Reporting Ty :=
  match type.val with
  | .int => pure .int
  | .intArray => pure .intArray
  | .boolean => pure .boolean
  | .named name =>
    match t.classId? name with
    | some id => pure (.cls id)
    | none => do
      report .undefinedClass type.site [name]
      return .undefined

def declareLocal (t : Table) (m : Method) (d : VarDecl) : Reporting Method := do
  let type ← resolveType t d.type
  if m.isDeclaredHere d.name.val then
    report .duplicateVariable d.name.site [d.name.val]
    return m
  settle d.name.site (m.addLocal d.name.val type d.name.site)

/-- Runs `contents` in a new block. -/
def inBlock (m : Method) (contents : Method → Reporting Method) : Reporting Method := do
  let m ← contents m.enter.2
  settle m.site m.leave

mutual
def declareStmt (t : Table) : Stmt → Method → Reporting Method
  | .block _ locals body, m => inBlock m fun m => do
    let m ← locals.foldlM (declareLocal t) m
    declareStmts t body m
  | .ifThen _ _ body, m => declareStmt t body m
  | .ifElse _ _ body otherwise, m => do
    let m ← declareStmt t body m
    declareStmt t otherwise m
  | .while _ _ body, m => declareStmt t body m
  | .println .., m | .assign .., m | .assignAt .., m => pure m

def declareStmts (t : Table) : List Stmt → Method → Reporting Method
  | [], m => pure m
  | s :: rest, m => do
    let m ← declareStmt t s m
    declareStmts t rest m
end

def declareBody (t : Table) (locals : List VarDecl) (body : List Stmt) (m : Method) :
    Reporting Method :=
  inBlock m fun m => do
    let m ← locals.foldlM (declareLocal t) m
    declareStmts t body m

/-! ## Members -/

def declareFormal (t : Table) (m : Method) (d : VarDecl) : Reporting Method := do
  let type ← resolveType t d.type
  if (m.parameter? d.name.val).isSome then
    report .duplicateParameter d.name.site [d.name.val, m.name]
    return m
  settle d.name.site (m.addParameter d.name.val type d.name.site)

def declareField (t : Table) (c : Class) (d : VarDecl) : Reporting Class := do
  let type ← resolveType t d.type
  match c.addField d.name.val type d.name.site with
  | .ok c => return c
  | .error _ =>
    report .duplicateField d.name.site [d.name.val, c.name]
    return c

def declareMethod (t : Table) (c : Class) (d : MethodDecl) : Reporting Class := do
  let returns ← resolveType t d.returns
  let m : Method := { name := d.name.val, returns := some returns, site := d.name.site }
  match c.addMethod m with
  | .error _ =>
    report .duplicateMethod d.name.site [d.name.val, c.name]
    return c
  | .ok (id, c) =>
    let m ← d.formals.foldlM (declareFormal t) m
    let m ← declareBody t d.locals d.body m
    return c.setMethod id m

def declareMembers (t : Table) (d : ClassDecl) (c : Class) : Reporting Class := do
  let c ← d.fields.foldlM (declareField t) c
  d.methods.foldlM (declareMethod t) c

def declareMain (t : Table) (d : MainClass) (c : Class) : Reporting Class := do
  let m : Method := { name := d.method.val, returns := none, site := d.method.site }
  match c.addMethod m with
  | .error _ => return c
  | .ok (id, c) =>
    let m ← declareBody t d.locals d.body m
    return c.setMethod id m

/-! ## Classes -/

def declareClass (t : Table) (name : Located String) : Reporting (Option ClassId × Table) :=
  match t.addClass name.val name.site with
  | .ok (id, t) => pure (some id, t)
  | .error _ => do
    report .duplicateClass name.site [name.val]
    return (none, t)

/-- Declares the classes in order, and gives those that were accepted. -/
def declareClasses : List ClassDecl → Table → Reporting (List (ClassId × ClassDecl) × Table)
  | [], t => pure ([], t)
  | d :: rest, t => do
    let (id?, t) ← declareClass t d.name
    let (accepted, t) ← declareClasses rest t
    return (match id? with
      | some id => (id, d) :: accepted
      | none => accepted, t)

/-- Links a class to the class it extends, unless that would close a cycle. -/
def linkSuperclass (t : Table) : ClassId × ClassDecl → Reporting Table
  | (id, d) =>
    match d.extends? with
    | none => pure t
    | some parent =>
      match t.classId? parent.val with
      | none => do
        report .undefinedClass parent.site [parent.val]
        return t
      | some superclass => do
        if t.hierarchy.isSubclass superclass id then
          report .cyclicInheritance parent.site [d.name.val]
          return t
        return t.setSuperclass id (some superclass)

/-- Replaces a class of the table by what `declare` makes of it. -/
def updateClass (t : Table) (id : ClassId) (declare : Class → Reporting Class) :
    Reporting Table :=
  match t.class? id with
  | none => pure t
  | some c => do return t.setClass id (← declare c)

def declareProgram (p : Program) : Reporting Table := do
  let (main?, t) ← declareClass {} p.main.name
  let (accepted, t) ← declareClasses p.classes t
  let t ← accepted.foldlM linkSuperclass t
  let t ← match main? with
    | some id => updateClass t id (declareMain t p.main)
    | none => pure t
  accepted.foldlM (fun t (id, d) => updateClass t id (declareMembers t d)) t

end Reporting

/-- The table of a program, and what is wrong with the program's declarations. -/
def declare (p : Program) : Table × List Diagnostic := (Reporting.declareProgram p).run []

end Lowering
