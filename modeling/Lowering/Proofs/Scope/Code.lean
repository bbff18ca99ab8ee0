import Lowering.Proofs.Lowered.Value
import Lowering.Proofs.Scope.Slots

/-!
# The code of a procedure

What a procedure lowers to, told from its source alone. A name stands for the nearest enclosing
declaration of it, the declarations are numbered in order, and the home of a declaration is the
local of the frame with its number.
-/

namespace Lowering

open Lowering.Tree (Temp Label Stm)
open Lowering.Source (VarDecl Stmt)

/-! ## Scopes -/

/-- The scopes around a place in the source, the innermost first. Each has its names with the
numbers of their declarations. -/
abbrev Scopes := List (List (String × Nat))

/-- The number of the nearest enclosing declaration of a name. -/
def Scopes.slot? (scopes : Scopes) (x : String) : Option Nat := scopes.findSome? (·.lookup x)

namespace Frame

/-- The code of the variable with this number. Numbers start at one. -/
def home? (f : Frame) (slot : Nat) : Option Tree.Expr :=
  f.locals[slot - 1]?.map (Access.exp (.temp f.fp))

/-- The code of the variable that a name stands for. -/
def place? (f : Frame) (scopes : Scopes) (x : String) : Option Tree.Expr :=
  (scopes.slot? x).bind f.home?

/-- The temp is no variable's home, nor the frame pointer, nor the place of the result. -/
def Spare (f : Frame) (t : Temp) : Prop := .inReg t ∉ f.locals ∧ t ≠ f.fp ∧ t ≠ f.rv

end Frame

/-! ## Statements -/

section

variable (f : Frame) (println : String)

/-- A local needs no code but a mention of its home. -/
def LocalsCode (first : Nat) (ds : List VarDecl) (cs : List Stm) : Prop :=
  List.Forall₂ (fun d c => ∃ home, f.home? d.2 = some home ∧ c = .exp home) (numbered first ds) cs

mutual
/-- The code of a statement within scopes. Its declarations are numbered from `first`. -/
inductive StmtCode : (scopes : Scopes) → (first : Nat) → Stmt → Stm → Prop
  | block {scopes first site locals body ds cs} :
    LocalsCode f first locals ds →
      StmtsCode (numbered first locals :: scopes) (first + locals.length) body cs →
      StmtCode scopes first (.block site locals body) (.ofList (ds ++ cs))
  | ifThen {scopes first site cond body test b yes no} :
    BranchCode (f.place? scopes) f.Spare yes no cond test → StmtCode scopes first body b →
      StmtCode scopes first (.ifThen site cond body) (.ofList [test, .label yes, b, .label no])
  | ifElse {scopes first site cond body otherwise test b o yes no join} :
    BranchCode (f.place? scopes) f.Spare yes no cond test → StmtCode scopes first body b →
      StmtCode scopes (first + body.declarations.length) otherwise o →
      StmtCode scopes first (.ifElse site cond body otherwise)
        (.ofList [test, .label yes, b, .jumpTo join, .label no, o, .label join])
  | while {scopes first site cond body test b start inside exit} :
    BranchCode (f.place? scopes) f.Spare inside exit cond test → StmtCode scopes first body b →
      StmtCode scopes first (.while site cond body)
        (.ofList [.label start, test, .label inside, b, .jumpTo start, .label exit])
  | println {scopes first site value v} :
    ValueCode (f.place? scopes) f.Spare value v →
      StmtCode scopes first (.println site value) (.exp (externalCall println [v]))
  | assign {scopes first site x value target v} :
    f.place? scopes x = some target → ValueCode (f.place? scopes) f.Spare value v →
      StmtCode scopes first (.assign site x value) (.move target v)
  | assignAt {scopes first site x index value base i v} :
    f.place? scopes x = some base → ValueCode (f.place? scopes) f.Spare index i →
      ValueCode (f.place? scopes) f.Spare value v →
      StmtCode scopes first (.assignAt site x index value) (.move (.binOp .plus base i) v)

inductive StmtsCode : (scopes : Scopes) → (first : Nat) → List Stmt → List Stm → Prop
  | nil {scopes first} : StmtsCode scopes first [] []
  | cons {scopes first st rest c cs} :
    StmtCode scopes first st c → StmtsCode scopes (first + st.declarations.length) rest cs →
      StmtsCode scopes first (st :: rest) (c :: cs)
end

/-! ## Bodies -/

/-- A formal moves from where it comes in to its home. -/
def FormalsCode (first : Nat) (ds : List VarDecl) (cs : List Stm) : Prop :=
  List.Forall₂ (fun d c => ∃ home incoming, f.home? d.2 = some home ∧ f.formals[d.2 - 1]? = some incoming ∧
    c = .exp (.eseq (.move home (incoming.exp (.temp f.fp))) home)) (numbered first ds) cs

/-- The result goes to its place in the frame. -/
inductive ResultCode (scopes : Scopes) : Option Source.Expr → List Stm → Prop
  | none : ResultCode scopes none []
  | some {e v} :
    ValueCode (f.place? scopes) f.Spare e v → ResultCode scopes (some e) [.move (.temp f.rv) v]

/-- The scopes of a body: its locals, and around them its formals. -/
def Lower.Body.scopes (b : Lower.Body) : Scopes :=
  [numbered (b.formals.length + 1) b.locals, numbered 1 b.formals]

/-- The code of a body. -/
inductive BodyCode (b : Lower.Body) : Stm → Prop
  | mk {formals locals stmts result} :
    FormalsCode f 1 b.formals formals → LocalsCode f (b.formals.length + 1) b.locals locals →
      StmtsCode f println b.scopes (b.formals.length + 1 + b.locals.length) b.stmts stmts →
      ResultCode f b.scopes b.result result →
      BodyCode b (f.bracket (.ofList (formals ++ locals ++ stmts ++ result)))

end

end Lowering
