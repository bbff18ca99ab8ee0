import Lowering.Source.Site

/-!
# Source programs

The syntax of MiniJava. Positions are kept where a message can show them: at statements, at
declared names and at the types of declarations. Equality disregards them.
-/

namespace Lowering.Source

/-! ## Types and operators -/

/-- A type as it is written. -/
inductive TypeExpr where
  | int
  | intArray
  | boolean
  | named (name : String)
  deriving DecidableEq, Repr, Inhabited

def TypeExpr.text : TypeExpr → String
  | .int => "int"
  | .intArray => "int[]"
  | .boolean => "boolean"
  | .named name => name

inductive Op where
  | and
  | or
  | equals
  | notEquals
  | less
  | lessEquals
  | greater
  | greaterEquals
  | add
  | sub
  | mul
  deriving DecidableEq, Repr, Inhabited

namespace Op

def all : List Op :=
  [.and, .or, .equals, .notEquals, .less, .lessEquals, .greater, .greaterEquals, .add, .sub, .mul]

def text : Op → String
  | .and => "&&"
  | .or => "||"
  | .equals => "=="
  | .notEquals => "!="
  | .less => "<"
  | .lessEquals => "<="
  | .greater => ">"
  | .greaterEquals => ">="
  | .add => "+"
  | .sub => "-"
  | .mul => "*"

def ofText? (s : String) : Option Op := all.find? (·.text == s)

def isRelational : Op → Bool
  | .equals | .notEquals | .less | .lessEquals | .greater | .greaterEquals => true
  | .and | .or | .add | .sub | .mul => false

end Op

/-! ## Expressions -/

inductive Expr where
  | binary (op : Op) (left right : Expr)
  | not (operand : Expr)
  | invoke (target : Expr) (method : String) (args : List Expr)
  | index (array index : Expr)
  | length (array : Expr)
  | new (cls : String)
  | newArray (size : Expr)
  /-- An integer literal, as it is spelled. -/
  | literal (spelling : String)
  | bool (value : Bool)
  | ident (name : String)
  | this

instance : Inhabited Expr := ⟨.this⟩

/-- The literal of a number. -/
def Expr.ofInt (n : Int) : Expr := .literal (toString n)

mutual
def Expr.beq : Expr → Expr → Bool
  | .binary o a b, .binary o' a' b' => o == o' && a.beq a' && b.beq b'
  | .not a, .not b => a.beq b
  | .invoke a m as, .invoke b n bs => a.beq b && m == n && Expr.beqAll as bs
  | .index a i, .index b j => a.beq b && i.beq j
  | .length a, .length b => a.beq b
  | .new c, .new d => c == d
  | .newArray a, .newArray b => a.beq b
  | .literal s, .literal t => s == t
  | .bool v, .bool w => v == w
  | .ident x, .ident y => x == y
  | .this, .this => true
  | _, _ => false

def Expr.beqAll : List Expr → List Expr → Bool
  | [], [] => true
  | a :: as, b :: bs => a.beq b && Expr.beqAll as bs
  | _, _ => false
end

instance : BEq Expr := ⟨Expr.beq⟩

/-! ## Declarations and statements -/

/-- A field, a formal or a local. -/
structure VarDecl where
  type : Located TypeExpr
  name : Located String
  deriving BEq, Repr, Inhabited

inductive Stmt where
  | block (site : Site) (locals : List VarDecl) (body : List Stmt)
  | ifThen (site : Site) (cond : Expr) (body : Stmt)
  | ifElse (site : Site) (cond : Expr) (body otherwise : Stmt)
  | while (site : Site) (cond : Expr) (body : Stmt)
  | println (site : Site) (value : Expr)
  | assign (site : Site) (name : String) (value : Expr)
  | assignAt (site : Site) (name : String) (index value : Expr)

instance : Inhabited Stmt := ⟨.block {} [] []⟩

def Stmt.site : Stmt → Site
  | .block s .. | .ifThen s .. | .ifElse s .. | .while s .. | .println s .. | .assign s ..
  | .assignAt s .. => s

mutual
def Stmt.beq : Stmt → Stmt → Bool
  | .block _ ls b, .block _ ls' b' => ls == ls' && Stmt.beqAll b b'
  | .ifThen _ c b, .ifThen _ c' b' => c == c' && b.beq b'
  | .ifElse _ c b o, .ifElse _ c' b' o' => c == c' && b.beq b' && o.beq o'
  | .while _ c b, .while _ c' b' => c == c' && b.beq b'
  | .println _ v, .println _ v' => v == v'
  | .assign _ x v, .assign _ x' v' => x == x' && v == v'
  | .assignAt _ x i v, .assignAt _ x' i' v' => x == x' && i == i' && v == v'
  | _, _ => false

def Stmt.beqAll : List Stmt → List Stmt → Bool
  | [], [] => true
  | a :: as, b :: bs => a.beq b && Stmt.beqAll as bs
  | _, _ => false
end

instance : BEq Stmt := ⟨Stmt.beq⟩

/-! ## Programs -/

structure MethodDecl where
  returns : Located TypeExpr
  name : Located String
  formals : List VarDecl
  locals : List VarDecl
  body : List Stmt
  result : Expr
  deriving BEq, Inhabited

structure ClassDecl where
  name : Located String
  extends? : Option (Located String)
  fields : List VarDecl
  methods : List MethodDecl
  deriving BEq, Inhabited

/-- The class of the main procedure. -/
structure MainClass where
  name : Located String
  method : Located String
  /-- The name of the main procedure's only formal. Its body cannot use it. -/
  args : Located String
  locals : List VarDecl
  body : List Stmt
  deriving BEq, Inhabited

structure Program where
  main : MainClass
  classes : List ClassDecl
  deriving BEq, Inhabited

end Lowering.Source
