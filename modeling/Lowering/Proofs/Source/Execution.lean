import Lowering.Procedure

/-!
# What source programs do

The meaning of the part of MiniJava that is lowered, told without any code. Values are words.
Variables live in blocks, start without a value whenever their block is entered, and hide those of
the same name around them. Reading a variable that has no value is no execution at all.
-/

namespace Lowering

/-- The word of a truth value. -/
def Word.ofBool (b : Bool) : Word := .narrow (if b then 1 else 0)

namespace Source

/-! ## Variables -/

/-- The variables in scope, the nearest first. A variable has no value before it is assigned to. -/
abbrev Env := List (String × Option Word)

namespace Env

/-- The value of the nearest variable of a name. -/
def read (env : Env) (x : String) : Option Word := (env.lookup x).join

/-- Gives the nearest variable of a name a value. -/
def write (x : String) (w : Word) : Env → Option Env
  | [] => none
  | (y, v) :: rest => if y = x then some ((y, some w) :: rest) else (write x w rest).map ((y, v) :: ·)

/-- The variables of a block that is entered. -/
def fresh (ds : List VarDecl) : Env := ds.map fun d => (d.name.val, none)

end Env

/-! ## Expressions -/

/-- An operation is wide if one of its operands is. -/
def atWidth (narrow : Int32 → Int32 → Int32) (wide : Int64 → Int64 → Int64) : Word → Word → Word
  | .narrow a, .narrow b => .narrow (narrow a b)
  | a, b => .wide (wide a.value b.value)

/-- A comparison compares the numbers, whatever their width. -/
def Op.result? : Op → Word → Word → Option Word
  | .add, a, b => some (atWidth (· + ·) (· + ·) a b)
  | .sub, a, b => some (atWidth (· - ·) (· - ·) a b)
  | .mul, a, b => some (atWidth (· * ·) (· * ·) a b)
  | .equals, a, b => some (.ofBool (a.value = b.value))
  | .notEquals, a, b => some (.ofBool (a.value ≠ b.value))
  | .less, a, b => some (.ofBool (a.value < b.value))
  | .lessEquals, a, b => some (.ofBool (a.value ≤ b.value))
  | .greater, a, b => some (.ofBool (a.value > b.value))
  | .greaterEquals, a, b => some (.ofBool (a.value ≥ b.value))
  | .and, _, _ | .or, _, _ => none

/-- The value of an expression, if all variables in it have one. -/
def Expr.value? (env : Env) : Expr → Option Word
  | .literal spelling => Literal.parse? spelling
  | .bool b => some (.ofBool b)
  | .ident x => env.read x
  | .binary op l r => do op.result? (← l.value? env) (← r.value? env)
  | .not e => do Op.sub.result? (.narrow 1) (← e.value? env)
  | _ => none

/-! ## Statements -/

section

variable (readsArray : Bool)

mutual
/-- Executing the statement changes the variables from `env` to `env'` and prints `out`. An array
assignment changes no variable. Whether it also reads the variable of the array is left open. -/
inductive Exec : (env : Env) → Stmt → (env' : Env) → (out : List Int64) → Prop
  | block {env env' inner site locals body out} :
    ExecAll (Env.fresh locals ++ env) body (inner ++ env') out → inner.length = locals.length →
      Exec env (.block site locals body) env' out
  | ifTrue {env env' site cond body w out} :
    cond.value? env = some w → w.value ≠ 0 → Exec env body env' out →
      Exec env (.ifThen site cond body) env' out
  | ifFalse {env site cond body w} :
    cond.value? env = some w → w.value = 0 → Exec env (.ifThen site cond body) env []
  | elseTrue {env env' site cond body otherwise w out} :
    cond.value? env = some w → w.value ≠ 0 → Exec env body env' out →
      Exec env (.ifElse site cond body otherwise) env' out
  | elseFalse {env env' site cond body otherwise w out} :
    cond.value? env = some w → w.value = 0 → Exec env otherwise env' out →
      Exec env (.ifElse site cond body otherwise) env' out
  | whileTrue {env env₁ env' site cond body w out more} :
    cond.value? env = some w → w.value ≠ 0 → Exec env body env₁ out →
      Exec env₁ (.while site cond body) env' more → Exec env (.while site cond body) env' (out ++ more)
  | whileFalse {env site cond body w} :
    cond.value? env = some w → w.value = 0 → Exec env (.while site cond body) env []
  | println {env site e w} : e.value? env = some w → Exec env (.println site e) env [w.value]
  | assign {env env' site x e w} :
    e.value? env = some w → env.write x w = some env' → Exec env (.assign site x e) env' []
  | assignAt {env site x index e i w} :
    index.value? env = some i → e.value? env = some w → (readsArray = true → (env.read x).isSome = true) →
      Exec env (.assignAt site x index e) env []

inductive ExecAll : (env : Env) → List Stmt → (env' : Env) → (out : List Int64) → Prop
  | nil {env} : ExecAll env [] env []
  | cons {env env₁ env' st rest out more} :
    Exec env st env₁ out → ExecAll env₁ rest env' more → ExecAll env (st :: rest) env' (out ++ more)
end

end

end Source

/-! ## Procedures -/

namespace Lower.Body

open Source (Env ExecAll)

/-- The variables at the start of a procedure: its locals, and around them its formals with the
arguments. -/
def start (b : Body) (args : List Word) : Env :=
  Env.fresh b.locals ++ (b.formals.map (·.name.val)).zip (args.map some)

/-- On these arguments the procedure comes to its end with this result and prints `out`. -/
inductive Executes (readsArray : Bool) (b : Body) (args : List Word) : Option Word → List Int64 → Prop
  | plain {env out} :
    b.result = none → ExecAll readsArray (b.start args) b.stmts env out → Executes readsArray b args none out
  | result {env e w out} :
    b.result = some e → ExecAll readsArray (b.start args) b.stmts env out → e.value? env = some w →
      Executes readsArray b args (some w) out

end Lower.Body

end Lowering
