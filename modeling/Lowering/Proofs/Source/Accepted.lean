import Lowering.Proofs.Scope.Program
import Lowering.Proofs.Source.Inheritance

/-!
# What is accepted of a program

Of several declarations with one name in one place, the first one is accepted: among the formals of a
method, among the locals of a block, among the methods of a class. A local may have the name of a
formal or that of a local in a block around it.
-/

namespace Lowering

namespace Source

section

variable {α : Type} {name : α → String} {d : α}

/-- Those with a name that none before them has. -/
def firstNamed (name : α → String) : List α → List α
  | [] => []
  | d :: rest => d :: (firstNamed name rest).filter (name · ≠ name d)

theorem nodup_firstNamed (name : α → String) (ds : List α) : ((firstNamed name ds).map name).Nodup := by
  induction ds with
  | nil => exact List.nodup_nil
  | cons d rest ih =>
    rw [firstNamed, List.map_cons, List.nodup_cons]
    constructor
    · simp
    · exact ih.sublist (List.filter_sublist.map name)

theorem filter_firstNamed_of_mem {taken : List String} (rest : List α) (h : name d ∈ taken) :
    (firstNamed name (d :: rest)).filter (name · ∉ taken) = (firstNamed name rest).filter (name · ∉ taken) := by
  rw [firstNamed, List.filter_cons_of_neg (by simpa using h), List.filter_filter]
  congr 1
  funext e
  grind

theorem filter_firstNamed_of_notMem {taken taken' : List String} (rest : List α) (h : name d ∉ taken)
    (htaken : ∀ x, x ∈ taken' ↔ x = name d ∨ x ∈ taken) :
    (firstNamed name (d :: rest)).filter (name · ∉ taken) = d :: (firstNamed name rest).filter (name · ∉ taken') := by
  rw [firstNamed, List.filter_cons_of_pos (by simpa using h), List.filter_filter]
  congr 2
  funext e
  grind

end

/-! ## Statements -/

mutual
/-- The statement with the locals that its blocks accept. -/
def Stmt.accepted : Stmt → Stmt
  | .block site locals body => .block site (firstNamed (·.name.val) locals) (Stmt.acceptedAll body)
  | .ifThen site cond body => .ifThen site cond body.accepted
  | .ifElse site cond body otherwise => .ifElse site cond body.accepted otherwise.accepted
  | .while site cond body => .while site cond body.accepted
  | .println site value => .println site value
  | .assign site name value => .assign site name value
  | .assignAt site name index value => .assignAt site name index value

def Stmt.acceptedAll : List Stmt → List Stmt
  | [] => []
  | st :: rest => st.accepted :: Stmt.acceptedAll rest
end

end Source

open Lowering.Source

/-! ## Procedures -/

/-- The procedure with the formals and locals that are accepted. -/
def Procedure.accepted (q : Procedure) : Procedure :=
  { q with body := { q.body with
      formals := firstNamed (·.name.val) q.body.formals
      locals := firstNamed (·.name.val) q.body.locals
      stmts := Stmt.acceptedAll q.body.stmts } }

namespace Source

def ClassDecl.accepted (d : ClassDecl) : List Procedure :=
  (firstNamed (·.name.val) d.methods).map fun m => (m.procedure d.name.val).accepted

/-- The main class, then the classes that are accepted, each with its procedures. -/
def Program.accepted (p : Program) : List (String × List Procedure) :=
  (p.main.name.val, [p.main.procedure.accepted]) :: p.firsts.map fun d => (d.name.val, d.accepted)

end Source

end Lowering
