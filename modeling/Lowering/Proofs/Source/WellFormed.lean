import Lowering.Source.Program
import Mathlib.Logic.Relation
import Mathlib.Tactic.MkIffOfInductiveProp

/-!
# Well-formed programs

What the declarations of a program must keep to, told without a table. Expressions are not looked at.
-/

namespace Lowering

/-! ## Links -/

/-- There is a link from the one name to the other. -/
def Linked (links : List (String × String)) (x y : String) : Prop := (x, y) ∈ links

/-- No way along the links leads back to where it starts. -/
def Acyclic (links : List (String × String)) : Prop := ∀ x, ¬ Relation.TransGen (Linked links) x x

namespace Source

/-! ## Blocks -/

/-- The type is built in or that of one of these classes. -/
def TypeExpr.Known (classes : List String) : TypeExpr → Prop
  | .int | .intArray | .boolean => True
  | .named name => name ∈ classes

/-- One list of declarations: no name stands twice in it, and all types are known. -/
@[mk_iff]
structure Proper (classes : List String) (ds : List VarDecl) : Prop where
  names : (ds.map (·.name.val)).Nodup
  types : ∀ d ∈ ds, d.type.val.Known classes

mutual
/-- Each block of the statement declares properly. A name may stand in several blocks. -/
def Stmt.WellFormed (classes : List String) : Stmt → Prop
  | .block _ locals body => Proper classes locals ∧ Stmt.AllWellFormed classes body
  | .ifThen _ _ body | .while _ _ body => body.WellFormed classes
  | .ifElse _ _ body otherwise => body.WellFormed classes ∧ otherwise.WellFormed classes
  | .println .. | .assign .. | .assignAt .. => True

def Stmt.AllWellFormed (classes : List String) : List Stmt → Prop
  | [] => True
  | st :: rest => st.WellFormed classes ∧ Stmt.AllWellFormed classes rest
end

/-! ## Programs -/

/-- A local may have the name of a formal. -/
@[mk_iff]
structure MethodDecl.WellFormed (classes : List String) (d : MethodDecl) : Prop where
  returns : d.returns.val.Known classes
  formals : Proper classes d.formals
  locals : Proper classes d.locals
  body : Stmt.AllWellFormed classes d.body

@[mk_iff]
structure ClassDecl.WellFormed (classes : List String) (d : ClassDecl) : Prop where
  fields : Proper classes d.fields
  names : (d.methods.map (·.name.val)).Nodup
  methods : ∀ m ∈ d.methods, m.WellFormed classes

/-- From a class to the class it extends. -/
def ClassDecl.link? (d : ClassDecl) : Option (String × String) :=
  d.extends?.map fun parent => (d.name.val, parent.val)

namespace Program

/-- The names of all classes, that of the main class first. -/
def classNames (p : Program) : List String := p.main.name.val :: p.classes.map (·.name.val)

structure WellFormed (p : Program) : Prop where
  names : p.classNames.Nodup
  parents : ∀ link ∈ p.classes.filterMap ClassDecl.link?, link.2 ∈ p.classNames
  acyclic : Acyclic (p.classes.filterMap ClassDecl.link?)
  locals : Proper p.classNames p.main.locals
  body : Stmt.AllWellFormed p.classNames p.main.body
  classes : ∀ d ∈ p.classes, d.WellFormed p.classNames

end Program

end Source

/-! ## Closing a cycle -/

section

variable {links links' : List (String × String)} {a b x y : String}

open Relation (TransGen ReflTransGen)

theorem Acyclic.of_subset (h : Acyclic links') (hsub : links ⊆ links') : Acyclic links := by
  intro x hcycle
  exact h x (TransGen.mono (fun _ _ hlink => hsub hlink) _ _ hcycle)

theorem acyclic_nil : Acyclic [] := by
  intro x hcycle
  obtain ⟨_, hlink, -⟩ := Relation.TransGen.head'_iff.1 hcycle
  cases hlink

theorem transGen_cons (h : TransGen (Linked ((a, b) :: links)) x y) :
    TransGen (Linked links) x y ∨ (ReflTransGen (Linked links) x a ∧ ReflTransGen (Linked links) b y) := by
  have hlink : ∀ {x y}, Linked ((a, b) :: links) x y → (x = a ∧ y = b) ∨ Linked links x y := by
    intro x y hlink
    simpa [Linked] using hlink
  induction h with
  | single hfirst =>
    rcases hlink hfirst with ⟨rfl, rfl⟩ | hold
    · exact .inr ⟨.refl, .refl⟩
    · exact .inl (.single hold)
  | tail _ hlast ih =>
    rcases hlink hlast with ⟨rfl, rfl⟩ | hold
    -- The last link is the new one. It does not matter how often it was taken before.
    · rcases ih with hway | ⟨hway, -⟩
      · exact .inr ⟨hway.to_reflTransGen, .refl⟩
      · exact .inr ⟨hway, .refl⟩
    · rcases ih with hway | ⟨hway, hway'⟩
      · exact .inl (hway.tail hold)
      · exact .inr ⟨hway, hway'.tail hold⟩

theorem acyclic_cons :
    Acyclic ((a, b) :: links) ↔ Acyclic links ∧ ¬ ReflTransGen (Linked links) b a := by
  have hold : ∀ x y, Linked links x y → Linked ((a, b) :: links) x y := fun _ _ => List.mem_cons_of_mem _
  constructor
  · intro h
    refine ⟨h.of_subset (List.subset_cons_self _ _), fun hback => h a ?_⟩
    exact .head' List.mem_cons_self (ReflTransGen.mono hold _ _ hback)
  · rintro ⟨hacyclic, hback⟩ x hcycle
    rcases transGen_cons hcycle with hcycle | ⟨hthere, hhere⟩
    · exact hacyclic x hcycle
    · exact hback (hhere.trans hthere)

end

end Lowering
