import Lowering.Proofs.Scope.Unit

/-!
# Scope and storage

The declaration pass and lowering walk over the same declarations. The main statement says, for every
procedure of a program, that they mean the same variable by each of them, that every use of a name goes
to the home of the nearest enclosing declaration, and that no two homes are the same.
-/

namespace Lowering

open Lowering.Source (VarDecl Stmt Program MethodDecl ClassDecl MainClass)

/-- The variables of a method, in the order of their declarations. -/
def Method.variables (m : Method) : List Variable := m.parameters ++ m.locals.reverse

/-- One method as it was declared and as it is after lowering, with the fragment. -/
structure Scoped (println : String) (q : Procedure) (declared bound : Method) (f : Fragment) : Prop where
  /-- The declaration pass numbers the declarations of the source in order. -/
  numbered : declared.variables.map (·.slot.anywhere) = slotsOf none 1 q.body.declarations
  /-- Lowering finds these variables again, each in its place. -/
  kept : bound.variables.map Variable.slot = declared.variables.map Variable.slot
  /-- They are bound to the locals of the frame, one after the other. -/
  homes : bound.variables.map (·.access) = f.frame.locals.map some
  /-- Names go to the homes of the nearest enclosing declarations. -/
  code : BodyCode f.frame println q.body f.body
  distinct : f.frame.locals.Nodup
  fp : .inReg f.frame.fp ∉ f.frame.locals
  rv : .inReg f.frame.rv ∉ f.frame.locals

theorem Method.slots_variables {m : Method} {b : Lower.Body}
    (hparameters : m.parameters.map Variable.slot = slotsOf none 1 b.formals)
    (hlocals : m.locals.map Variable.slot = b.localSlots.reverse) :
    m.variables.map Variable.slot = slotsOf none 1 b.formals ++ b.localSlots := by
  rw [Method.variables, List.map_append, hparameters, List.map_reverse, hlocals, List.reverse_reverse]

theorem Lower.Body.anywhere_slots (b : Lower.Body) :
    (slotsOf none 1 b.formals ++ b.localSlots).map Slot.anywhere = slotsOf none 1 b.declarations := by
  rw [Lower.Body.localSlots, Lower.Body.declarations, slotsOf_append, slotsOf_append, List.map_append,
    List.map_append, map_anywhere_slotsOf, map_anywhere_slotsOf, Stmt.map_anywhere_slotsAll,
    Nat.add_comm 1 b.formals.length]

theorem scoped_of_compiled {println : String} {q : Procedure} {declared bound : Method} {f : Fragment}
    (hdeclared : Declared q.body declared) (hcompiled : Compiled println q bound f) :
    Scoped println q declared bound f := by
  have hslots := Method.slots_variables hdeclared.parameters hdeclared.locals
  have hslots' := Method.slots_variables hcompiled.parameters hcompiled.locals
  obtain ⟨s, hwithin⟩ := hcompiled.within
  have hindex : bound.variables.map (·.index) = List.range' 1 f.frame.locals.length := by
    have hanywhere := congrArg (List.map Slot.index) q.body.anywhere_slots
    rw [map_index_slotsOf, ← hslots', List.map_map, List.map_map, ← hcompiled.count] at hanywhere
    exact hanywhere
  have haccess : bound.variables.map (·.access) =
      (bound.variables.map (·.index)).map fun i => f.frame.locals[i - 1]? := by
    rw [List.map_map]
    refine List.map_inj_left.2 fun v hv => hcompiled.bound v ?_
    simpa [Method.variables] using hv
  refine ⟨?_, hslots'.trans hslots.symm, ?_, hcompiled.code, hwithin.nodup, hwithin.fp.2, hwithin.rv.2⟩
  · rw [← q.body.anywhere_slots, ← hslots, List.map_map]
    rfl
  · rw [haccess, hindex]
    refine List.ext_getElem (by simp) fun i hi hi' => ?_
    have hlt : i < f.frame.locals.length := by simpa using hi'
    simp [hlt]

/-- The declaration pass and lowering agree on scope, and storage never overlaps. -/
theorem lower_scoped (p : Program) (options : Options) (fs : List Fragment) (hdeclare : (declare p).2 = [])
    (hlower : (lower p (declare p).1 options).1 = .ok fs) :
    List.Forall₂ (fun q f => ∃ declared bound, (declare p).1.method? q.cls q.name = some declared ∧
      (lower p (declare p).1 options).2.table.method? q.cls q.name = some bound ∧
      Scoped (options.linkage.linkName .println) q declared bound f) p.procedures fs := by
  have hready : ∀ q ∈ p.procedures, ∃ m, (declare p).1.method? q.cls q.name = some m ∧ Declared q.body m :=
    fun q hq => (declare_outline hdeclare).declared hq
  refine ((List.forall₂_and_left _ _).2 ⟨hready, lower_compiles hdeclare hlower⟩).imp fun q f hboth => ?_
  obtain ⟨⟨declared, hfound, hdeclared⟩, bound, hbound, hcompiled⟩ := hboth
  exact ⟨declared, bound, hfound, hbound, scoped_of_compiled hdeclared hcompiled⟩

theorem exists_of_isOk {ε α : Type} {x : Except ε α} (h : x.isOk = true) : ∃ a, x = .ok a := by
  cases x with
  | error e => cases h
  | ok a => exact ⟨a, rfl⟩

theorem exists_pair_of_length {ε α : Type} {x : Except ε (List α)} (h : x.toOption.map List.length = some 2) :
    ∃ a b, x = .ok [a, b] := by
  cases x with
  | error e => cases h
  | ok as =>
    obtain ⟨a, b, rfl⟩ := List.length_eq_two.1 (Option.some.inj h)
    exact ⟨a, b, rfl⟩

/-- A local or a formal of the type int. -/
def intDecl (name : String) : VarDecl := { type := { val := .int }, name := { val := name } }

/-- Blocks hide names of the blocks around them, sibling blocks use one name, a local hides a formal, and
the result is a comparison. -/
def shadowing : Program where
  main := {
    name := { val := "Main" }, method := { val := "main" }, args := { val := "a" }, locals := [intDecl "x"]
    body := [
      .assign {} "x" (.literal "1"),
      .block {} [intDecl "x"] [.assign {} "x" (.literal "2"), .println {} (.ident "x")],
      .block {} [intDecl "x", intDecl "y"]
        [.ifElse {} (.binary .less (.ident "x") (.ident "y")) (.block {} [intDecl "x"] [.assign {} "x" (.ident "y")])
          (.assign {} "y" (.ident "x"))],
      .println {} (.ident "x")] }
  classes := [{
    name := { val := "A" }, extends? := none, fields := []
    methods := [{
      returns := { val := .boolean }, name := { val := "run" }, formals := [intDecl "x", intDecl "y"]
      locals := [intDecl "x"]
      body := [.assign {} "x" (.ident "y"), .while {} (.binary .less (.ident "x") (.ident "y"))
        (.block {} [intDecl "y"] [.assign {} "y" (.ident "x")])]
      result := .not (.binary .equals (.ident "x") (.ident "y")) }] }]

theorem lower_scoped_shadowing : (declare shadowing).2 = [] ∧
    ∃ fs, (lower shadowing (declare shadowing).1 { linkage := .jvm }).1 = .ok fs ∧
      List.Forall₂ (fun q f => ∃ declared bound, (declare shadowing).1.method? q.cls q.name = some declared ∧
        (lower shadowing (declare shadowing).1 { linkage := .jvm }).2.table.method? q.cls q.name = some bound ∧
        Scoped "java/io/PrintStream/println(I)V" q declared bound f) shadowing.procedures fs := by
  have hdeclare : (declare shadowing).2 = [] := by decide +kernel
  obtain ⟨fs, hfs⟩ : ∃ fs, (lower shadowing (declare shadowing).1 { linkage := .jvm }).1 = .ok fs :=
    exists_of_isOk (by decide +kernel)
  exact ⟨hdeclare, fs, hfs, lower_scoped shadowing { linkage := .jvm } fs hdeclare hfs⟩

end Lowering
