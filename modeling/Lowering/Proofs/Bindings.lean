import Lowering.Proofs.Declaration.Histories
import Lowering.Proofs.Scoping
import Lowering.Proofs.Woven

/-!
# Lowering binds variables and nothing else

Lowering works on the table of the declaration pass, and opens and closes blocks of its methods on the
way. The main statement says that nothing of that is left when lowering ends, with fragments or with an
error: except for the storage of parameters and locals, the table is what it was.
-/

namespace Lowering

open Lowering.Source (Site VarDecl Program)

/-! ## Tables without storage -/

/-- All but the storage. -/
def Variable.bare (v : Variable) : Variable := { v with access := none }

def Method.bare (m : Method) : Method :=
  { m with parameters := m.parameters.map Variable.bare, locals := m.locals.map Variable.bare }

def Class.bare (c : Class) : Class := { c with methods := c.methods.map Method.bare }

def Table.bare (t : Table) : Table := ⟨t.classes.map Class.bare⟩

namespace Method

variable {m m' m'' : Method} {x : String} {a : Access}

theorem bare_setAccess (index : Nat) (a : Access) (vs : List Variable) :
    (setAccess index a vs).map Variable.bare = vs.map Variable.bare := by
  rw [setAccess, List.map_map]
  refine List.map_congr_left fun v _ => ?_
  rw [Function.comp_apply]
  split <;> rfl

theorem bare_bindParameters (as : List Access) (vs : List Variable) :
    (bindParameters as vs).map Variable.bare = vs.map Variable.bare := by
  fun_induction bindParameters as vs with
  | case1 as v vs a ih => rw [List.map_cons, List.map_cons, ih]; rfl
  | case2 => rfl

theorem bare_bindLocal? (h : m.bindLocal? x a = some m') : m'.bare = m.bare := by
  obtain ⟨v, -, rfl⟩ := Option.map_eq_some_iff.1 h
  rw [bare, bare_setAccess]
  rfl

theorem bare_bindParameter? (h : m.bindParameter? x a = some m') : m'.bare = m.bare := by
  obtain ⟨v, -, rfl⟩ := Option.map_eq_some_iff.1 h
  rw [bare, bare_setAccess]
  rfl

theorem blocks_of_bare (h : m'.bare = m.bare) : m'.blocks = m.blocks ∧ m'.nextBlock = m.nextBlock :=
  ⟨show m'.bare.blocks = m.bare.blocks by rw [h], show m'.bare.nextBlock = m.bare.nextBlock by rw [h]⟩

theorem Rested.of_bare (m m' : Method) (h : m'.bare = m.bare) (hrested : m.Rested) : m'.Rested := by
  obtain ⟨hblocks, hnext⟩ := blocks_of_bare h
  rw [Rested, hblocks, hnext]
  exact hrested

/-! ## Inside a procedure -/

/-- All but the storage and the number of the next block. -/
def steady (m : Method) : Method := { m.bare with nextBlock := {} }

theorem bare_of_steady (h : m'.steady = m.steady) (hnext : m'.nextBlock = m.nextBlock) : m'.bare = m.bare := by
  have hbare : ∀ n : Method, n.bare = { n.steady with nextBlock := n.nextBlock } := fun _ => rfl
  rw [hbare m', hbare m, h, hnext]

/-- Inside a block, the number of the next block grows. Outside, it can only start over. -/
structure Kept (m m' : Method) : Prop where
  steady : m'.steady = m.steady
  closed : m.blocks = [] → m'.nextBlock = m.nextBlock ∨ m'.nextBlock = {}

namespace Kept

theorem of_bare (h : m'.bare = m.bare) : Kept m m' := by
  refine ⟨?_, fun _ => .inl (blocks_of_bare h).2⟩
  rw [Method.steady, Method.steady, h]

theorem blocks (h : Kept m m') : m'.blocks = m.blocks := show m'.steady.blocks = m.steady.blocks by rw [h.steady]

theorem trans (h : Kept m m') (h' : Kept m' m'') : Kept m m'' := by
  refine ⟨h'.steady.trans h.steady, fun hclosed => ?_⟩
  rcases h'.closed (h.blocks.trans hclosed) with hnext | hnext
  · rw [hnext]
    exact h.closed hclosed
  · exact .inr hnext

theorem leave (h : Kept m.enter.2 m') : ∃ b m'', m'.leave = (.ok b, m'') ∧ Kept m m'' := by
  have hblocks : m'.blocks = m.enter.1 :: m.blocks := h.blocks
  refine ⟨_, _, by rw [Method.leave, hblocks], ?_, fun hclosed => .inr ?_⟩
  · exact congrArg (fun n : Method => { n with blocks := m.blocks }) h.steady
  · rw [hclosed]
    rfl

end Kept

end Method

namespace Lower

variable {env : Surroundings} {α : Type} {x : Lower α}

theorem kept_lowerLocal (d : VarDecl) (w : Work) : w.method.Kept ((lowerLocal env d).run.run w).2.method := by
  cases hm : w.method.bindLocal? d.name.val (allocated env w).1 with
  | none =>
    rw [run_lowerLocal_unknown hm]
    exact .of_bare rfl
  | some m =>
    rw [run_lowerLocal_bound hm]
    exact .of_bare (Method.bare_bindLocal? hm)

theorem kept_lowerFormal (d : VarDecl) (w : Work) : w.method.Kept ((lowerFormal env d).run.run w).2.method := by
  cases hv : w.method.parameter? d.name.val with
  | none =>
    rw [run_lowerFormal_unknown hv]
    exact .of_bare rfl
  | some v =>
    cases ha : v.access with
    | none =>
      rw [run_lowerFormal_unbound hv ha]
      exact .of_bare rfl
    | some a =>
      have hm : w.method.bindParameter? d.name.val (allocated env w).1 = some _ := congrArg (Option.map _) hv
      rw [run_lowerFormal_bound hv ha hm]
      exact .of_bare (Method.bare_bindParameter? hm)

theorem Woven.kept (h : Woven env x) (w : Work) : w.method.Kept (x.run.run w).2.method := by
  induction h generalizing w with
  | pure | throw | draw | note => exact .of_bare rfl
  | @bind _ _ x f _ _ hx hf =>
    have hfirst := hx w
    rcases hrun : x.run.run w with ⟨e | a, w'⟩ <;> rw [hrun] at hfirst
    · rw [run_bind_error hrun]
      exact hfirst
    · rw [run_bind_ok hrun]
      exact hfirst.trans (hf a w')
  | @inBlock _ x _ hx =>
    obtain ⟨b, m, hleave, hkept⟩ := (hx w.entering).leave
    rw [run_inBlock, hleave]
    exact hkept
  | frame f _ hf => exact hf w.frame w
  | lowerLocal d => exact kept_lowerLocal d w
  | lowerFormal d => exact kept_lowerFormal d w
  | resolve x =>
    rw [state_resolve]
    exact .of_bare rfl
  | checkBalanced =>
    rw [run_checkBalanced]
    exact .of_bare rfl

theorem bare_lowerProcedure {w : Work} (hrested : w.method.Rested) (b : Body) :
    ((lowerProcedure env b).run.run w).2.method.bare = w.method.bare := by
  by_cases hclosed : w.method.blocks = []
  -- The number of the next block starts over with the last block, as it was before.
  · have hkept := (woven_lowerProcedure env b).kept w
    have hnext : ((lowerProcedure env b).run.run w).2.method.nextBlock = w.method.nextBlock :=
      (hkept.closed hclosed).elim id fun hnew => hnew.trans (hrested hclosed).symm
    exact Method.bare_of_steady hkept.steady hnext
  -- The procedure is refused before it enters a block.
  · have hopen : w.method.depth ≠ 0 := by simpa [Method.depth] using hclosed
    have hcheck := run_checkBalanced w
    rw [if_pos hopen] at hcheck
    rw [lowerProcedure, run_bind_error hcheck]

end Lower

/-! ## Inside a unit -/

namespace Table

variable {t t' : Table}

/-- The method at a position. -/
def at? (t : Table) (id : ClassId) (i : MethodId) : Option Method := (t.class? id).bind (·.method? i)

theorem setMethod_eq {c : Class} {i : ClassId} (hc : t.classes[i.index]? = some c) (j : MethodId) (m : Method) :
    t.setMethod i j m = ⟨t.classes.set i.index (c.setMethod j m)⟩ := by
  rw [setMethod, List.modify_eq_set_getElem?, hc]
  rfl

theorem bare_setMethod {c : Class} {m m' : Method} {i : ClassId} {j : MethodId} (hc : t.classes[i.index]? = some c)
    (hm : c.methods[j.index]? = some m) (hbare : m'.bare = m.bare) : (t.setMethod i j m').bare = t.bare := by
  have hmethods : (c.setMethod j m').bare = c.bare := by
    rw [Class.bare, Class.bare, Class.setMethod, map_set_of_eq hm hbare]
  rw [setMethod_eq hc, bare, bare, map_set_of_eq hc hmethods]

theorem All.of_bare {P : Method → Prop} (hP : ∀ m m' : Method, m'.bare = m.bare → P m → P m') (h : t.All P)
    (hbare : t'.bare = t.bare) : t'.All P := by
  intro c' hc' m' hm'
  have hc : c'.bare ∈ t.bare.classes := hbare ▸ List.mem_map_of_mem hc'
  obtain ⟨c, hc, hclass⟩ := List.mem_map.1 hc
  have hm : m'.bare ∈ c.bare.methods := hclass ▸ List.mem_map_of_mem hm'
  obtain ⟨m, hm, hmethod⟩ := List.mem_map.1 hm
  exact hP m m' hmethod.symm (h c hc m hm)

end Table

namespace LowerUnit

variable {options : Options} {storage : Storage} {α : Type} {x : LowerUnit α}

theorem Woven.bare (h : Woven options storage x) (u : UnitWork) (hrested : u.table.All Method.Rested) :
    (x.run.run u).2.table.bare = u.table.bare := by
  induction h generalizing u with
  | pure | noted => rfl
  | @bind _ _ x f _ _ hx hf =>
    have hfirst := hx u hrested
    rcases hrun : x.run.run u with ⟨e | a, u'⟩ <;> rw [hrun] at hfirst
    · rw [run_bind_error hrun]
      exact hfirst
    · rw [run_bind_ok hrun, hf a u' (hrested.of_bare Method.Rested.of_bare hfirst)]
      exact hfirst
  | lowerAt cls method e b =>
    cases hp : findPlace u.table cls method with
    | error err => rw [run_lowerAt_error hp]
    | ok p =>
      rw [run_lowerAt_ok hp]
      obtain ⟨hcls, hmethod⟩ := findPlace_eq_ok hp
      have hc := (findNamed_eq_some hcls).1
      have hm := (findNamed_eq_some hmethod).1
      refine Table.bare_setMethod hc hm ?_
      have hstart : (startIn storage p (u.noting e)).method.bare = p.method.bare := by
        rw [startIn, Method.bare, Method.bare_bindParameters]
        rfl
      rw [Lower.bare_lowerProcedure ?_ b, hstart]
      exact hrested p.cls (List.mem_of_getElem? hc) p.method (List.mem_of_getElem? hm)

end LowerUnit

theorem bare_lower {t : Table} (h : t.All Method.Rested) (q : Program) (options : Options) (storage : Storage) :
    (lower q t options storage).2.table.bare = t.bare :=
  (LowerUnit.woven_lowerProgram options storage q).bare { table := t } h

/-! ## Reachable tables -/

/-- The methods that callers can get. -/
inductive Method.Reachable : Method → Prop
  | new (name : String) (returns : Option Ty) (site : Site) : Reachable { name, returns, site }
  | call {m : Method} (c : Call) : Reachable m → Reachable (m.call c).2
  /-- All but the blocks is open to a caller. A variable is then found under the name it has now, not under the
  one it was declared with, and variables that were given one number are bound together. -/
  | edit {m m' : Method} : Reachable m → m'.blocks = m.blocks → m'.nextBlock = m.nextBlock → Reachable m'

/-- The tables that callers can get. A caller may also rename a class, so two classes can come to share a name. -/
inductive Table.Reachable : Table → Prop
  | empty : Reachable {}
  | declare (p : Program) : Reachable (declare p).1
  | addClass {t t' : Table} {name : String} {site : Site} {id : ClassId} : Reachable t →
      t.addClass name site = .ok (id, t') → Reachable t'
  | setSuperclass {t : Table} (id : ClassId) (superclass : Option ClassId) : Reachable t →
      Reachable (t.setSuperclass id superclass)
  /-- The class gets a field, or another name. It is then found under that name, and not under the one that it was
  added with. -/
  | setClass {t : Table} {id : ClassId} {c c' : Class} : Reachable t → t.class? id = some c →
      c'.methods = c.methods → Reachable (t.setClass id c')
  | addMethod {t : Table} {id : ClassId} {c c' : Class} {i : MethodId} {m : Method} : Reachable t →
      t.class? id = some c → m.Reachable → c.addMethod m = .ok (i, c') → Reachable (t.setClass id c')
  /-- A method is called, changed or replaced. -/
  | setMethod {t : Table} {m : Method} (id : ClassId) (i : MethodId) : Reachable t → m.Reachable →
      Reachable (t.setMethod id i m)
  | lower {t : Table} (q : Program) (options : Options) (storage : Storage) : Reachable t →
      Reachable (lower q t options storage).2.table

theorem Method.Made.reachable {m : Method} (h : m.Made) : m.Reachable := by
  obtain ⟨name, returns, site, calls, rfl⟩ := h
  induction calls using List.reverseRecOn with
  | nil => exact .new name returns site
  | append_singleton calls c ih =>
    rw [after_concat]
    exact ih.call c

theorem Method.Reachable.rested {m : Method} (h : m.Reachable) : m.Rested := by
  induction h with
  | new => exact fun _ => rfl
  | call c _ ih => exact ih.call c
  | edit _ hblocks hnext ih =>
    rw [Rested, hblocks, hnext]
    exact ih

theorem Table.Reachable.all {t : Table} (h : t.Reachable) : t.All Method.Reachable := by
  induction h with
  | empty => exact fun c hc => absurd hc List.not_mem_nil
  | declare p => exact (declare_made p).imp fun _ => Method.Made.reachable
  | addClass _ hadd ih => exact ih.addClass hadd
  | setSuperclass id superclass _ ih => exact ih.setSuperclass id superclass
  | setClass _ hc hmethods ih =>
    refine ih.setClass ?_ _
    rw [Class.All, hmethods]
    exact ih.class? hc
  | addMethod _ hc hm hadd ih => exact ih.setClass ((ih.class? hc).addMethod hm hadd) _
  | setMethod id i _ hm ih => exact ih.setMethod hm id i
  | lower q options storage _ ih =>
    refine ih.of_bare (fun m m' hbare hm => ?_) (bare_lower (ih.imp fun _ => Method.Reachable.rested) q options storage)
    exact hm.edit (Method.blocks_of_bare hbare).1 (Method.blocks_of_bare hbare).2

/-- The open blocks of all methods, and the numbers of their next blocks. -/
def Table.scopes (t : Table) : List (List (List Block × Counter)) :=
  t.classes.map fun c => c.methods.map fun m => (m.blocks, m.nextBlock)

theorem Table.scopes_bare (t : Table) : t.bare.scopes = t.scopes := by
  simp only [scopes, bare, List.map_map]
  refine List.map_congr_left fun c _ => ?_
  simp only [Class.bare, Function.comp_apply, List.map_map]
  rfl

/-- Whether lowering ends with fragments or with an error, it changes nothing but storage. -/
theorem lower_only_binds (t : Table) (ht : t.Reachable) (q : Program) (options : Options) (storage : Storage) :
    (lower q t options storage).2.table.bare = t.bare ∧ (lower q t options storage).2.table.scopes = t.scopes := by
  have hbare := bare_lower (ht.all.imp fun _ => Method.Reachable.rested) q options storage
  exact ⟨hbare, by rw [← Table.scopes_bare, hbare, Table.scopes_bare]⟩

/-- The receiver, which has no lowering, is used inside two blocks. -/
def unfinished : Program where
  main := {
    name := { val := "Main" }, method := { val := "main" }, args := { val := "a" }, locals := [intDecl "x"]
    body := [
      .assign {} "x" (.literal "1"),
      .block {} [intDecl "x"] [.block {} [intDecl "y"] [.assign {} "y" .this, .println {} (.ident "x")]]] }
  classes := []

/-- The table of a caller that has entered a block of a method. -/
def Table.entering (t : Table) (id : ClassId) (i : MethodId) : Table :=
  ((t.at? id i).map fun m => t.setMethod id i (m.call .enter).2).getD t

theorem Table.Reachable.entering {t : Table} (h : t.Reachable) (id : ClassId) (i : MethodId) :
    (t.entering id i).Reachable := by
  unfold Table.entering
  cases hat : t.at? id i with
  | none => exact h
  | some m =>
    obtain ⟨c, hc, hm⟩ := Option.bind_eq_some_iff.1 hat
    exact .setMethod id i h ((h.all.class? hc m (List.mem_of_getElem? hm)).call .enter)

/-- Lowering stops inside two blocks, or at once because the caller left a block open. -/
theorem lower_only_binds_unfinished :
    ((declare unfinished).1.Reachable ∧ (lower unfinished (declare unfinished).1).1.isOk = false ∧
        (lower unfinished (declare unfinished).1).2.table ≠ (declare unfinished).1 ∧
        (lower unfinished (declare unfinished).1).2.table.bare = (declare unfinished).1.bare) ∧
      ((declare unfinished).1.entering ⟨0⟩ ⟨0⟩).Reachable ∧
        (lower unfinished ((declare unfinished).1.entering ⟨0⟩ ⟨0⟩)).1.isOk = false ∧
        (lower unfinished ((declare unfinished).1.entering ⟨0⟩ ⟨0⟩)).2.table.scopes = [[([⟨0⟩], ⟨1⟩)]] := by
  have hdeclared := Table.Reachable.declare unfinished
  have hentered := hdeclared.entering ⟨0⟩ ⟨0⟩
  have hclosed := lower_only_binds _ hdeclared unfinished {} {}
  have hopen := lower_only_binds _ hentered unfinished {} {}
  refine ⟨⟨hdeclared, by decide +kernel, by decide +kernel, hclosed.1⟩, hentered, by decide +kernel, ?_⟩
  exact hopen.2.trans (by decide +kernel)

end Lowering
