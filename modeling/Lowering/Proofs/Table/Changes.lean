import Lowering.Table.Basic

/-!
# When a change is accepted

A class, a field or a method is added under a name that is not taken yet. A parameter is added if no
block is open, and a local if one is, just as a block is left. For each of these, when it is accepted
and what it leaves behind.
-/

namespace Lowering

open Lowering.Source (Site)

namespace Method

variable {m m' : Method} {v : Variable} {name : String} {type : Ty} {site : Site}

theorem leave_eq_ok {b : Block} : m.leave = (.ok b, m') ↔
    ∃ outer, m.blocks = b :: outer ∧ m' = { m with
      blocks := outer, nextBlock := if outer.isEmpty then m.nextBlock.reset else m.nextBlock } := by
  unfold leave
  cases m.blocks with
  | nil => simp
  | cons inner outer =>
    constructor
    · intro h
      cases h
      exact ⟨outer, rfl, rfl⟩
    · rintro ⟨_, hblocks, rfl⟩
      cases hblocks
      rfl

theorem addParameter_eq_ok : m.addParameter name type site = (.ok v, m') ↔
    m.blocks = [] ∧ v = { name := name, type := type, site := site, index := m.nextIndex.next, block := none } ∧
      m' = { m with parameters := m.parameters ++ [v], nextIndex := ⟨m.nextIndex.next + 1⟩ } := by
  unfold addParameter
  split
  next hblocks =>
    constructor
    · intro h
      cases h
      exact ⟨hblocks, rfl, rfl⟩
    · rintro ⟨-, rfl, rfl⟩
      rfl
  next hblocks => simp [hblocks]

theorem addLocal_eq_ok : m.addLocal name type site = (.ok v, m') ↔ ∃ b outer, m.blocks = b :: outer ∧
    v = { name := name, type := type, site := site, index := m.nextIndex.next, block := some b } ∧
      m' = { m with locals := v :: m.locals, nextIndex := ⟨m.nextIndex.next + 1⟩ } := by
  unfold addLocal
  split
  next hblocks => simp [hblocks]
  next inner outer hblocks =>
    constructor
    · intro h
      cases h
      exact ⟨inner, outer, hblocks, rfl, rfl⟩
    · rintro ⟨_, _, hopen, rfl, rfl⟩
      cases hblocks.symm.trans hopen
      rfl

end Method

namespace Class

variable {c c' : Class}

theorem addField_eq_ok {name : String} {type : Ty} {site : Site} :
    c.addField name type site = .ok c' ↔ name ∉ c.fields.map Field.name ∧
      c' = { c with fields := c.fields ++ [⟨name, type, site⟩] } := by
  have hfield : c.field? name = none ↔ name ∉ c.fields.map Field.name := by
    simp [field?]
  unfold addField
  rw [← hfield]
  cases c.field? name with
  | some f => simp
  | none =>
    constructor
    · intro h
      cases h
      exact ⟨rfl, rfl⟩
    · rintro ⟨-, rfl⟩
      rfl

theorem addMethod_eq_ok {m : Method} {id : MethodId} :
    c.addMethod m = .ok (id, c') ↔ m.name ∉ c.methods.map Method.name ∧ id = ⟨c.methods.length⟩ ∧
      c' = { c with methods := c.methods ++ [m] } := by
  have hid : c.methodId? m.name = none ↔ m.name ∉ c.methods.map Method.name := by
    simp [methodId?, List.findIdx?_eq_none_iff]
  unfold addMethod
  rw [← hid]
  cases c.methodId? m.name with
  | some id' => simp
  | none =>
    constructor
    · intro h
      cases h
      exact ⟨rfl, rfl, rfl⟩
    · rintro ⟨-, rfl, rfl⟩
      rfl

end Class

namespace Table

/-- The names of the classes. -/
def classNames (t : Table) : List String := t.classes.map (·.name)

variable {t t' : Table} {name : String}

theorem classId?_eq_none : t.classId? name = none ↔ name ∉ t.classNames := by
  simp [classId?, classNames, List.findIdx?_eq_none_iff]

theorem addClass_eq_ok {site : Site} {id : ClassId} :
    t.addClass name site = .ok (id, t') ↔ name ∉ t.classNames ∧ id = ⟨t.classes.length⟩ ∧
      t' = ⟨t.classes ++ [{ name := name, site := site }]⟩ := by
  unfold addClass
  rw [← classId?_eq_none]
  cases t.classId? name with
  | some id' => simp
  | none =>
    constructor
    · intro h
      cases h
      exact ⟨rfl, rfl, rfl⟩
    · rintro ⟨-, rfl, rfl⟩
      rfl

end Table

end Lowering
