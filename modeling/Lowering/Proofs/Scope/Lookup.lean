import Mathlib
import Lowering.Unit

/-!
# Methods by name

Where no name stands twice, a method is found under the names of its class and its own, and to
replace it leaves all others where they are.
-/

namespace Lowering

/-! ## Named entries of a list -/

section

variable {α : Type} {name : α → String} {l : List α} {x : String} {i : Nat} {a : α}

/-- The first entry of a name, with its position. -/
def findNamed (name : α → String) (l : List α) (x : String) : Option (Nat × α) := do
  let i ← l.findIdx? (name · == x)
  return (i, ← l[i]?)

theorem findNamed_eq_some (h : findNamed name l x = some (i, a)) : l[i]? = some a ∧ name a = x := by
  simp only [findNamed, Option.bind_eq_bind, Option.bind_eq_some_iff, Option.pure_def, Option.some.injEq,
    Prod.mk.injEq] at h
  obtain ⟨j, hj, b, hb, rfl, rfl⟩ := h
  obtain ⟨hlt, hname, -⟩ := List.findIdx?_eq_some_iff_getElem.1 hj
  rw [List.getElem?_eq_getElem hlt] at hb
  cases hb
  exact ⟨List.getElem?_eq_getElem hlt, by simpa using hname⟩

theorem findNamed_of_nodup (hnodup : (l.map name).Nodup) (h : a ∈ l) :
    ∃ i, findNamed name l (name a) = some (i, a) := by
  obtain ⟨i, hlt, rfl⟩ := List.mem_iff_getElem.1 h
  refine ⟨i, ?_⟩
  have hfirst : l.findIdx? (name · == name l[i]) = some i := by
    refine List.findIdx?_eq_some_iff_getElem.2 ⟨hlt, by simp, fun j hj hname => ?_⟩
    have hsame : (l.map name)[j]? = (l.map name)[i]? := by
      simpa [List.getElem?_map, hlt, hj.trans hlt] using hname
    exact absurd ((List.getElem?_inj (by simpa using hj.trans hlt) hnodup).1 hsame) (by omega)
  simp [findNamed, hfirst, hlt]

theorem map_set_of_eq {β : Type} {f : α → β} {a' : α} (ha : l[i]? = some a) (hf : f a' = f a) :
    (l.set i a').map f = l.map f := by
  refine List.ext_getElem? fun j => ?_
  rw [List.getElem?_map, List.getElem?_map, List.getElem?_set]
  split <;> grind

theorem findNamed_set {a' : α} (h : findNamed name l x = some (i, a)) (hname : name a' = name a)
    (y : String) : findNamed name (l.set i a') y = if y = x then some (i, a') else findNamed name l y := by
  obtain ⟨hget, hx⟩ := findNamed_eq_some h
  have hnames : (l.set i a').map name = l.map name := map_set_of_eq hget hname
  have hfind : ∀ y, (l.set i a').findIdx? (name · == y) = l.findIdx? (name · == y) := by
    intro y
    have hmap : ∀ l : List α, l.findIdx? (name · == y) = (l.map name).findIdx? (· == y) := fun l => by
      rw [List.findIdx?_map]
      rfl
    rw [hmap, hmap, hnames]
  unfold findNamed at h ⊢
  rw [hfind]
  split
  next hy =>
    subst hy
    cases hidx : l.findIdx? (name · == y) with
    | none => simp [hidx] at h
    | some j => grind
  next hy =>
    cases hidx : l.findIdx? (name · == y) with
    | none => rfl
    | some j =>
      have hj := (List.findIdx?_eq_some_iff_getElem.1 hidx)
      have hne : i ≠ j := by
        rintro rfl
        grind
      simp [List.getElem?_set_ne hne]

theorem exists_of_forall₂ {β : Type} {R : α → β → Prop} {l' : List β} (h : List.Forall₂ R l l') (ha : a ∈ l) :
    ∃ b ∈ l', R a b := by
  induction h with
  | nil => simp at ha
  | @cons a' b l l' hfirst _ ih =>
    rcases List.mem_cons.1 ha with rfl | ha
    · exact ⟨b, List.mem_cons_self, hfirst⟩
    · obtain ⟨b', hb', hR⟩ := ih ha
      exact ⟨b', List.mem_cons_of_mem _ hb', hR⟩

end

/-! ## Methods of a table -/

/-- The method of a name in the class of a name. -/
def Table.method? (t : Table) (cls name : String) : Option Method := do
  let (_, c) ← t.find? cls
  let (_, m) ← c.find? name
  return m

theorem Class.find?_eq (c : Class) (x : String) :
    c.find? x = (findNamed Method.name c.methods x).map fun (i, m) => (⟨i⟩, m) := by
  unfold Class.find? Class.methodId? Class.method? findNamed
  cases hidx : c.methods.findIdx? (·.name == x) <;> simp

theorem Table.find?_eq (t : Table) (x : String) :
    t.find? x = (findNamed Class.name t.classes x).map fun (i, c) => (⟨i⟩, c) := by
  unfold Table.find? Table.classId? Table.class? findNamed
  cases hidx : t.classes.findIdx? (·.name == x) <;> simp

theorem Table.method?_eq (t : Table) (cls x : String) :
    t.method? cls x = (findNamed Class.name t.classes cls).bind fun (_, c) =>
      (findNamed Method.name c.methods x).map Prod.snd := by
  unfold Table.method?
  rw [Table.find?_eq]
  cases findNamed Class.name t.classes cls with
  | none => rfl
  | some ic =>
    simp only [Option.map_some, Option.bind_eq_bind, Option.bind_some, Class.find?_eq]
    cases findNamed Method.name ic.2.methods x <;> rfl

theorem Table.method?_of_mem {t : Table} {c : Class} {m : Method} (hc : c ∈ t.classes)
    (hm : m ∈ c.methods) (hclasses : (t.classes.map (·.name)).Nodup)
    (hmethods : (c.methods.map (·.name)).Nodup) : t.method? c.name m.name = some m := by
  obtain ⟨i, hi⟩ := findNamed_of_nodup hclasses hc
  obtain ⟨j, hj⟩ := findNamed_of_nodup hmethods hm
  simp [Table.method?_eq, hi, hj]

namespace LowerUnit

variable {t : Table} {cls name : String} {p : Place}

theorem findPlace_eq_ok (h : findPlace t cls name = .ok p) :
    findNamed Class.name t.classes cls = some (p.classId.index, p.cls) ∧
      findNamed Method.name p.cls.methods name = some (p.methodId.index, p.method) := by
  unfold findPlace at h
  rw [Table.find?_eq] at h
  cases hc : findNamed Class.name t.classes cls with
  | none => simp [hc] at h
  | some ic =>
    simp only [hc, Option.map_some, Class.find?_eq] at h
    cases hm : findNamed Method.name ic.2.methods name with
    | none => simp [hm] at h
    | some jm =>
      simp only [hm, Option.map_some] at h
      cases h
      exact ⟨rfl, hm⟩

theorem method?_findPlace (h : findPlace t cls name = .ok p) : t.method? cls name = some p.method := by
  obtain ⟨hc, hm⟩ := findPlace_eq_ok h
  simp [Table.method?_eq, hc, hm]

theorem findPlace_of_method? {m : Method} (h : t.method? cls name = some m) :
    ∃ p, findPlace t cls name = .ok p ∧ p.method = m := by
  simp only [Table.method?, Option.bind_eq_bind, Option.bind_eq_some_iff, Option.pure_def, Option.some.injEq,
    Prod.exists] at h
  obtain ⟨classId, c, hc, methodId, m', hm, rfl⟩ := h
  refine ⟨⟨classId, c, methodId, m'⟩, ?_, rfl⟩
  unfold findPlace
  simp only [hc, hm]
  rfl

theorem findPlace_names (h : findPlace t cls name = .ok p) : p.cls.name = cls ∧ p.method.name = name := by
  obtain ⟨hc, hm⟩ := findPlace_eq_ok h
  exact ⟨(findNamed_eq_some hc).2, (findNamed_eq_some hm).2⟩

theorem method?_setMethod {m : Method} (h : findPlace t cls name = .ok p) (hm : m.name = p.method.name)
    (cls' name' : String) : (t.setMethod p.classId p.methodId m).method? cls' name' =
      if (cls', name') = (cls, name) then some m else t.method? cls' name' := by
  obtain ⟨hc, hmethod⟩ := findPlace_eq_ok h
  have hset : (t.setMethod p.classId p.methodId m).classes =
      t.classes.set p.classId.index (p.cls.setMethod p.methodId m) := by
    have hget := (findNamed_eq_some hc).1
    refine List.ext_getElem? fun j => ?_
    simp only [Table.setMethod, List.getElem?_modify, List.getElem?_set]
    split <;> grind
  have hname : (p.cls.setMethod p.methodId m).name = p.cls.name := rfl
  rw [Table.method?_eq, hset, findNamed_set hc hname]
  by_cases hcls : cls' = cls
  · rw [if_pos hcls, Option.bind_some]
    change (findNamed Method.name (p.cls.methods.set p.methodId.index m) name').map Prod.snd = _
    rw [findNamed_set hmethod hm, Table.method?_eq, hcls, hc, Option.bind_some]
    by_cases hname : name' = name <;> simp [hname]
  · rw [if_neg hcls, if_neg (by simp [hcls]), Table.method?_eq]

end LowerUnit

end Lowering
