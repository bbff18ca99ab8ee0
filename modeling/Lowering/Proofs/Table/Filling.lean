import Lowering.Proofs.Bindings

/-!
# Storage filled in

A table with storage filled in, wherever a variable has none, is found to be the same by every lookup
and stays so under every change that lowering makes. A table whose variables have numbers of their own
is its bare form with its own storage filled in.
-/

namespace Lowering

/-! ## Methods -/

/-- A variable without storage gets it by its number. -/
def Variable.fill (f : Nat → Option Access) (v : Variable) : Variable := { v with access := v.access.or (f v.index) }

namespace Method

variable {m m' : Method} {f : Nat → Option Access}

def fill (f : Nat → Option Access) (m : Method) : Method :=
  { m with parameters := m.parameters.map (Variable.fill f), locals := m.locals.map (Variable.fill f) }

theorem find?_map_fill {p : Variable → Bool} (hp : ∀ v, p (v.fill f) = p v) (vs : List Variable) :
    (vs.map (Variable.fill f)).find? p = (vs.find? p).map (Variable.fill f) := by
  have hsame : p ∘ Variable.fill f = p := funext hp
  rw [List.find?_map, hsame]

theorem local?_fill (m : Method) (f : Nat → Option Access) (x : String) :
    (m.fill f).local? x = (m.local? x).map (Variable.fill f) := by
  have hnamesakes : (m.fill f).namesakes x = (m.namesakes x).map (Variable.fill f) := by
    rw [namesakes, namesakes, fill, List.filter_map]
    rfl
  unfold local?
  rw [hnamesakes, List.map_findSome?]
  exact congrArg m.blocks.findSome? (funext fun b => find?_map_fill (fun _ => rfl) _)

theorem parameter?_fill (m : Method) (f : Nat → Option Access) (x : String) :
    (m.fill f).parameter? x = (m.parameter? x).map (Variable.fill f) :=
  find?_map_fill (fun _ => rfl) _

theorem setAccess_fill (index : Nat) (a : Access) (vs : List Variable) :
    setAccess index a (vs.map (Variable.fill f)) = (setAccess index a vs).map (Variable.fill f) := by
  rw [setAccess, setAccess, List.map_map, List.map_map]
  refine List.map_congr_left fun v _ => ?_
  rw [Function.comp_apply, Function.comp_apply]
  by_cases h : v.index = index
  · rw [if_pos h, if_pos (show (v.fill f).index = index from h)]
    rfl
  · rw [if_neg h, if_neg (show (v.fill f).index ≠ index from h)]

theorem bindLocal?_fill (m : Method) (f : Nat → Option Access) (x : String) (a : Access) :
    (m.fill f).bindLocal? x a = (m.bindLocal? x a).map (fill f) := by
  rw [bindLocal?, bindLocal?, local?_fill, Option.map_map, Option.map_map]
  congr 1
  funext v
  rw [Function.comp_apply, Function.comp_apply, fill, fill, ← setAccess_fill]
  rfl

theorem bindParameter?_fill (m : Method) (f : Nat → Option Access) (x : String) (a : Access) :
    (m.fill f).bindParameter? x a = (m.bindParameter? x a).map (fill f) := by
  rw [bindParameter?, bindParameter?, parameter?_fill, Option.map_map, Option.map_map]
  congr 1
  funext v
  rw [Function.comp_apply, Function.comp_apply, fill, fill, ← setAccess_fill]
  rfl

theorem bindParameters_fill (as : List Access) (vs : List Variable) :
    bindParameters as (vs.map (Variable.fill f)) = (bindParameters as vs).map (Variable.fill f) := by
  induction vs generalizing as with
  | nil => simp [bindParameters]
  | cons v rest ih =>
    cases as with
    | nil => rfl
    | cons a as =>
      rw [List.map_cons, bindParameters, bindParameters, List.map_cons, ih]
      rfl

theorem leave_fill (m : Method) (f : Nat → Option Access) :
    (m.fill f).leave = m.leave.map id (fill f) := by
  unfold leave
  rw [show (m.fill f).blocks = m.blocks from rfl]
  cases m.blocks <;> rfl

theorem fill_of_leave (hfix : m.leave.2.fill f = m.leave.2) : m.fill f = m := by
  have hleft : m.leave.2.parameters = m.parameters ∧ m.leave.2.locals = m.locals := by
    unfold leave
    cases m.blocks <;> exact ⟨rfl, rfl⟩
  have hparameters : m.parameters.map (Variable.fill f) = m.parameters := by
    rw [← hleft.1]
    exact congrArg parameters hfix
  have hlocals : m.locals.map (Variable.fill f) = m.locals := by
    rw [← hleft.2]
    exact congrArg locals hfix
  rw [fill, hparameters, hlocals]

end Method

/-! ## Tables -/

def Class.fill (f : Nat → Nat → Option Access) (c : Class) : Class :=
  { c with methods := c.methods.mapIdx fun i m => m.fill (f i) }

def Table.fill (f : Nat → Nat → Nat → Option Access) (t : Table) : Table := ⟨t.classes.mapIdx fun i c => c.fill (f i)⟩

variable {f : Nat → Nat → Nat → Option Access} {t : Table}

theorem findNamed_mapIdx {α : Type} (name : α → String) (change : Nat → α → α)
    (hname : ∀ i a, name (change i a) = name a) (l : List α) (x : String) :
    findNamed name (l.mapIdx change) x = (findNamed name l x).map fun r => (r.1, change r.1 r.2) := by
  have hnames : (l.mapIdx change).map name = l.map name := by
    refine List.ext_getElem? fun i => ?_
    rw [List.getElem?_map, List.getElem?_mapIdx, List.getElem?_map, Option.map_map]
    exact congrArg (Option.map · l[i]?) (funext (hname i))
  have hmap : ∀ l : List α, l.findIdx? (name · == x) = (l.map name).findIdx? (· == x) := fun l => by
    rw [List.findIdx?_map]
    rfl
  unfold findNamed
  rw [hmap, hnames, ← hmap]
  cases l.findIdx? (name · == x) with
  | none => rfl
  | some i => cases hi : l[i]? <;> simp [hi]

namespace Table

theorem class?_fill (t : Table) (id : ClassId) : (t.fill f).class? id = (t.class? id).map (Class.fill (f id.index)) :=
  List.getElem?_mapIdx

theorem field?_fill (t : Table) (id : ClassId) (x : String) : (t.fill f).field? id x = t.field? id x := by
  have hwithin : ∀ steps id, (t.fill f).fieldWithin x steps id = t.fieldWithin x steps id := by
    intro steps
    induction steps with
    | zero => exact fun _ => rfl
    | succ steps ih =>
      intro id
      rw [fieldWithin, fieldWithin, class?_fill]
      cases t.class? id with
      | none => rfl
      | some c =>
        simp only [Option.map_some, Option.bind_eq_bind, Option.bind_some, ih]
        rfl
  rw [field?, field?, hwithin]
  simp [fill]

theorem find?_fill (t : Table) (x : String) :
    (t.fill f).find? x = (t.find? x).map fun r => (r.1, r.2.fill (f r.1.index)) := by
  have hnamed := findNamed_mapIdx Class.name (fun i c => c.fill (f i)) (fun _ _ => rfl) t.classes x
  rw [find?_eq, find?_eq, fill, hnamed, Option.map_map, Option.map_map]
  rfl

theorem at?_fill (t : Table) (id : ClassId) (i : MethodId) :
    (t.fill f).at? id i = (t.at? id i).map (Method.fill (f id.index i.index)) := by
  rw [at?, class?_fill, at?]
  cases t.class? id with
  | none => rfl
  | some c => exact List.getElem?_mapIdx

theorem at?_setMethod {id : ClassId} {i : MethodId} {m : Method} (h : t.at? id i = some m) (m' : Method) :
    (t.setMethod id i m').at? id i = some m' := by
  obtain ⟨c, hc, hm⟩ := Option.bind_eq_some_iff.1 h
  have hcls := (List.getElem?_eq_some_iff.1 hc).1
  have hmethod := (List.getElem?_eq_some_iff.1 hm).1
  rw [setMethod_eq hc, at?, class?, List.getElem?_set_self hcls]
  exact List.getElem?_set_self hmethod

theorem fill_setMethod (t : Table) (id : ClassId) (i : MethodId) (m : Method) :
    (t.setMethod id i m).fill f = (t.fill f).setMethod id i (m.fill (f id.index i.index)) := by
  have hclass : ∀ c : Class, (c.setMethod i m).fill (f id.index) =
      (c.fill (f id.index)).setMethod i (m.fill (f id.index i.index)) := fun c => by
    rw [Class.setMethod, Class.setMethod, Class.fill, Class.fill, List.mapIdx_set]
  refine congrArg Table.mk (List.ext_getElem? fun j => ?_)
  rw [setMethod, List.getElem?_mapIdx, List.getElem?_modify, List.getElem?_modify, fill, List.getElem?_mapIdx]
  cases t.classes[j]? with
  | none => rfl
  | some c =>
    by_cases hj : id.index = j
    · subst hj
      simp [hclass]
    · simp [hj]

end Table

theorem Class.find?_fill (c : Class) (g : Nat → Nat → Option Access) (x : String) :
    (c.fill g).find? x = (c.find? x).map fun r => (r.1, r.2.fill (g r.1.index)) := by
  have hnamed := findNamed_mapIdx Method.name (fun i m => m.fill (g i)) (fun _ _ => rfl) c.methods x
  rw [find?_eq, find?_eq, fill, hnamed, Option.map_map, Option.map_map]
  rfl

/-! ## The storage of a table -/

theorem mapIdx_map_self {α : Type} {g : α → α} {h : Nat → α → α} {l : List α}
    (hh : ∀ i a, l[i]? = some a → h i (g a) = a) : (l.map g).mapIdx h = l := by
  refine List.ext_getElem? fun i => ?_
  rw [List.getElem?_mapIdx, List.getElem?_map, Option.map_map]
  cases ha : l[i]? with
  | none => rfl
  | some a => exact congrArg some (hh i a ha)

theorem Method.fill_fill (g : Nat → Option Access) (m : Method) : (m.fill g).fill g = m.fill g := by
  have hvariable : Variable.fill g ∘ Variable.fill g = Variable.fill g := by
    funext v
    cases ha : v.access <;> simp [Variable.fill, ha]
  rw [fill, fill, List.map_map, List.map_map, hvariable]

theorem Class.fill_fill (g : Nat → Nat → Option Access) (c : Class) : (c.fill g).fill g = c.fill g := by
  rw [fill, fill, List.mapIdx_mapIdx]
  simp only [Function.comp_def, Method.fill_fill]

theorem Table.fill_fill (f : Nat → Nat → Nat → Option Access) (t : Table) : (t.fill f).fill f = t.fill f := by
  rw [fill, fill, List.mapIdx_mapIdx]
  simp only [Function.comp_def, Class.fill_fill]

/-- The storage of the variable with a number. -/
def Method.storage (m : Method) (index : Nat) : Option Access :=
  ((m.parameters ++ m.locals).find? (·.index == index)).bind (·.access)

def Table.storage (t : Table) (c i index : Nat) : Option Access := (t.at? ⟨c⟩ ⟨i⟩).bind (·.storage index)

theorem map_eq_self {α : Type} {g : α → α} {l : List α} (h : ∀ a ∈ l, g a = a) : l.map g = l :=
  (List.map_congr_left h).trans (List.map_id' l)

theorem Method.bare_of_unbound {m : Method} (h : ∀ v ∈ m.parameters ++ m.locals, v.access = none) : m.bare = m := by
  have hback : ∀ v ∈ m.parameters ++ m.locals, v.bare = v := fun v hv => by rw [Variable.bare, ← h v hv]
  obtain ⟨hparameters, hlocals⟩ := List.forall_mem_append.1 hback
  rw [bare, map_eq_self hparameters, map_eq_self hlocals]

theorem Table.bare_of_unbound (h : t.All fun m => ∀ v ∈ m.parameters ++ m.locals, v.access = none) : t.bare = t := by
  refine congrArg Table.mk (map_eq_self fun c hc => ?_)
  rw [Class.bare, map_eq_self fun m hm => Method.bare_of_unbound (h c hc m hm)]

theorem Method.Apart.of_bare (m m' : Method) (hbare : m'.bare = m.bare) (h : m.Apart) : m'.Apart := by
  have hindices : ∀ n : Method, (n.parameters ++ n.locals).map (·.index) =
      (n.bare.parameters ++ n.bare.locals).map (·.index) := fun n => by
    rw [bare, ← List.map_append, List.map_map]
    rfl
  rw [Apart, hindices, hbare, ← hindices]
  exact h

theorem Method.Apart.storage_index {m : Method} (h : m.Apart) {v : Variable} (hv : v ∈ m.parameters ++ m.locals) :
    m.storage v.index = v.access := by
  have hfound : ((m.parameters ++ m.locals).find? (·.index == v.index)).isSome :=
    List.find?_isSome.2 ⟨v, hv, beq_self_eq_true _⟩
  obtain ⟨u, hu⟩ := Option.isSome_iff_exists.1 hfound
  have hindex : u.index = v.index := by simpa using List.find?_some hu
  have hsame : u = v := List.inj_on_of_nodup_map h (List.mem_of_find?_eq_some hu) hv hindex
  rw [storage, hu, hsame, Option.bind_some]

theorem Method.Apart.fill_bare {m : Method} (h : m.Apart) : m.bare.fill m.storage = m := by
  have hback : ∀ v ∈ m.parameters ++ m.locals, (Variable.fill m.storage ∘ Variable.bare) v = v := fun v hv => by
    rw [Function.comp_apply, Variable.fill, Variable.bare, h.storage_index hv, Option.none_or]
  obtain ⟨hparameters, hlocals⟩ := List.forall_mem_append.1 hback
  rw [fill, bare, List.map_map, List.map_map, map_eq_self hparameters, map_eq_self hlocals]

theorem Table.fill_bare (h : t.All Method.Apart) : t.bare.fill t.storage = t := by
  refine congrArg Table.mk (mapIdx_map_self fun i c hc => ?_)
  have hmethods : (c.methods.map Method.bare).mapIdx (fun j m => m.fill (t.storage i j)) = c.methods := by
    refine mapIdx_map_self fun j m hm => ?_
    have hat : t.at? ⟨i⟩ ⟨j⟩ = some m := Option.bind_eq_some_iff.2 ⟨c, hc, hm⟩
    have hstorage : t.storage i j = m.storage := funext fun index => by rw [storage, hat, Option.bind_some]
    rw [hstorage]
    exact (h c (List.mem_of_getElem? hc) m (List.mem_of_getElem? hm)).fill_bare
  rw [Class.fill, Class.bare, hmethods]

end Lowering
