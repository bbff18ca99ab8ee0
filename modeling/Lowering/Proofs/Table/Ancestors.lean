import Lowering.Proofs.Declaration.Links
import Lowering.Proofs.Declaration.Members

/-!
# Walks up a table

Nothing keeps the calls that build a table from closing a circle of classes. The test for subclasses
and the lookup of a field walk up all the same, and both say what a walk without an end would say.
-/

namespace Lowering

open Lowering.Source (Site)
open Relation (ReflTransGen)

namespace Hierarchy

variable {h : Hierarchy} {c d target : ClassId}

/-! ## Walking with a memory -/

/-- Whether a walk up from `c` meets `target`. It keeps the classes it has passed and gives up at the
first one it meets again. -/
def climb (h : Hierarchy) (target : ClassId) (seen : Finset ClassId) (c : ClassId) : Bool :=
  if c = target then true
  else if c ∈ seen then false
  else
    match _ : h.superclass c with
    | none => false
    | some parent => h.climb target (insert c seen) parent
termination_by ((Finset.range h.classes.length).image ClassId.mk \ seen).card
decreasing_by
  have hc : c ∈ (Finset.range h.classes.length).image ClassId.mk \ seen := by
    simp only [Finset.mem_sdiff, Finset.mem_image, Finset.mem_range]
    exact ⟨⟨c.index, index_lt_of_extends (by assumption), rfl⟩, by assumption⟩
  rw [Finset.sdiff_insert]
  exact Finset.card_erase_lt_of_mem hc

theorem up_of_climb {seen : Finset ClassId} (hclimb : h.climb target seen c = true) :
    ∃ k, h.up k c = some target := by
  fun_induction climb h target seen c with
  | case1 seen => exact ⟨0, rfl⟩
  | case2 seen c _ _ => simp at hclimb
  | case3 seen c _ _ _ => simp at hclimb
  | case4 seen c _ _ parent hparent ih =>
    obtain ⟨k, hk⟩ := ih hclimb
    exact ⟨k + 1, by rw [up, hparent, Option.bind_some, hk]⟩

/-- The shortest way to a class passes no class twice, so the walk does not give up on it. -/
theorem climb_of_up {k : Nat} {seen : Finset ClassId} (hk : h.up k c = some target)
    (hmin : ∀ j < k, h.up j c ≠ some target) (hseen : ∀ i < k, ∀ a ∈ h.up i c, a ∉ seen) :
    h.climb target seen c = true := by
  induction k generalizing c seen with
  | zero =>
    cases hk
    unfold climb
    simp
  | succ k ih =>
    obtain ⟨parent, hparent, hk'⟩ := Option.bind_eq_some_iff.1 hk
    have hup : ∀ i, h.up (i + 1) c = h.up i parent := fun i => by rw [up, hparent, Option.bind_some]
    have hne : c ≠ target := fun heq => hmin 0 (by omega) (by rw [heq]; rfl)
    have hnew : c ∉ seen := hseen 0 (by omega) c rfl
    have hrest : h.climb target (insert c seen) parent = true := by
      apply ih hk'
      · intro j hj
        rw [← hup]
        exact hmin (j + 1) (by omega)
      · intro i hi a ha
        rw [← hup] at ha
        have hold := hseen (i + 1) (by omega) a ha
        -- back at `c`, the rest of the way would have led to the target before
        have hback : a ≠ c := by
          rintro rfl
          apply hmin (k - i) (by omega)
          have := hk
          rw [show k + 1 = (i + 1) + (k - i) by omega, up_add, ha, Option.bind_some] at this
          exact this
        simp [hback, hold]
    unfold climb
    rw [if_neg hne, if_neg hnew]
    split
    next hnone => rw [hparent] at hnone; cases hnone
    next p hp =>
      rw [hparent] at hp
      cases hp
      exact hrest

theorem climb_eq_isSubclass : h.climb target ∅ c = h.isSubclass c target := by
  rw [Bool.eq_iff_iff, isSubclass_iff, reflTransGen_iff_up]
  constructor
  · exact up_of_climb
  · intro hup
    classical
    exact climb_of_up (Nat.find_spec hup) (fun j hj => Nat.find_min hup hj) (by simp)

end Hierarchy

theorem Class.of_addField {k k' : Class} {name : String} {type : Ty} {site : Site}
    (h : k.addField name type site = .ok k') : name ∉ k.fields.map Field.name ∧ k'.entry = k.entry ∧
      k'.fields = k.fields ++ [⟨name, type, site⟩] := by
  obtain ⟨hnew, rfl⟩ := Class.addField_eq_ok.1 h
  exact ⟨hnew, rfl, rfl⟩

namespace Table

variable {t : Table} {c d id : ClassId} {name : String} {f g : Field}

/-! ## Calls that build a table -/

inductive Call where
  | addClass (name : String) (site : Site)
  | addField (id : ClassId) (name : String) (type : Ty) (site : Site)
  | setSuperclass (id : ClassId) (superclass : Option ClassId)

/-- A call that is refused leaves the table as it is. -/
def call (t : Table) : Call → Table
  | .addClass name site =>
    match t.addClass name site with
    | .ok (_, t') => t'
    | .error _ => t
  | .addField id name type site =>
    match t.class? id with
    | none => t
    | some k =>
      match k.addField name type site with
      | .ok k' => t.setClass id k'
      | .error _ => t
  | .setSuperclass id superclass => t.setSuperclass id superclass

/-- The table after calls. -/
def after (t : Table) (calls : List Call) : Table := calls.foldl call t

/-- The number was given to a class of the table. -/
def Has (t : Table) (c : ClassId) : Prop := c.index < t.classes.length

instance (t : Table) (c : ClassId) : Decidable (t.Has c) := inferInstanceAs (Decidable (_ < _))

/-- The numbers in a call were given to classes of the table. -/
def Knows (t : Table) : Call → Prop
  | .addClass .. => True
  | .addField id .. => t.Has id
  | .setSuperclass id superclass => t.Has id ∧ ∀ p ∈ superclass, t.Has p

instance (t : Table) : (c : Call) → Decidable (t.Knows c)
  | .addClass .. => .isTrue trivial
  | .addField id .. => inferInstanceAs (Decidable (t.Has id))
  | .setSuperclass id superclass => inferInstanceAs (Decidable (t.Has id ∧ ∀ p ∈ superclass, t.Has p))

/-- Each of the calls knows its numbers by the time it is made. -/
def Admits (t : Table) : List Call → Prop
  | [] => True
  | c :: rest => t.Knows c ∧ (t.call c).Admits rest

instance decidableAdmits (t : Table) : (calls : List Call) → Decidable (t.Admits calls)
  | [] => .isTrue trivial
  | c :: rest =>
    have := (t.call c).decidableAdmits rest
    inferInstanceAs (Decidable (t.Knows c ∧ (t.call c).Admits rest))

/-- What calls keep: a superclass is a class of the table, and no class declares a name twice. -/
structure Consistent (t : Table) : Prop where
  has_superclass : ∀ {c d}, t.hierarchy.Extends c d → t.Has d
  nodup : ∀ k ∈ t.classes, (k.fields.map Field.name).Nodup

theorem extends_iff : t.hierarchy.Extends c d ↔ ∃ k, t.class? c = some k ∧ k.superclass = some d := by
  unfold Hierarchy.Extends Hierarchy.superclass hierarchy class?
  rw [List.getElem?_map, Option.bind_map, Option.bind_eq_some_iff]
  rfl

namespace Consistent

theorem addClass {t' : Table} {site : Site} (h : t.Consistent) (hadd : t.addClass name site = .ok (id, t')) :
    t'.Consistent := by
  obtain ⟨-, -, rfl⟩ := addClass_eq_ok.1 hadd
  constructor
  · intro c d hd
    obtain ⟨k, hk, hsuper⟩ := extends_iff.1 hd
    unfold class? at hk
    rw [List.getElem?_append] at hk
    -- the new class extends none
    have hold : t.Has d := by
      split at hk
      next => exact h.has_superclass (extends_iff.2 ⟨k, hk, hsuper⟩)
      next =>
        obtain rfl := List.mem_singleton.1 (List.mem_of_getElem? hk)
        cases hsuper
    unfold Has at hold ⊢
    rw [List.length_append]
    omega
  · simp only [List.forall_mem_append, List.forall_mem_singleton]
    exact ⟨h.nodup, List.nodup_nil⟩

theorem addField {k k' : Class} {type : Ty} {site : Site} (h : t.Consistent) (hk : t.class? id = some k)
    (hadd : k.addField name type site = .ok k') : (t.setClass id k').Consistent := by
  obtain ⟨hnew, hentry, hfields⟩ := Class.of_addField hadd
  constructor
  · intro c d hd
    rw [hierarchy_setClass hk hentry] at hd
    simpa [Has, setClass] using h.has_superclass hd
  · intro k'' hk''
    rcases List.mem_or_eq_of_mem_set hk'' with hold | rfl
    · exact h.nodup k'' hold
    · rw [hfields, List.map_append, List.map_singleton, List.nodup_append]
      exact ⟨h.nodup k (List.mem_of_getElem? hk), List.nodup_singleton _, by grind⟩

theorem setSuperclass {superclass : Option ClassId} (h : t.Consistent) (hid : t.Has id)
    (hsuper : ∀ p ∈ superclass, t.Has p) : (t.setSuperclass id superclass).Consistent := by
  constructor
  · intro c d hd
    have hold : t.Has d := by
      unfold Hierarchy.Extends at hd
      rw [superclass_setSuperclass hid] at hd
      split at hd
      next => exact hsuper d hd
      next => exact h.has_superclass hd
    simpa [Has, Table.setSuperclass] using hold
  · intro k hk
    obtain ⟨i, hi⟩ := List.mem_iff_getElem?.1 hk
    simp only [Table.setSuperclass, List.getElem?_modify, Option.map_eq_map, Option.map_eq_some_iff] at hi
    obtain ⟨k', hk', rfl⟩ := hi
    have hnodup := h.nodup k' (List.mem_of_getElem? hk')
    split <;> exact hnodup

theorem call {c : Call} (h : t.Consistent) (hc : t.Knows c) : (t.call c).Consistent := by
  cases c with
  | addClass name site =>
    rw [Table.call]
    split
    next hadd => exact h.addClass hadd
    next => exact h
  | addField id name type site =>
    rw [Table.call]
    split
    next => exact h
    next k hk =>
      split
      next hadd => exact h.addField hk hadd
      next => exact h
  | setSuperclass id superclass => exact h.setSuperclass hc.1 hc.2

theorem after {calls : List Call} (h : t.Consistent) (hcalls : t.Admits calls) : (t.after calls).Consistent := by
  induction calls generalizing t with
  | nil => exact h
  | cons c rest ih => exact ih (h.call hcalls.1) hcalls.2

theorem has_of_reflTransGen (h : t.Consistent) (hc : t.Has c) (hpath : ReflTransGen t.hierarchy.Extends c d) :
    t.Has d := by
  cases hpath with
  | refl => exact hc
  | tail _ hlast => exact h.has_superclass hlast

end Consistent

theorem consistent_empty : ({} : Table).Consistent := by
  constructor
  · intro c d hd
    obtain ⟨k, hk, -⟩ := extends_iff.1 hd
    cases hk
  · intro k hk
    cases hk

/-! ## Fields along the chain -/

/-- The class declares the field itself. -/
def Owns (t : Table) (c : ClassId) (f : Field) : Prop := ∃ k, t.class? c = some k ∧ f ∈ k.fields

/-- A walk up from a class, however long, that ends at the first class that declares the name itself. -/
inductive Finds (t : Table) (name : String) : ClassId → Field → Prop
  | here {c : ClassId} {f : Field} : t.Owns c f → f.name = name → Finds t name c f
  | above {c d : ClassId} {f : Field} : (∀ g, t.Owns c g → g.name ≠ name) → t.hierarchy.Extends c d → Finds t name d f →
      Finds t name c f

/-- The field that a class declares itself under a name. -/
def ownField? (t : Table) (c : ClassId) (name : String) : Option Field := (t.class? c).bind (·.field? name)

theorem ownField?_eq_none_iff : t.ownField? c name = none ↔ ∀ g, t.Owns c g → g.name ≠ name := by
  unfold ownField? Owns Class.field?
  cases t.class? c with
  | none => simp
  | some k => simp

/-- No class declares a name twice, so the first field of that name is the only one. -/
theorem Consistent.ownField?_eq_some_iff (h : t.Consistent) :
    t.ownField? c name = some f ↔ t.Owns c f ∧ f.name = name := by
  constructor
  · intro hown
    obtain ⟨k, hk, hf⟩ := Option.bind_eq_some_iff.1 hown
    exact ⟨⟨k, hk, List.mem_of_find?_eq_some hf⟩, by simpa using List.find?_some hf⟩
  · rintro ⟨⟨k, hk, hf⟩, rfl⟩
    obtain ⟨g, hg⟩ : ∃ g, k.field? f.name = some g :=
      Option.isSome_iff_exists.1 (List.find?_isSome.2 ⟨f, hf, by simp⟩)
    have hname : g.name = f.name := by simpa using List.find?_some hg
    have hsame : g = f :=
      List.inj_on_of_nodup_map (h.nodup k (List.mem_of_getElem? hk)) (List.mem_of_find?_eq_some hg) hf hname
    rw [ownField?, hk, Option.bind_some, hg, hsame]

/-- The walk of `Finds`, with the number of its steps. -/
def FindsAt (t : Table) (name : String) (f : Field) : (k : Nat) → (c : ClassId) → Prop
  | 0, c => t.ownField? c name = some f
  | k + 1, c => t.ownField? c name = none ∧ ∃ d, t.hierarchy.Extends c d ∧ t.FindsAt name f k d

namespace FindsAt

variable {k k' : Nat}

theorem unique (h : t.FindsAt name f k c) (h' : t.FindsAt name g k' c) : k = k' := by
  induction k generalizing k' c with
  | zero =>
    cases k' with
    | zero => rfl
    | succ k' => exact absurd (h.symm.trans h'.1) (by simp)
  | succ k ih =>
    obtain ⟨hnone, d, hd, hrest⟩ := h
    cases k' with
    | zero => exact absurd (hnone.symm.trans h') (by simp)
    | succ k' =>
      obtain ⟨-, d', hd', hrest'⟩ := h'
      obtain rfl := Option.some.inj (hd.symm.trans hd')
      rw [ih hrest hrest']

theorem has (h : t.FindsAt name f k c) : t.Has c := by
  cases k with
  | zero =>
    obtain ⟨_, hk, -⟩ := Option.bind_eq_some_iff.1 h
    exact (List.getElem?_eq_some_iff.1 hk).1
  | succ k =>
    obtain ⟨-, d, hd, -⟩ := h
    obtain ⟨_, hk, -⟩ := extends_iff.1 hd
    exact (List.getElem?_eq_some_iff.1 hk).1

theorem exists_up {i : Nat} (h : t.FindsAt name f k c) (hi : i ≤ k) :
    ∃ a, t.hierarchy.up i c = some a ∧ t.FindsAt name f (k - i) a := by
  induction i generalizing k c with
  | zero => exact ⟨c, rfl, h⟩
  | succ i ih =>
    obtain ⟨k, rfl⟩ : ∃ n, k = n + 1 := ⟨k - 1, by omega⟩
    obtain ⟨-, d, hd, hrest⟩ := h
    obtain ⟨a, ha, hfinds⟩ := ih hrest (by omega)
    refine ⟨a, by rw [Hierarchy.up, show t.hierarchy.superclass c = some d from hd, Option.bind_some, ha], ?_⟩
    rwa [show k + 1 - (i + 1) = k - i by omega]

/-- A walk that finds something passes no class twice: it would go on from there as it did before. -/
theorem lt_length (h : t.FindsAt name f k c) : k < t.classes.length := by
  by_contra hlong
  have hcount : t.hierarchy.classes.length = t.classes.length := List.length_map _
  have hway : ∀ i < k + 1, ∃ a, t.hierarchy.up i c = some a ∧ a.index < t.hierarchy.classes.length := by
    intro i hi
    obtain ⟨a, ha, hfinds⟩ := h.exists_up (show i ≤ k by omega)
    exact ⟨a, ha, hcount ▸ hfinds.has⟩
  obtain ⟨i, j, a, hij, hj, hi', hj'⟩ := Hierarchy.exists_repeat hway (by omega)
  obtain ⟨b, hb, hfirst⟩ := h.exists_up (show i ≤ k by omega)
  obtain ⟨b', hb', hsecond⟩ := h.exists_up (show j ≤ k by omega)
  obtain rfl := Option.some.inj (hi'.symm.trans hb)
  obtain rfl := Option.some.inj (hj'.symm.trans hb')
  have := hfirst.unique hsecond
  omega

end FindsAt

theorem fieldWithin_succ (t : Table) (name : String) (steps : Nat) (c : ClassId) :
    t.fieldWithin name (steps + 1) c =
      (t.ownField? c name).or ((t.hierarchy.superclass c).bind (t.fieldWithin name steps)) := by
  rw [fieldWithin]
  unfold ownField? Hierarchy.superclass hierarchy class?
  rw [List.getElem?_map]
  cases t.classes[c.index]? with
  | none => rfl
  | some k =>
    simp only [Option.bind_eq_bind, Option.bind_some, Option.map_some]
    cases k.field? name <;> rfl

theorem fieldWithin_eq_some_iff {steps : Nat} :
    t.fieldWithin name steps c = some f ↔ ∃ k < steps, t.FindsAt name f k c := by
  induction steps generalizing c with
  | zero => simp [fieldWithin]
  | succ steps ih =>
    rw [fieldWithin_succ, Option.or_eq_some_iff, Option.bind_eq_some_iff]
    simp only [ih]
    constructor
    · rintro (hown | ⟨hnone, d, hd, k, hk, hfinds⟩)
      · exact ⟨0, by omega, hown⟩
      · exact ⟨k + 1, by omega, hnone, d, hd, hfinds⟩
    · rintro ⟨_ | k, hk, hfinds⟩
      · exact .inl hfinds
      · obtain ⟨hnone, d, hd, hfinds⟩ := hfinds
        exact .inr ⟨hnone, d, hd, k, by omega, hfinds⟩

theorem field?_eq_some_iff : t.field? c name = some f ↔ ∃ k, t.FindsAt name f k c := by
  unfold field?
  rw [fieldWithin_eq_some_iff]
  constructor
  · rintro ⟨k, -, hfinds⟩
    exact ⟨k, hfinds⟩
  · rintro ⟨k, hfinds⟩
    exact ⟨k, hfinds.lt_length, hfinds⟩

theorem Consistent.finds_iff (h : t.Consistent) : t.Finds name c f ↔ ∃ k, t.FindsAt name f k c := by
  constructor
  · intro hfinds
    induction hfinds with
    | here howns hname => exact ⟨0, h.ownField?_eq_some_iff.2 ⟨howns, hname⟩⟩
    | above hnone hparent _ ih =>
      obtain ⟨k, hk⟩ := ih
      exact ⟨k + 1, ownField?_eq_none_iff.2 hnone, _, hparent, hk⟩
  · rintro ⟨k, hk⟩
    induction k generalizing c with
    | zero =>
      obtain ⟨howns, hname⟩ := h.ownField?_eq_some_iff.1 hk
      exact .here howns hname
    | succ k ih =>
      obtain ⟨hnone, d, hparent, hrest⟩ := hk
      exact .above (ownField?_eq_none_iff.1 hnone) hparent (ih hrest)

theorem exists_finds_iff : (∃ f, t.Finds name c f) ↔
    ∃ d f, ReflTransGen t.hierarchy.Extends c d ∧ t.Owns d f ∧ f.name = name := by
  constructor
  · rintro ⟨f, hfinds⟩
    induction hfinds with
    | here howns hname => exact ⟨_, _, .refl, howns, hname⟩
    | above _ hparent _ ih =>
      obtain ⟨d, f, hpath, howns⟩ := ih
      exact ⟨d, f, .head hparent hpath, howns⟩
  · rintro ⟨d, f, hpath, howns, hname⟩
    induction hpath using ReflTransGen.head_induction_on with
    | refl => exact ⟨f, .here howns hname⟩
    | @head c e hparent _ ih =>
      obtain ⟨g, hg⟩ := ih
      by_cases hown : ∀ g, t.Owns c g → g.name ≠ name
      · exact ⟨g, .above hown hparent hg⟩
      · push Not at hown
        obtain ⟨g, hg, hname⟩ := hown
        exact ⟨g, .here hg hname⟩

/-! ## Both walks -/

theorem isAssignable_cls_iff :
    Ty.isAssignable t.hierarchy (.cls c) (.cls d) = true ↔ ReflTransGen t.hierarchy.Extends c d :=
  Hierarchy.isSubclass_iff

/-- Calls may close circles of classes, and no walk leaves the table or is cut off too early: a class
may stand for exactly the classes above it, and a field is the one of the first class that declares it. -/
theorem walks_after_calls {calls : List Call} {t : Table} (hcalls : ({} : Table).Admits calls)
    (ht : t = ({} : Table).after calls) :
    (∀ c d, t.Has c → ReflTransGen t.hierarchy.Extends c d → t.Has d) ∧
    (∀ c d, Ty.isAssignable t.hierarchy (.cls c) (.cls d) = true ↔ ReflTransGen t.hierarchy.Extends c d) ∧
    (∀ c d, t.hierarchy.climb d ∅ c = Ty.isAssignable t.hierarchy (.cls c) (.cls d)) ∧
    (∀ c, Ty.isAssignable t.hierarchy (.cls c) (.cls c) = true) ∧
    (∀ c d e, Ty.isAssignable t.hierarchy (.cls c) (.cls d) = true →
      Ty.isAssignable t.hierarchy (.cls d) (.cls e) = true →
      Ty.isAssignable t.hierarchy (.cls c) (.cls e) = true) ∧
    (∀ c name f, t.field? c name = some f ↔ t.Finds name c f) ∧
    (∀ c name, (t.field? c name).isSome = true ↔ ∃ d f,
      Ty.isAssignable t.hierarchy (.cls c) (.cls d) = true ∧ t.Owns d f ∧ f.name = name) := by
  have h : t.Consistent := ht ▸ consistent_empty.after hcalls
  have hfinds : ∀ c name f, t.field? c name = some f ↔ t.Finds name c f := fun c name f =>
    field?_eq_some_iff.trans h.finds_iff.symm
  refine ⟨fun c d => h.has_of_reflTransGen, fun c d => isAssignable_cls_iff,
    fun c d => Hierarchy.climb_eq_isSubclass, fun c => isAssignable_cls_iff.2 .refl, ?_, hfinds, ?_⟩
  · intro c d e hcd hde
    exact isAssignable_cls_iff.2 ((isAssignable_cls_iff.1 hcd).trans (isAssignable_cls_iff.1 hde))
  · intro c name
    simp only [Option.isSome_iff_exists, hfinds, exists_finds_iff, isAssignable_cls_iff]

/-- `A` extends `B`, and `B` and `C` extend each other. Only `C` declares `x`. -/
def lateCircle : List Call :=
  [.addClass "A" {}, .addClass "B" {}, .addClass "C" {}, .addField ⟨2⟩ "x" .int {}, .addField ⟨2⟩ "x" .boolean {},
    .setSuperclass ⟨0⟩ (some ⟨1⟩), .setSuperclass ⟨1⟩ (some ⟨2⟩), .setSuperclass ⟨2⟩ (some ⟨1⟩)]

theorem walks_after_late_circle :
    ({} : Table).Admits lateCircle ∧
    Ty.isAssignable (({} : Table).after lateCircle).hierarchy (.cls ⟨0⟩) (.cls ⟨2⟩) = true ∧
    Ty.isAssignable (({} : Table).after lateCircle).hierarchy (.cls ⟨2⟩) (.cls ⟨0⟩) = false ∧
    (({} : Table).after lateCircle).field? ⟨0⟩ "y" = none ∧
    (({} : Table).after lateCircle).Finds "x" ⟨0⟩ ⟨"x", .int, {}⟩ := by
  have hcalls : ({} : Table).Admits lateCircle := by decide +kernel
  obtain ⟨-, -, -, -, -, hfield, -⟩ := walks_after_calls hcalls rfl
  exact ⟨hcalls, by decide +kernel, by decide +kernel, by decide +kernel, (hfield _ _ _).1 (by decide +kernel)⟩

end Table

end Lowering
