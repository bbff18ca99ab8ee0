import Mathlib
import Lowering.Proofs.Source.WellFormed

/-!
# Which classes close a cycle

Of several classes with one name the first one counts, and the main class comes before all others. A
class extends one class at most, so a way along the links never forks and a cycle has one last class.
-/

namespace Lowering

open Relation (TransGen ReflTransGen)

/-! ## The last one on a cycle -/

section

variable {α : Type} {R K : α → α → Prop} {pos : α → Nat} {x y z : α}

/-- There is a cycle through `x`, and nothing on it comes after `x`. -/
def LastOnCycle (R : α → α → Prop) (pos : α → Nat) (x : α) : Prop :=
  TransGen R x x ∧ ∀ y, TransGen R x y → TransGen R y x → pos y ≤ pos x

/-- Links are kept in order, and `K` are those that were kept before the link of `x` comes. They lead
back to `x` exactly if `x` is the last one on a cycle. -/
theorem reflTransGen_kept_iff (hfun : ∀ {x y z}, R x y → R x z → y = z)
    (hpos : ∀ {x y x' y'}, R x y → R x' y' → pos x = pos x' → x = x') (hxy : R x y)
    (hkept : ∀ {a b}, K a b ↔ R a b ∧ pos a < pos x ∧ ¬ LastOnCycle R pos a) :
    ReflTransGen K y x ↔ LastOnCycle R pos x := by
  constructor
  · intro hback
    -- What leads to `x` by way of `K` is `x` or comes before it, and no link leaves it.
    have hbefore : ∀ a, ReflTransGen K a x → pos a ≤ pos x := by
      intro a ha
      rcases ha.cases_head with rfl | ⟨_, hfirst, -⟩
      · exact le_rfl
      · exact (hkept.1 hfirst).2.1.le
    have hclosed : ∀ a b, ReflTransGen K a x → R a b → ReflTransGen K b x := by
      intro a b ha hab
      rcases ha.cases_head with rfl | ⟨_, hfirst, hrest⟩
      · rwa [hfun hab hxy]
      · rwa [hfun hab (hkept.1 hfirst).1]
    have hall : ∀ a, ReflTransGen R x a → ReflTransGen K a x := by
      intro a ha
      induction ha with
      | refl => exact .refl
      | tail _ hlast ih => exact hclosed _ _ ih hlast
    refine ⟨.head' hxy (ReflTransGen.mono (fun _ _ hab => (hkept.1 hab).1) _ _ hback), fun a ha _ => ?_⟩
    exact hbefore a (hall a ha.to_reflTransGen)
  · rintro ⟨hcycle, hlast⟩
    have hkeep : ∀ {a}, ReflTransGen R a x → ReflTransGen R x a → ReflTransGen K a x := by
      intro a hback hthere
      induction hback using ReflTransGen.head_induction_on with
      | refl => exact .refl
      | @head a b hab hrest ih =>
        by_cases hax : a = x
        · rw [hax]
        · have hto : TransGen R x a := (Relation.reflTransGen_iff_eq_or_transGen.1 hthere).resolve_left hax
          have hfrom : TransGen R a x := .head' hab hrest
          have hlt : pos a < pos x := lt_of_le_of_ne (hlast a hto hfrom) fun heq => hax (hpos hab hxy heq)
          -- `x` is on the same cycle and comes later, so `a` is not the last one
          have hnot : ¬ LastOnCycle R pos a := fun h => absurd (h.2 x hfrom hto) (not_le.2 hlt)
          exact .head (hkept.2 ⟨hab, hlt, hnot⟩) (ih (hthere.tail hab))
    obtain ⟨z, hxz, hback⟩ := TransGen.head'_iff.1 hcycle
    rw [← hfun hxy hxz] at hback
    exact hkeep hback (.single hxy)

end

namespace Source

/-! ## Programs -/

namespace Program

/-- The declaration that counts for a name other than that of the main class. -/
def first? (p : Program) (x : String) : Option ClassDecl :=
  if x = p.main.name.val then none else p.classes.find? (·.name.val == x)

/-- The class `x` extends `y`, and `y` is declared. -/
def Extends (p : Program) (x y : String) : Prop :=
  ∃ d parent, p.first? x = some d ∧ d.extends? = some parent ∧ parent.val = y ∧ y ∈ p.classNames

/-- The class is the last one to be declared of those on a cycle. -/
def ClosesCycle (p : Program) (x : String) : Prop := LastOnCycle p.Extends p.classNames.idxOf x

end Program

/-! ## First declarations -/

/-- The classes with a name that is neither in `seen` nor that of a class before. -/
def firstsOf (seen : List String) : List ClassDecl → List ClassDecl
  | [] => []
  | d :: rest =>
    if d.name.val ∈ seen then firstsOf (seen ++ [d.name.val]) rest
    else d :: firstsOf (seen ++ [d.name.val]) rest

section

variable {seen : List String} {d : ClassDecl} {x y : String}

theorem mem_firstsOf {ds : List ClassDecl} : d ∈ firstsOf seen ds ↔
    d.name.val ∉ seen ∧ ds.find? (·.name.val == d.name.val) = some d := by
  induction ds generalizing seen with
  | nil => simp [firstsOf]
  | cons d' rest ih =>
    rw [firstsOf, List.find?_cons]
    by_cases hname : d'.name.val = d.name.val
    · rw [hname, beq_self_eq_true]
      by_cases hseen : d.name.val ∈ seen
      · simp [hseen, ih]
      · simp [hseen, ih, eq_comm]
    · have hne : d ≠ d' := fun heq => hname (by rw [heq])
      rw [beq_false_of_ne hname]
      split <;> simp [ih, hne, Ne.symm hname]

theorem mem_names_firstsOf {ds : List ClassDecl} :
    x ∈ seen ++ (firstsOf seen ds).map (·.name.val) ↔ x ∈ seen ++ ds.map (·.name.val) := by
  induction ds generalizing seen with
  | nil => rfl
  | cons d rest ih =>
    have hrest := @ih (seen ++ [d.name.val])
    simp only [List.append_assoc, List.singleton_append] at hrest
    rw [List.map_cons, ← hrest, firstsOf]
    split
    next hseen =>
      simp only [List.mem_append, List.mem_cons]
      grind
    next => rw [List.map_cons]

theorem pairwise_firstsOf (ds : List ClassDecl) (seen : List String) : (firstsOf seen ds).Pairwise fun d d' =>
    (seen ++ ds.map (·.name.val)).idxOf d.name.val < (seen ++ ds.map (·.name.val)).idxOf d'.name.val := by
  induction ds generalizing seen with
  | nil => exact .nil
  | cons d rest ih =>
    have hrest := ih (seen ++ [d.name.val])
    rw [List.append_assoc, List.singleton_append] at hrest
    rw [firstsOf, List.map_cons]
    split
    next => exact hrest
    next hnew =>
      refine .cons (fun d' hd' => ?_) hrest
      have hnew' := (mem_firstsOf.1 hd').1
      rw [List.idxOf_append_of_notMem hnew, List.idxOf_cons_self, ← List.singleton_append, ← List.append_assoc,
        List.idxOf_append_of_notMem hnew', List.length_append, List.length_singleton]
      omega

end

theorem ClassDecl.name_of_link? {d : ClassDecl} {x y : String} (h : d.link? = some (x, y)) : d.name.val = x := by
  obtain ⟨_, -, heq⟩ := Option.map_eq_some_iff.1 h
  exact congrArg Prod.fst heq

namespace Program

variable {p : Program} {d : ClassDecl} {x y z : String}

/-- The classes that are accepted beside the main class. -/
def firsts (p : Program) : List ClassDecl := firstsOf [p.main.name.val] p.classes

/-- The program without the classes that do not count. -/
def distinct (p : Program) : Program := { p with classes := p.firsts }

theorem first?_eq_some : p.first? x = some d ↔ d ∈ p.firsts ∧ d.name.val = x := by
  rw [firsts, mem_firstsOf, List.mem_singleton, first?]
  constructor
  · intro h
    split at h
    next => cases h
    next hmain =>
      obtain rfl : d.name.val = x := by simpa using List.find?_some h
      exact ⟨⟨hmain, h⟩, rfl⟩
  · rintro ⟨⟨hmain, h⟩, rfl⟩
    rw [if_neg hmain, h]

theorem mem_classNames_distinct : x ∈ p.distinct.classNames ↔ x ∈ p.classNames :=
  @mem_names_firstsOf [p.main.name.val] x p.classes

theorem pairwise_firsts (p : Program) : p.firsts.Pairwise fun d d' =>
    p.classNames.idxOf d.name.val < p.classNames.idxOf d'.name.val := pairwise_firstsOf p.classes [p.main.name.val]

theorem nodup_classNames_distinct (p : Program) : p.distinct.classNames.Nodup := by
  refine List.nodup_cons.2 ⟨fun hmem => ?_, ?_⟩
  · obtain ⟨d, hd, hname⟩ := List.mem_map.1 hmem
    exact (mem_firstsOf.1 hd).1 (List.mem_singleton.2 hname)
  · refine List.pairwise_map.2 (p.pairwise_firsts.imp fun hlt heq => ?_)
    rw [heq] at hlt
    exact lt_irrefl _ hlt

theorem extends_iff : p.Extends x y ↔ (∃ d ∈ p.firsts, d.link? = some (x, y)) ∧ y ∈ p.classNames := by
  simp only [Extends, first?_eq_some, ClassDecl.link?, Option.map_eq_some_iff, Prod.mk.injEq]
  constructor
  · rintro ⟨d, parent, ⟨hd, hname⟩, hparent, hval, hy⟩
    exact ⟨⟨d, hd, parent, hparent, hname, hval⟩, hy⟩
  · rintro ⟨⟨d, hd, parent, hparent, hname, hval⟩, hy⟩
    exact ⟨d, parent, ⟨hd, hname⟩, hparent, hval, hy⟩

theorem Extends.unique (h : p.Extends x y) (h' : p.Extends x z) : y = z := by
  obtain ⟨d, parent, hd, hparent, rfl, -⟩ := h
  obtain ⟨d', parent', hd', hparent', rfl, -⟩ := h'
  obtain rfl := Option.some.inj (hd.symm.trans hd')
  rw [Option.some.inj (hparent.symm.trans hparent')]

theorem Extends.mem_classNames (h : p.Extends x y) : x ∈ p.classNames := by
  obtain ⟨d, -, hfirst, -⟩ := h
  obtain ⟨hd, rfl⟩ := first?_eq_some.1 hfirst
  exact mem_classNames_distinct.1 (List.mem_cons_of_mem _ (List.mem_map_of_mem hd))

theorem ClosesCycle.extends (h : p.ClosesCycle x) : ∃ y, p.Extends x y := by
  obtain ⟨y, hy, -⟩ := TransGen.head'_iff.1 h.1
  exact ⟨y, hy⟩

end Program

end Source

end Lowering
