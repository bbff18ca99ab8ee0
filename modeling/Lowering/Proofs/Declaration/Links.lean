import Lowering.Proofs.Declaration.Bodies
import Lowering.Proofs.Table.Hierarchy

/-!
# Links that close no cycle

The classes are linked one by one, and each link is checked against those before it. The table knows
classes by their numbers, so its walk up the hierarchy is first told again with names.
-/

namespace Lowering

open Relation (ReflTransGen)

namespace Table

variable {t : Table} {links : List (String × String)} {c d id : ClassId} {x y : String}

/-- The class with this number has this name. -/
def Named (t : Table) (c : ClassId) (x : String) : Prop := t.classNames[c.index]? = some x

theorem Named.unique (hx : t.Named c x) (hy : t.Named c y) : x = y := Option.some.inj (hx.symm.trans hy)

theorem Named.injective (hc : t.Named c x) (h : t.classNames.Nodup) (hd : t.Named d x) : c = d := by
  have hlt : c.index < t.classNames.length := (List.getElem?_eq_some_iff.1 hc).1
  have hindex := (List.getElem?_inj hlt h).1 (hc.trans hd.symm)
  cases c
  cases d
  exact congrArg ClassId.mk hindex

theorem Named.lt_length (h : t.Named c x) : c.index < t.classes.length := by
  obtain ⟨hlt, -⟩ := List.getElem?_eq_some_iff.1 h
  simpa [classNames] using hlt

theorem named_of_classId? (h : t.classId? x = some c) : t.Named c x := by
  simp only [classId?, Option.map_eq_some_iff, List.findIdx?_eq_some_iff_getElem, beq_iff_eq] at h
  obtain ⟨i, ⟨hlt, hname, -⟩, rfl⟩ := h
  simp [Named, classNames, hlt, hname]

/-- The links of the table are those between the names of its classes. -/
structure Reflects (t : Table) (links : List (String × String)) : Prop where
  nodup : t.classNames.Nodup
  sources : ∀ {x y}, Linked links x y → ∃ c, t.Named c x
  extends_iff : ∀ {c d}, t.hierarchy.Extends c d ↔ ∃ x y, t.Named c x ∧ t.Named d y ∧ Linked links x y

namespace Reflects

theorem named_injective (h : t.Reflects links) (hc : t.Named c x) (hd : t.Named d x) : c = d :=
  hc.injective h.nodup hd

theorem reflTransGen_iff (h : t.Reflects links) (hc : t.Named c x) (hd : t.Named d y) :
    ReflTransGen t.hierarchy.Extends c d ↔ ReflTransGen (Linked links) x y := by
  constructor
  · intro hpath
    induction hpath generalizing y with
    | refl =>
      rw [hc.unique hd]
    | tail _ hlast ih =>
      obtain ⟨x', y', hx', hy', hlink⟩ := h.extends_iff.1 hlast
      rw [hd.unique hy']
      exact (ih hx').tail hlink
  · intro hpath
    induction hpath generalizing d with
    | refl => rw [h.named_injective hc hd]
    | tail _ hlast ih =>
      obtain ⟨e, he⟩ := h.sources hlast
      exact (ih he).tail (h.extends_iff.2 ⟨_, _, he, hd, hlast⟩)

end Reflects

theorem superclass_setSuperclass (hid : id.index < t.classes.length) (s : Option ClassId) :
    (t.setSuperclass id s).hierarchy.superclass c = if c = id then s else t.hierarchy.superclass c := by
  obtain ⟨i⟩ := c
  obtain ⟨j⟩ := id
  simp only [Hierarchy.superclass, hierarchy, setSuperclass, List.getElem?_map, List.getElem?_modify,
    ClassId.mk.injEq]
  by_cases heq : i = j
  · subst heq
    simp [hid]
  · simp [heq, Ne.symm heq]

theorem classNames_setSuperclass (t : Table) (id : ClassId) (s : Option ClassId) :
    (t.setSuperclass id s).classNames = t.classNames := by
  refine List.ext_getElem? fun i => ?_
  simp only [classNames, setSuperclass, List.getElem?_map, List.getElem?_modify]
  split <;> cases t.classes[i]? <;> rfl

theorem Reflects.link (h : t.Reflects links) (hid : t.Named id x) (hd : t.Named d y)
    (hnew : ∀ link ∈ links, link.1 ≠ x) : (t.setSuperclass id (some d)).Reflects ((x, y) :: links) := by
  have hnamed : ∀ c x, (t.setSuperclass id (some d)).Named c x ↔ t.Named c x := by
    intro c x
    rw [Named, classNames_setSuperclass, Named]
  refine ⟨by rw [classNames_setSuperclass]; exact h.nodup, fun {x' y'} hlink => ?_, fun {c e} => ?_⟩
  · rcases List.mem_cons.1 hlink with heq | hlink
    · cases heq
      exact ⟨id, (hnamed _ _).2 hid⟩
    · obtain ⟨c, hc⟩ := h.sources hlink
      exact ⟨c, (hnamed _ _).2 hc⟩
  · simp only [hnamed, Linked, List.mem_cons, Prod.mk.injEq]
    rw [Hierarchy.Extends, superclass_setSuperclass hid.lt_length]
    split
    next heq =>
      subst heq
      constructor
      · intro hsome
        cases hsome
        exact ⟨x, y, hid, hd, .inl ⟨rfl, rfl⟩⟩
      · rintro ⟨x', y', hx', hy', ⟨-, rfl⟩ | hlink⟩
        · rw [h.named_injective hd hy']
        -- The class has no other link than the new one.
        · exact absurd (hx'.unique hid) (hnew _ hlink)
    next hne =>
      refine h.extends_iff.trans ⟨?_, ?_⟩
      · rintro ⟨x', y', hx', hy', hlink⟩
        exact ⟨x', y', hx', hy', .inr hlink⟩
      · rintro ⟨x', y', hx', hy', ⟨rfl, -⟩ | hlink⟩
        · exact absurd (h.named_injective hx' hid) hne
        · exact ⟨x', y', hx', hy', hlink⟩

end Table

namespace Reporting

open Lowering.Source (ClassDecl)

variable {t t' : Table} {links : List (String × String)} {id : ClassId} {d : ClassDecl}

theorem quiet_linkSuperclass_iff (h : t.Reflects links) (hid : t.Named id d.name.val) :
    Quiet (linkSuperclass t (id, d)) ↔ ∀ link ∈ d.link?, link.2 ∈ t.classNames ∧
      ¬ ReflTransGen (Linked links) link.2 link.1 := by
  simp only [Quiet, gives_linkSuperclass, ClassDecl.link?]
  cases hextends : d.extends? with
  | none => simp
  | some parent =>
    have hbelow : ∀ superclass, t.classId? parent.val = some superclass →
        (t.hierarchy.isSubclass superclass id = false ↔ ¬ ReflTransGen (Linked links) parent.val d.name.val) := by
      intro superclass hsuperclass
      rw [← h.reflTransGen_iff (Table.named_of_classId? hsuperclass) hid, ← Hierarchy.isSubclass_iff,
        Bool.not_eq_true]
    have hdeclared : parent.val ∈ t.classNames ↔ ∃ superclass, t.classId? parent.val = some superclass := by
      rw [← not_iff_not, ← Table.classId?_eq_none, ← Option.ne_none_iff_exists', not_not]
    simp only [reduceCtorEq, false_and, false_or, Option.some.injEq, true_and, Option.map_some, Option.mem_def,
      forall_eq', hdeclared]
    constructor
    · rintro ⟨_, _, superclass, rfl, hsuperclass, hnot, -⟩
      exact ⟨⟨superclass, hsuperclass⟩, (hbelow _ hsuperclass).1 hnot⟩
    · rintro ⟨⟨superclass, hsuperclass⟩, hback⟩
      exact ⟨_, parent, superclass, rfl, hsuperclass, (hbelow _ hsuperclass).2 hback, rfl⟩

theorem reflects_of_linkSuperclass (h : t.Reflects links) (hid : t.Named id d.name.val)
    (hnew : ∀ link ∈ links, link.1 ≠ d.name.val) (hgives : Gives (linkSuperclass t (id, d)) [] t' []) :
    t'.Reflects (d.link?.toList ++ links) := by
  obtain ⟨-, ⟨hnone, rfl⟩ | ⟨parent, superclass, hparent, hsuperclass, -, rfl⟩⟩ := gives_linkSuperclass.1 hgives
  · simpa [ClassDecl.link?, hnone] using h
  · simpa [ClassDecl.link?, hparent] using h.link hid (Table.named_of_classId? hsuperclass) hnew

/-- The classes of `pending` are still to be linked, and `links` are there already. -/
structure Pending (t : Table) (links : List (String × String)) (pending : List (ClassId × ClassDecl)) : Prop where
  reflects : t.Reflects links
  acyclic : Acyclic links
  ids : ∀ entry ∈ pending, t.Named entry.1 entry.2.name.val
  nodup : (pending.map (·.2.name.val)).Nodup
  unlinked : ∀ link ∈ links, link.1 ∉ pending.map (·.2.name.val)

theorem Pending.next {rest : List (ClassId × ClassDecl)} (h : Pending t links ((id, d) :: rest))
    (hgives : Gives (linkSuperclass t (id, d)) [] t' []) :
    t'.classNames = t.classNames ∧ Pending t' (d.link?.toList ++ links) rest := by
  have hid := h.ids (id, d) List.mem_cons_self
  obtain ⟨hnew, hnodup⟩ := List.nodup_cons.1 h.nodup
  have hnames : t'.classNames = t.classNames := by
    rw [← t'.map_name_outline, (quiet_linkSuperclass hgives).2, t.map_name_outline]
  refine ⟨hnames, reflects_of_linkSuperclass h.reflects hid ?_ hgives, ?_, ?_, hnodup, ?_⟩
  · exact fun link hmem heq => h.unlinked link hmem (by simp [heq])
  · have hstep := (quiet_linkSuperclass_iff h.reflects hid).1 ⟨t', hgives⟩
    cases hlink : d.link? with
    | none => exact h.acyclic
    | some link => exact acyclic_cons.2 ⟨h.acyclic, (hstep link hlink).2⟩
  · intro entry hentry
    rw [Table.Named, hnames]
    exact h.ids entry (List.mem_cons_of_mem _ hentry)
  · intro link hmem
    rcases List.mem_append.1 hmem with hmem | hmem
    · obtain ⟨parent, -, rfl⟩ := Option.map_eq_some_iff.1 (Option.mem_toList.1 hmem)
      exact hnew
    · exact fun hin => h.unlinked link hmem (List.mem_cons_of_mem _ hin)

/-- Links are checked in order, but it makes no difference to a cycle which of its links comes last. -/
theorem quiet_links_iff (pending : List (ClassId × ClassDecl)) {t : Table} {links : List (String × String)}
    (h : Pending t links pending) :
    Quiet (pending.foldlM linkSuperclass t) ↔ (∀ link ∈ pending.filterMap (·.2.link?), link.2 ∈ t.classNames) ∧
      Acyclic (pending.filterMap (·.2.link?) ++ links) := by
  induction pending generalizing t links with
  | nil => simpa [quiet_pure] using h.acyclic
  | cons entry rest ih =>
    obtain ⟨id, d⟩ := entry
    have hrest : ∀ t', Gives (linkSuperclass t (id, d)) [] t' [] → (Quiet (rest.foldlM linkSuperclass t') ↔
        (∀ link ∈ rest.filterMap (·.2.link?), link.2 ∈ t.classNames) ∧
          Acyclic (rest.filterMap (·.2.link?) ++ (d.link?.toList ++ links))) := by
      intro t' hgives
      obtain ⟨hnames, hnext⟩ := h.next hgives
      rw [← hnames]
      exact ih hnext
    rw [List.foldlM_cons, quiet_bind_and (fun h => (quiet_linkSuperclasses rest h).1) hrest,
      quiet_linkSuperclass_iff h.reflects (h.ids _ List.mem_cons_self)]
    cases hlink : d.link? with
    | none => simp [hlink]
    | some link =>
      simp only [Option.mem_def, Option.some.injEq, forall_eq', Option.toList_some, List.filterMap_cons, hlink,
        List.mem_cons, forall_eq_or_imp]
      constructor
      · rintro ⟨⟨hparent, -⟩, hparents, hall⟩
        exact ⟨⟨hparent, hparents⟩, hall.of_subset (by grind)⟩
      · rintro ⟨⟨hparent, hparents⟩, hall⟩
        -- No cycle among all links means none among those up to this one, so its check succeeds.
        have hfirst : Acyclic (link :: links) := hall.of_subset (by grind)
        exact ⟨⟨hparent, (acyclic_cons.1 hfirst).2⟩, hparents, hall.of_subset (by grind)⟩

end Reporting

end Lowering
