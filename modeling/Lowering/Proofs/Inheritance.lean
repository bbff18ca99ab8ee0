import Lowering.Proofs.Declaration.Members
import Lowering.Proofs.Source.Inheritance
import Lowering.Proofs.WellFormedness

/-!
# Superclasses form a forest

Whatever is wrong with a program, the classes of its table are linked without cycles. Of each cycle in the
program exactly one link is left out, that of the class declared last, and it is the one reported.
-/

namespace Lowering

open Relation (TransGen ReflTransGen)
open Lowering.Source (Located ClassDecl Program firstsOf)

variable {p : Program} {t t' : Table} {r r' : List Diagnostic} {id : ClassId} {d : ClassDecl}
  {seen : List String}

namespace Reporting

/-! ## First declarations are accepted -/

theorem always_declareClass_eq (t : Table) (name : Located String) : Always (declareClass t name)
    (· = if name.val ∈ t.classNames then (none, t)
      else (some ⟨t.classes.length⟩, ⟨t.classes ++ [Class.blank name]⟩)) := by
  unfold declareClass
  by_cases htaken : name.val ∈ t.classNames
  · rw [if_pos htaken]
    split
    next hadd => exact absurd htaken (Table.addClass_eq_ok.1 hadd).1
    next => exact always_bind fun _ => always_pure rfl
  · rw [if_neg htaken]
    simp only [Table.addClass_eq_ok.2 ⟨htaken, rfl, rfl⟩]
    exact always_pure rfl

theorem always_declareClasses_eq (ds : List ClassDecl) {t : Table} {seen : List String}
    (hseen : ∀ x, x ∈ t.classNames ↔ x ∈ seen) : Always (declareClasses ds t)
      (· = (withIds t.classes.length (firstsOf seen ds),
        ⟨t.classes ++ (firstsOf seen ds).map fun d => Class.blank d.name⟩)) := by
  induction ds generalizing t seen with
  | nil => exact always_pure (by simp [firstsOf, withIds])
  | cons d rest ih =>
    refine (always_declareClass_eq t d.name).bind fun first hfirst => ?_
    rw [firstsOf]
    by_cases hold : d.name.val ∈ seen
    · rw [if_pos ((hseen _).2 hold)] at hfirst
      subst hfirst
      rw [if_pos hold]
      have hseen' : ∀ x, x ∈ t.classNames ↔ x ∈ seen ++ [d.name.val] := by
        intro x
        rw [hseen, List.mem_append, List.mem_singleton]
        grind
      exact (ih hseen').bind fun accepted haccepted => always_pure (by rw [haccepted])
    · rw [if_neg fun h => hold ((hseen _).1 h)] at hfirst
      subst hfirst
      rw [if_neg hold]
      have hseen' : ∀ x, x ∈ (⟨t.classes ++ [Class.blank d.name]⟩ : Table).classNames ↔ x ∈ seen ++ [d.name.val] := by
        intro x
        rw [List.mem_append, ← hseen]
        simp [Table.classNames, Class.blank]
      refine (ih hseen').bind fun accepted haccepted => always_pure ?_
      rw [haccepted]
      simp [withIds_cons]

theorem leaves_declareClass {k : Diagnostic.Kind} (h : .duplicateClass ≠ k) (t : Table) (name : Located String) :
    Leaves k (declareClass t name) := by
  unfold declareClass
  split
  · exact leaves_pure
  · exact leaves_report_pure h

theorem leaves_declareClasses {k : Diagnostic.Kind} (h : .duplicateClass ≠ k) (ds : List ClassDecl) (t : Table) :
    Leaves k (declareClasses ds t) := by
  induction ds generalizing t with
  | nil => exact leaves_pure
  | cons d rest ih => exact (leaves_declareClass h t d.name).bind fun _ => (ih _).bind fun _ => leaves_pure

/-! ## One link -/

theorem linkSuperclass_cases (h : Gives (linkSuperclass t (id, d)) r t' r') :
    (d.extends? = none ∧ t' = t ∧ r' = r) ∨
    (∃ parent, d.extends? = some parent ∧ parent.val ∉ t.classNames ∧ t' = t ∧
      r' = r ++ [⟨.undefinedClass, parent.site, [parent.val]⟩]) ∨
    (∃ parent superclass, d.extends? = some parent ∧ t.classId? parent.val = some superclass ∧
      ((t.hierarchy.isSubclass superclass id = true ∧ t' = t ∧
          r' = r ++ [⟨.cyclicInheritance, parent.site, [d.name.val]⟩]) ∨
        (t.hierarchy.isSubclass superclass id = false ∧ t' = t.setSuperclass id (some superclass) ∧ r' = r))) := by
  unfold linkSuperclass at h
  dsimp only at h
  split at h
  next hnone =>
    obtain ⟨rfl, rfl⟩ := gives_pure.1 h
    exact .inl ⟨hnone, rfl, rfl⟩
  next parent hparent =>
    split at h
    next hundefined =>
      cases h
      exact .inr (.inl ⟨parent, hparent, Table.classId?_eq_none.1 hundefined, rfl, rfl⟩)
    next superclass hid =>
      refine .inr (.inr ⟨parent, superclass, hparent, hid, ?_⟩)
      split at h
      next hbelow =>
        cases h
        exact .inl ⟨hbelow, rfl, rfl⟩
      next hbelow =>
        obtain ⟨rfl, rfl⟩ := gives_pure.1 h
        exact .inr ⟨by simpa using hbelow, rfl, rfl⟩

end Reporting

/-! ## All links -/

open Reporting

/-- The classes in `done` have been linked, unless they close a cycle, and those that do are reported. -/
structure Linking (p : Program) (done : List ClassDecl) (t : Table) (r : List Diagnostic)
    (links : List (String × String)) : Prop where
  names : t.classNames = p.distinct.classNames
  reflects : t.Reflects links
  acyclic : Acyclic links
  linked_iff : ∀ x y, Linked links x y ↔
    (∃ d ∈ done, d.link? = some (x, y)) ∧ y ∈ p.classNames ∧ ¬ p.ClosesCycle x
  reported_iff : ∀ site args, ⟨.cyclicInheritance, site, args⟩ ∈ r ↔ ∃ d ∈ done, ∃ parent,
    d.extends? = some parent ∧ p.ClosesCycle d.name.val ∧ site = parent.site ∧ args = [d.name.val]

namespace Linking

variable {done rest : List ClassDecl} {links links' : List (String × String)} {y : String}

theorem start (hr : ∀ site args, ⟨.cyclicInheritance, site, args⟩ ∉ r) : Linking p [] p.distinct.blank r [] where
  names := p.distinct.classNames_blank
  reflects := Table.reflects_blank p.nodup_classNames_distinct
  acyclic := acyclic_nil
  linked_iff x y := by simp [Linked]
  reported_iff site args := by simp [hr]

theorem closesCycle_iff (h : Linking p done t r links) (hfirsts : p.firsts = done ++ d :: rest)
    (hextends : p.Extends d.name.val y) : ReflTransGen (Linked links) y d.name.val ↔ p.ClosesCycle d.name.val := by
  have horder := p.pairwise_firsts
  rw [hfirsts, List.pairwise_append, List.pairwise_cons] at horder
  obtain ⟨-, ⟨hafter, -⟩, hbefore⟩ := horder
  refine reflTransGen_kept_iff Program.Extends.unique
    (fun hx _ => (List.idxOf_inj hx.mem_classNames).1) hextends fun {a b} => ?_
  rw [h.linked_iff, Program.extends_iff]
  constructor
  · rintro ⟨⟨d', hd', hlink⟩, hb, hkept⟩
    obtain rfl := ClassDecl.name_of_link? hlink
    exact ⟨⟨⟨d', hfirsts ▸ List.mem_append_left _ hd', hlink⟩, hb⟩, hbefore d' hd' d List.mem_cons_self, hkept⟩
  · rintro ⟨⟨⟨d', hd', hlink⟩, hb⟩, hlt, hkept⟩
    refine ⟨⟨d', ?_, hlink⟩, hb, hkept⟩
    obtain rfl := ClassDecl.name_of_link? hlink
    rw [hfirsts, List.mem_append, List.mem_cons] at hd'
    rcases hd' with hd' | rfl | hd'
    · exact hd'
    · exact absurd hlt (lt_irrefl _)
    · exact absurd hlt (hafter d' hd').asymm

theorem add (h : Linking p done t r links) (hnames : t'.classNames = t.classNames) (hreflects : t'.Reflects links')
    (hacyclic : Acyclic links')
    (hlinked : ∀ x y, Linked links' x y ↔
      Linked links x y ∨ (d.link? = some (x, y) ∧ y ∈ p.classNames ∧ ¬ p.ClosesCycle x))
    (hreported : ∀ site args, ⟨.cyclicInheritance, site, args⟩ ∈ r' ↔ ⟨.cyclicInheritance, site, args⟩ ∈ r ∨
      ∃ parent, d.extends? = some parent ∧ p.ClosesCycle d.name.val ∧ site = parent.site ∧ args = [d.name.val]) :
    Linking p (done ++ [d]) t' r' links' where
  names := hnames.trans h.names
  reflects := hreflects
  acyclic := hacyclic
  linked_iff x y := by
    rw [hlinked, h.linked_iff]
    simp only [List.mem_append, List.mem_singleton]
    grind
  reported_iff site args := by
    rw [hreported, h.reported_iff]
    simp only [List.mem_append, List.mem_singleton]
    grind

theorem unlinked (h : Linking p done t r links) (hfirsts : p.firsts = done ++ d :: rest) :
    ∀ link ∈ links, link.1 ≠ d.name.val := by
  rintro ⟨x, y⟩ hlink rfl
  obtain ⟨⟨d', hd', hlink'⟩, -⟩ := (h.linked_iff _ _).1 hlink
  have horder := p.pairwise_firsts
  rw [hfirsts, List.pairwise_append] at horder
  have hlt := horder.2.2 d' hd' d List.mem_cons_self
  rw [ClassDecl.name_of_link? hlink'] at hlt
  exact lt_irrefl _ hlt

theorem next (h : Linking p done t r links) (hfirsts : p.firsts = done ++ d :: rest) (hid : t.Named id d.name.val)
    (hgives : Gives (linkSuperclass t (id, d)) r t' r') : ∃ links', Linking p (done ++ [d]) t' r' links' := by
  have hfirst : p.first? d.name.val = some d := Program.first?_eq_some.2 ⟨by simp [hfirsts], rfl⟩
  have hdeclared : ∀ x, x ∈ t.classNames ↔ x ∈ p.classNames := by
    intro x
    rw [h.names, Program.mem_classNames_distinct]
  rcases linkSuperclass_cases hgives with ⟨hnone, rfl, rfl⟩ | ⟨parent, hparent, hundefined, rfl, rfl⟩ |
    ⟨parent, superclass, hparent, hsuperclass, hlink⟩
  · exact ⟨links, h.add rfl h.reflects h.acyclic (by simp [ClassDecl.link?, hnone]) (by simp [hnone])⟩
  · rw [hdeclared] at hundefined
    have hopen : ¬ p.ClosesCycle d.name.val := by
      intro hcloses
      obtain ⟨_, d', parent', hd', hparent', rfl, hy⟩ := hcloses.extends
      obtain rfl := Option.some.inj (hfirst.symm.trans hd')
      obtain rfl := Option.some.inj (hparent.symm.trans hparent')
      exact hundefined hy
    refine ⟨links, h.add rfl h.reflects h.acyclic (fun x y => ?_) (by simp [hopen])⟩
    simp only [ClassDecl.link?, hparent, Option.map_some, Option.some.injEq, Prod.mk.injEq]
    grind
  · have hmem : parent.val ∈ t.classNames := List.mem_of_getElem? (Table.named_of_classId? hsuperclass)
    have hextends : p.Extends d.name.val parent.val := ⟨d, parent, hfirst, hparent, rfl, (hdeclared _).1 hmem⟩
    have hback := h.closesCycle_iff hfirsts hextends
    have hsubclass : t.hierarchy.isSubclass superclass id = true ↔ p.ClosesCycle d.name.val := by
      rw [Hierarchy.isSubclass_iff, h.reflects.reflTransGen_iff (Table.named_of_classId? hsuperclass) hid, hback]
    rcases hlink with ⟨hbelow, rfl, rfl⟩ | ⟨hbelow, rfl, rfl⟩
    · have hcloses := hsubclass.1 hbelow
      refine ⟨links, h.add rfl h.reflects h.acyclic (fun x y => ?_) (by simp [hparent, hcloses])⟩
      simp only [ClassDecl.link?, hparent, Option.map_some, Option.some.injEq, Prod.mk.injEq]
      grind
    · have hopen : ¬ p.ClosesCycle d.name.val := by rw [← hsubclass, hbelow]; simp
      refine ⟨(d.name.val, parent.val) :: links, h.add (t.classNames_setSuperclass _ _)
        (h.reflects.link hid (Table.named_of_classId? hsuperclass) (h.unlinked hfirsts))
        (acyclic_cons.2 ⟨h.acyclic, mt hback.1 hopen⟩) (fun x y => ?_) (by simp [hopen])⟩
      simp only [Linked, List.mem_cons, ClassDecl.link?, hparent, Option.map_some, Option.some.injEq, Prod.mk.injEq]
      grind

theorem run (pending : List (ClassId × ClassDecl)) {done : List ClassDecl} {t : Table} {r : List Diagnostic}
    {links : List (String × String)} (h : Linking p done t r links)
    (hfirsts : p.firsts = done ++ (pending.map Prod.snd ++ rest))
    (hids : ∀ entry ∈ pending, p.distinct.blank.Named entry.1 entry.2.name.val)
    (hgives : Gives (pending.foldlM linkSuperclass t) r t' r') :
    ∃ links', Linking p (done ++ pending.map Prod.snd) t' r' links' := by
  induction pending generalizing done t r links with
  | nil =>
    obtain ⟨rfl, rfl⟩ := gives_pure.1 hgives
    exact ⟨links, by simpa using h⟩
  | cons entry pending ih =>
    obtain ⟨id, d⟩ := entry
    obtain ⟨hid, hids⟩ := List.forall_mem_cons.1 hids
    rw [Table.Named, p.distinct.classNames_blank, ← h.names] at hid
    rw [List.foldlM_cons] at hgives
    obtain ⟨t₁, r₁, hfirst, hrest⟩ := gives_bind.1 hgives
    obtain ⟨links₁, h₁⟩ := h.next hfirsts hid hfirst
    simpa using ih h₁ (by simpa using hfirsts) hids hrest

end Linking

/-! ## The whole pass -/

/-- The table after the class is linked, or left as it is. -/
def Table.link (t : Table) (entry : ClassId × ClassDecl) : Table := ((linkSuperclass t entry).run []).1

theorem Reporting.always_linkSuperclass_eq (t : Table) (entry : ClassId × ClassDecl) :
    Always (linkSuperclass t entry) (· = t.link entry) := by
  intro reports
  obtain ⟨id, d⟩ := entry
  simp only [Table.link, linkSuperclass]
  cases d.extends? with
  | none => rfl
  | some parent =>
    dsimp only
    split
    · rfl
    · split <;> rfl

theorem Reporting.always_links_eq (entries : List (ClassId × ClassDecl)) (t : Table) :
    Always (entries.foldlM linkSuperclass t) (· = entries.foldl Table.link t) := by
  induction entries generalizing t with
  | nil => exact always_pure rfl
  | cons entry rest ih =>
    refine (always_linkSuperclass_eq t entry).bind fun t' ht' => ?_
    rw [List.foldl_cons, ← ht']
    exact ih t'

/-- The table of the pass once the first `k` of the accepted classes have been linked. -/
def Source.Program.linkedUpTo (p : Program) (k : Nat) : Table :=
  ((withIds 1 p.firsts).take k).foldl Table.link p.distinct.blank

theorem linking_linkedUpTo (k : Nat) (hr : ∀ site args, ⟨.cyclicInheritance, site, args⟩ ∉ r)
    (hgives : Gives (((withIds 1 p.firsts).take k).foldlM linkSuperclass p.distinct.blank) r t r') :
    t = p.linkedUpTo k ∧ ∃ links, Linking p (p.firsts.take k) t r' links := by
  have hfirsts : p.firsts = [] ++ (((withIds 1 p.firsts).take k).map Prod.snd ++ p.firsts.drop k) := by
    rw [List.nil_append, List.map_take, map_snd_withIds, List.take_append_drop]
  have hids : ∀ entry ∈ (withIds 1 p.firsts).take k, p.distinct.blank.Named entry.1 entry.2.name.val :=
    fun entry hentry => Table.named_blank (p := p.distinct) (List.mem_of_mem_take hentry)
  obtain ⟨links, h⟩ := (Linking.start hr).run _ hfirsts hids hgives
  rw [List.nil_append, List.map_take, map_snd_withIds] at h
  exact ⟨(always_links_eq _ _).gives hgives, links, h⟩

theorem exists_links (p : Program) : ∃ t r r', (∀ site args, ⟨.cyclicInheritance, site, args⟩ ∉ r) ∧
    Gives ((withIds 1 p.firsts).foldlM linkSuperclass p.distinct.blank) r t r' ∧
    (declare p).1.hierarchy = t.hierarchy ∧
    ∀ site args, ⟨.cyclicInheritance, site, args⟩ ∈ (declare p).2 ↔ ⟨.cyclicInheritance, site, args⟩ ∈ r' := by
  have hpass : Gives (declareProgram p) [] (declare p).1 (declare p).2 := rfl
  obtain ⟨⟨main?, t₀⟩, r₀, hmain, hafter⟩ := gives_bind.1 hpass
  obtain ⟨⟨accepted, t₁⟩, r₁, hclasses, hafter'⟩ := gives_bind.1 hafter
  obtain ⟨t₂, r₂, hlinks, hmembers⟩ := gives_bind.1 hafter'
  have hmain' := (always_declareClass_eq _ _).gives hmain
  rw [if_neg (show p.main.name.val ∉ Table.classNames {} from List.not_mem_nil)] at hmain'
  cases hmain'
  have hseen : ∀ x, x ∈ (⟨[Class.blank p.main.name]⟩ : Table).classNames ↔ x ∈ [p.main.name.val] := fun _ => Iff.rfl
  have hclasses' := (always_declareClasses_eq p.classes hseen).gives hclasses
  cases hclasses'
  have hfill := keeps_updateClass (keeps_declareMain (t := t₂) p.main) t₂ ⟨0⟩
  have hkeeps := hfill.bind (keeps_foldlM
    (fun t entry => keeps_updateClass (keeps_declareMembers (t := t) entry.2) t entry.1) (withIds 1 p.firsts))
  refine ⟨t₂, r₁, r₂, fun site args hmem => ?_, hlinks, hkeeps.same.gives hmembers,
    fun site args => hkeeps.leaves.mem_iff hmembers rfl⟩
  rw [(leaves_declareClasses (k := .cyclicInheritance) (by decide) _ _).mem_iff hclasses rfl,
    (leaves_declareClass (k := .cyclicInheritance) (by decide) _ _).mem_iff hmain rfl] at hmem
  cases hmem

/-! ## The hierarchy in the table -/

theorem Table.classId?_of_hierarchy (h : t'.hierarchy = t.hierarchy) (x : String) : t'.classId? x = t.classId? x := by
  have hname : ∀ t : Table, t.classId? x = (t.hierarchy.classes.findIdx? (·.name == x)).map ClassId.mk := by
    intro t
    rw [Table.hierarchy, List.findIdx?_map]
    rfl
  rw [hname, hname, h]

namespace Table.Reflects

variable {links : List (String × String)} {c e : ClassId} {x y : String}

theorem classId?_iff (h : t.Reflects links) : t.classId? x = some c ↔ t.Named c x := by
  refine ⟨Table.named_of_classId?, fun hc => ?_⟩
  cases hid : t.classId? x with
  | none => exact absurd (List.mem_of_getElem? hc) (Table.classId?_eq_none.1 hid)
  | some c' => rw [h.named_injective (Table.named_of_classId? hid) hc]

theorem acyclic (h : t.Reflects links) (hlinks : Acyclic links) (c : ClassId) :
    ¬ TransGen t.hierarchy.Extends c c := by
  intro hcycle
  obtain ⟨d, hfirst, hback⟩ := TransGen.head'_iff.1 hcycle
  obtain ⟨x, y, hx, hy, hlink⟩ := h.extends_iff.1 hfirst
  exact hlinks x (.head' hlink ((h.reflTransGen_iff hy hx).1 hback))

theorem superclass_iff (h : t.Reflects links) (hc : t.classId? x = some c) :
    t.hierarchy.superclass c = some e ↔ ∃ y, Linked links x y ∧ t.classId? y = some e := by
  rw [h.classId?_iff] at hc
  refine h.extends_iff.trans ⟨?_, ?_⟩
  · rintro ⟨x', y, hx', hy, hlink⟩
    exact ⟨y, hx'.unique hc ▸ hlink, h.classId?_iff.2 hy⟩
  · rintro ⟨y, hlink, hy⟩
    exact ⟨x, y, hc, h.classId?_iff.1 hy, hlink⟩

end Table.Reflects

/-- Superclasses form a forest, at each stage of the pass and in the end. Exactly the links that would close a
cycle are left out and reported. -/
theorem declare_superclasses (p : Program) :
    ((declare p).1.hierarchy = (p.linkedUpTo p.firsts.length).hierarchy ∧
      ∀ k c, ∃ n, (p.linkedUpTo k).hierarchy.up n c = none) ∧
    (∀ c, ¬ TransGen (declare p).1.hierarchy.Extends c c) ∧
    (∀ site args, ⟨.cyclicInheritance, site, args⟩ ∈ (declare p).2 ↔ ∃ x d parent, p.first? x = some d ∧
      d.extends? = some parent ∧ p.ClosesCycle x ∧ site = parent.site ∧ args = [x]) ∧
    (∀ x, (∃ c, (declare p).1.classId? x = some c) ↔ x ∈ p.classNames) ∧
    ∀ x c e, (declare p).1.classId? x = some c → ((declare p).1.hierarchy.superclass c = some e ↔
      ∃ y, p.Extends x y ∧ ¬ p.ClosesCycle x ∧ (declare p).1.classId? y = some e) := by
  have hstage : ∀ k, ∃ r links, Linking p (p.firsts.take k) (p.linkedUpTo k) r links := by
    intro k
    have hgives := gives_run (((withIds 1 p.firsts).take k).foldlM linkSuperclass p.distinct.blank) []
    obtain ⟨heq, links, h⟩ := linking_linkedUpTo k (fun _ _ => List.not_mem_nil) hgives
    exact ⟨_, links, heq ▸ h⟩
  obtain ⟨t, r, r', hr, hlinks, hhierarchy, hreports⟩ := exists_links p
  have hall : (withIds 1 p.firsts).take p.firsts.length = withIds 1 p.firsts :=
    List.take_of_length_le (by simp [withIds])
  rw [← hall] at hlinks
  obtain ⟨rfl, links, h⟩ := linking_linkedUpTo _ hr hlinks
  rw [List.take_length] at h
  simp only [hhierarchy, Table.classId?_of_hierarchy hhierarchy, hreports]
  refine ⟨⟨trivial, fun k c => ?_⟩, h.reflects.acyclic h.acyclic, fun site args => ?_, fun x => ?_, fun x c e hc => ?_⟩
  · obtain ⟨r, links, h⟩ := hstage k
    exact Hierarchy.exists_up_eq_none (h.reflects.acyclic h.acyclic) c
  · rw [h.reported_iff]
    simp only [Program.first?_eq_some]
    grind
  · rw [← Option.ne_none_iff_exists', ne_eq, Table.classId?_eq_none, not_not, h.names, Program.mem_classNames_distinct]
  · simp only [h.reflects.superclass_iff hc, h.linked_iff, Program.extends_iff, and_assoc]

/-- Three classes in a circle, and a fourth one below the last of them. -/
def circle : Program where
  main := { name := ⟨"Main", ⟨1, 1⟩⟩, method := ⟨"main", ⟨1, 2⟩⟩, args := ⟨"args", ⟨1, 3⟩⟩, locals := [], body := [] }
  classes := [("A", 2, "B"), ("B", 3, "C"), ("C", 4, "A"), ("D", 5, "C")].map fun (name, line, parent) =>
    { name := ⟨name, ⟨line, 1⟩⟩, extends? := some ⟨parent, ⟨line, 2⟩⟩, fields := [], methods := [] }

theorem declare_superclasses_circle : circle.ClosesCycle "C" ∧ ¬ circle.ClosesCycle "A" ∧
    (declare circle).1.hierarchy.superclass ⟨3⟩ = none ∧ (declare circle).1.hierarchy.superclass ⟨1⟩ = some ⟨2⟩ := by
  obtain ⟨-, -, hreported, -, hsuperclass⟩ := declare_superclasses circle
  have hreports : (declare circle).2 = [⟨.cyclicInheritance, ⟨4, 2⟩, ["C"]⟩] := by decide +kernel
  rw [hreports] at hreported
  have hlast : circle.ClosesCycle "C" := by
    obtain ⟨x, d, parent, -, -, hcloses, -, hname⟩ := (hreported ⟨4, 2⟩ ["C"]).1 List.mem_cons_self
    cases hname
    exact hcloses
  have hearlier : ¬ circle.ClosesCycle "A" := by
    intro hcloses
    have hmem := (hreported ⟨2, 2⟩ ["A"]).2 ⟨"A", _, _, rfl, rfl, hcloses, rfl, rfl⟩
    revert hmem
    decide
  refine ⟨hlast, hearlier, ?_, ?_⟩
  · refine Option.eq_none_iff_forall_ne_some.2 fun e he => ?_
    obtain ⟨y, -, hopen, -⟩ := (hsuperclass "C" ⟨3⟩ e (by decide +kernel)).1 he
    exact hopen hlast
  · have hextends : circle.Extends "A" "B" := ⟨_, _, rfl, rfl, rfl, by decide⟩
    exact (hsuperclass "A" ⟨1⟩ ⟨2⟩ (by decide +kernel)).2 ⟨"B", hextends, hearlier, by decide +kernel⟩

end Lowering
