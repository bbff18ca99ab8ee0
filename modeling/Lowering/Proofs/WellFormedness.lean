import Lowering.Proofs.Declaration.Links

/-!
# The declaration pass reports nothing if and only if the program is well formed

One lemma for each stage of the pass: the classes are linked, the main class gets its procedure, and
the other classes get their members.
-/

namespace Lowering

open Lowering.Source (ClassDecl Proper Stmt Program)

variable {p : Program} {t t' : Table}

/-! ## Linking the classes -/

theorem Source.Program.classNames_blank (p : Program) : p.blank.classNames = p.classNames := by
  simp [Program.blank, Table.classNames, Program.classNames, Class.blank, Function.comp_def]

theorem Table.reflects_blank (hnames : p.classNames.Nodup) : p.blank.Reflects [] := by
  have hnone : ∀ c, p.blank.hierarchy.superclass c = none := by
    intro c
    have hclass : ∀ k ∈ p.blank.classes, k.superclass = none := by
      simp [Program.blank, Class.blank]
    rw [Hierarchy.superclass, Option.bind_eq_none_iff]
    intro entry hentry
    obtain ⟨k, hk, rfl⟩ := List.mem_map.1 (List.mem_of_getElem? hentry)
    exact hclass k hk
  have hextends : ∀ {c d}, ¬ p.blank.hierarchy.Extends c d := by
    intro c d h
    rw [Hierarchy.Extends, hnone] at h
    cases h
  have hlinked : ∀ {x y}, ¬ Linked [] x y := List.not_mem_nil
  refine ⟨p.classNames_blank.symm ▸ hnames, fun hlink => absurd hlink hlinked, fun {c d} => ?_⟩
  constructor
  · intro h
    exact absurd h hextends
  · rintro ⟨_, _, -, -, hlink⟩
    exact absurd hlink hlinked

theorem Table.named_blank {entry : ClassId × ClassDecl} (h : entry ∈ withIds 1 p.classes) :
    p.blank.Named entry.1 entry.2.name.val := by
  obtain ⟨⟨d, i⟩, hmem, rfl⟩ := List.mem_map.1 h
  obtain ⟨hle, hget⟩ := List.mem_zipIdx_iff_le_and_getElem?_sub.1 hmem
  obtain ⟨k, rfl⟩ := Nat.exists_eq_add_of_le' hle
  rw [Nat.add_sub_cancel] at hget
  rw [Table.Named, p.classNames_blank]
  simp [Program.classNames, hget]

namespace Reporting

theorem quiet_linkClasses_iff (hnames : p.classNames.Nodup) :
    Quiet ((withIds 1 p.classes).foldlM linkSuperclass p.blank) ↔
      (∀ link ∈ p.classes.filterMap ClassDecl.link?, link.2 ∈ p.classNames) ∧
        Acyclic (p.classes.filterMap ClassDecl.link?) := by
  have hlinks : (withIds 1 p.classes).filterMap (·.2.link?) = p.classes.filterMap ClassDecl.link? := by
    conv_rhs => rw [← map_snd_withIds 1 p.classes, List.filterMap_map]
    rfl
  have hnodup : ((withIds 1 p.classes).map (·.2.name.val)).Nodup := by
    have hrest := (List.nodup_cons.1 hnames).2
    rw [← map_snd_withIds 1 p.classes, List.map_map] at hrest
    exact hrest
  have hpending : Pending p.blank [] (withIds 1 p.classes) :=
    ⟨Table.reflects_blank hnames, acyclic_nil, fun _ => Table.named_blank, hnodup, by simp⟩
  rw [quiet_links_iff _ hpending, hlinks, List.append_nil, p.classNames_blank]

/-! ## Filling the classes -/

theorem quiet_updateClass_iff {id : ClassId} {change : Class → Reporting Class} (before : List Outline)
    {after : List Outline} {entry : Outline} {P : Prop} (hout : t.outline = before ++ entry :: after)
    (hid : id.index = before.length)
    (hchange : ∀ c, c.outline = entry → (Quiet (change c) ↔ P)) : Quiet (updateClass t id change) ↔ P := by
  obtain ⟨c, hclass, hentry⟩ := class?_of_outline before hout hid
  simp only [updateClass, hclass, quiet_bind_pure]
  exact hchange c hentry

theorem quiet_fillMain_iff (hout : t.outline = p.blank.outline) :
    Quiet (updateClass t ⟨0⟩ (declareMain t p.main)) ↔
      Proper p.classNames p.main.locals ∧ Stmt.AllWellFormed p.classNames p.main.body := by
  have hnames : t.classNames = p.classNames := by
    rw [← t.map_name_outline, hout, Table.map_name_outline, p.classNames_blank]
  rw [← hnames]
  rw [outline_blank] at hout
  exact quiet_updateClass_iff [] hout rfl
    fun c hentry => quiet_declareMain_iff (congrArg Outline.methods hentry)

theorem outline_of_fillMain (hout : t.outline = p.blank.outline)
    (h : Gives (updateClass t ⟨0⟩ (declareMain t p.main)) [] t' []) :
    t'.classNames = p.classNames ∧
      ∃ entry, t'.outline = [entry] ++ p.classes.map fun d => { name := d.name.val } := by
  rw [outline_blank] at hout
  obtain ⟨c, c', hentry, hmain, hout'⟩ := gives_updateClass [] h hout rfl
  have hname := ((quiet_declareMain hmain).2 (congrArg Outline.name hentry) (congrArg Outline.methods hentry)).name
  refine ⟨?_, c'.outline, hout'⟩
  simp [← Table.map_name_outline, hout', hname, Program.classNames, Function.comp_def]

theorem quiet_fillClasses_iff (ds : List ClassDecl) {t : Table} (done : List Outline)
    (hout : t.outline = done ++ ds.map fun d => { name := d.name.val }) :
    Quiet ((withIds done.length ds).foldlM (fun t (id, d) => updateClass t id (declareMembers t d)) t) ↔
      ∀ d ∈ ds, d.WellFormed t.classNames := by
  induction ds generalizing t done with
  | nil => simp [withIds, quiet_pure]
  | cons d rest ih =>
    have hrest : ∀ t', Gives (updateClass t ⟨done.length⟩ (declareMembers t d)) [] t' [] →
        (Quiet ((withIds (done.length + 1) rest).foldlM
          (fun t (id, d) => updateClass t id (declareMembers t d)) t') ↔
            ∀ d ∈ rest, d.WellFormed t.classNames) := by
      intro t' hgives
      obtain ⟨c, c', hentry, hmembers, hout'⟩ := gives_updateClass done hgives hout rfl
      have hname := ((quiet_declareMembers hmembers).2 (congrArg Outline.name hentry)
        (congrArg Outline.methods hentry)).name
      have hnames : t'.classNames = t.classNames := by
        simp [← Table.map_name_outline, hout, hout', hname]
      rw [← hnames]
      simpa using ih (done ++ [c'.outline]) (by simp [hout'])
    rw [withIds_cons, List.foldlM_cons, quiet_bind_and (quiet_updateClasses _) hrest,
      quiet_updateClass_iff done hout rfl fun c hentry => quiet_declareMembers_iff
        (congrArg Outline.fields hentry) (congrArg Outline.methods hentry), List.forall_mem_cons]

end Reporting

/-! ## The whole pass -/

open Reporting

/-- The pass reports nothing on well-formed programs, and on no others. -/
theorem declare_quiet_iff_wellFormed (p : Program) : (declare p).2 = [] ↔ p.WellFormed := by
  constructor
  · intro h
    have hgives : Gives (declareProgram p) [] (declare p).1 [] := Prod.ext rfl h
    obtain ⟨-, hnames, t₁, t₂, hlinks, hmain, hclasses⟩ := gives_declareProgram.1 hgives
    obtain ⟨hparents, hacyclic⟩ := (quiet_linkClasses_iff hnames).1 ⟨t₁, hlinks⟩
    have hout₁ := (quiet_linkSuperclasses _ hlinks).2
    obtain ⟨hlocals, hbody⟩ := (quiet_fillMain_iff hout₁).1 ⟨t₂, hmain⟩
    obtain ⟨hnames₂, entry, hout₂⟩ := outline_of_fillMain hout₁ hmain
    have hmembers := (quiet_fillClasses_iff p.classes [entry] hout₂).1 ⟨_, hclasses⟩
    exact ⟨hnames, hparents, hacyclic, hlocals, hbody, hnames₂ ▸ hmembers⟩
  · intro h
    obtain ⟨t₁, hlinks⟩ := (quiet_linkClasses_iff h.names).2 ⟨h.parents, h.acyclic⟩
    have hout₁ := (quiet_linkSuperclasses _ hlinks).2
    obtain ⟨t₂, hmain⟩ := (quiet_fillMain_iff hout₁).2 ⟨h.locals, h.body⟩
    obtain ⟨hnames₂, entry, hout₂⟩ := outline_of_fillMain hout₁ hmain
    obtain ⟨t, hclasses⟩ := (quiet_fillClasses_iff p.classes [entry] hout₂).2 (hnames₂ ▸ h.classes)
    have hgives := gives_declareProgram.2 ⟨rfl, h.names, t₁, t₂, hlinks, hmain, hclasses⟩
    exact congrArg Prod.snd hgives

end Lowering
