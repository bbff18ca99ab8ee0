import Lowering.Proofs.Linear.Marks
import Lowering.Proofs.Lowered.Emission
import Lowering.Proofs.Scoping

/-!
# Hygiene of a unit

One supply serves all procedures, so each gets labels and temps from a stretch of its own. The two
labels around a body are made of names instead, and names without a dollar sign keep them apart.
-/

namespace Lowering

open Lowering.Tree (Temp Label Stm Closed marksOf labelsOf)
open Lowering.Source (Program)
open Supply (Before labelsBetween labelNamed)
open LowerUnit (Chain Place findPlace procedureLabel startOf)

/-! ## Labels made of names -/

namespace Procedure

/-- Its names can be read off its labels. -/
def Plain (q : Procedure) : Prop := '$' ∉ q.cls.toList ∧ '$' ∉ q.name.toList

instance (q : Procedure) : Decidable q.Plain := inferInstanceAs (Decidable (_ ∧ _))

/-- The label at the start of the body. -/
def entry (q : Procedure) : Label := procedureLabel q.cls q.name

/-- The labels around the body. -/
def ends (q : Procedure) : List Label := [q.entry, ⟨q.entry.name ++ "$end"⟩]

variable {q r : Procedure}

theorem dollar_mem_ends {l : Label} (h : l ∈ q.ends) : '$' ∈ l.name.toList := by
  simp only [ends, List.mem_cons, List.not_mem_nil, or_false] at h
  rcases h with rfl | rfl <;> simp [entry, procedureLabel]

theorem Plain.splitOn_ends {l : Label} (hq : q.Plain) (h : l ∈ q.ends) : ∃ rest,
    l.name.toList.splitOn '$' = q.cls.toList :: q.name.toList :: rest := by
  simp only [ends, List.mem_cons, List.not_mem_nil, or_false] at h
  rcases h with rfl | rfl
  · have hsplit : (['$'].intercalate [q.cls.toList, q.name.toList]).splitOn '$' = [q.cls.toList, q.name.toList] :=
      List.splitOn_intercalate '$' (by simp [hq.1, hq.2]) (by simp)
    exact ⟨[], by simpa [entry, procedureLabel] using hsplit⟩
  · have hsplit : (['$'].intercalate [q.cls.toList, q.name.toList, "end".toList]).splitOn '$' =
        [q.cls.toList, q.name.toList, "end".toList] :=
      List.splitOn_intercalate '$' (by simp [hq.1, hq.2]) (by simp)
    exact ⟨["end".toList], by simpa [entry, procedureLabel] using hsplit⟩

theorem Plain.disjoint_ends (hq : q.Plain) (hr : r.Plain) (hkey : q.key ≠ r.key) : q.ends.Disjoint r.ends := by
  intro l hl hl'
  obtain ⟨_, hsplit⟩ := hq.splitOn_ends hl
  obtain ⟨_, hsplit'⟩ := hr.splitOn_ends hl'
  rw [hsplit, List.cons.injEq, List.cons.injEq, String.toList_inj, String.toList_inj] at hsplit'
  exact hkey (Prod.ext hsplit'.1 hsplit'.2.1)

theorem nodup_ends (q : Procedure) : q.ends.Nodup := by
  have hdiffer : q.entry ≠ ⟨q.entry.name ++ "$end"⟩ := by
    intro heq
    have := congrArg (fun l : Label => l.name.length) heq
    simp at this
  simp [ends, hdiffer]

end Procedure

theorem nodup_flatMap_ends {qs : List Procedure} (hplain : ∀ q ∈ qs, q.Plain)
    (hnodup : (qs.map Procedure.key).Nodup) : (qs.flatMap Procedure.ends).Nodup := by
  refine List.nodup_flatMap.2 ⟨fun q _ => q.nodup_ends, ?_⟩
  refine (List.pairwise_map.1 hnodup).imp_of_mem fun hq hr hkey => ?_
  exact (hplain _ hq).disjoint_ends (hplain _ hr) hkey

/-! ## One procedure -/

/-- The fragment of a procedure, with what was drawn for it between `s` and `s'`. -/
structure Drawn (q : Procedure) (s s' : Supply) (f : Fragment) : Prop where
  before : Before s s'
  labels : f.body.labels.Perm (q.ends ++ labelsBetween s s')
  closed : Closed f.body.marks
  direct : ∃ routine, f.body.Direct routine
  temps : ∀ t ∈ f.body.temps, s.temps.next ≤ t.index ∧ t.index < s'.temps.next

variable {options : Options} {u u' : UnitWork} {q : Procedure} {qs : List Procedure} {f : Fragment}
  {fs : List Fragment}

/-- A procedure starts with two temps of its own. Its parameters are in the frame, and its locals are
not kept anywhere yet. -/
theorem homes_startOf {place : Place} {b : Lower.Body} {own : Temp → Prop} (hdeclared : Declared b place.method)
    (hown : ∀ k < 2, own ⟨u.supply.temps.next + k⟩) : Homes own (startOf place u) := by
  obtain ⟨hstart, hformals, -⟩ := LowerUnit.starting_startOf hdeclared u
  refine ⟨hown 0 (by decide), hown 1 (by decide), fun v hv t ht => ?_⟩
  rcases List.mem_append.1 hv with hv | hv
  · have hhome := hstart.arriving.homed v hv
    rw [hstart.empty, hformals, ht, List.getElem?_nil, Option.none_or, List.getElem?_map] at hhome
    obtain ⟨i, -, hslot⟩ := Option.map_eq_some_iff.1 hhome.symm
    cases hslot
  · cases (hstart.unbound v hv).symm.trans ht

theorem drawn_of_lowerProcedure {place : Place} (hplace : findPlace u.table q.cls q.name = .ok place)
    (hdeclared : Declared q.body place.method)
    (h : Yields (LowerUnit.lowerProcedure options {} place q.body) u f u') : Drawn q u.supply u'.supply f := by
  obtain ⟨body, w, hbody, rfl, rfl⟩ := LowerUnit.yields_lowerProcedure h
  obtain ⟨hcls, hmethod⟩ := LowerUnit.findPlace_names hplace
  obtain ⟨hstart, -, hname⟩ := LowerUnit.starting_startOf hdeclared u
  have hfinished := hstart.lowerProcedure rfl hbody
  -- The frame draws two temps before the work on the body starts.
  have hbound : u.supply.temps.next + 2 ≤ w.supply.temps.next := hfinished.before.1
  let own : Temp → Prop := fun t => u.supply.temps.next ≤ t.index ∧ t.index < w.supply.temps.next
  have hown : ∀ t, Lower.DrawnIn (startOf place u) w t → own t := by
    intro t ht
    have hlow : u.supply.temps.next + 2 ≤ t.index := ht.1
    exact ⟨by omega, ht.2⟩
  have hhomes : Homes own (startOf place u) := by
    refine homes_startOf hdeclared fun k hk => ⟨Nat.le_add_right _ _, ?_⟩
    change u.supply.temps.next + k < w.supply.temps.next
    omega
  have hemitted := ((emits_procedure rfl hbody).emits own hhomes hown).2
  refine ⟨⟨(Nat.le_add_right _ 2).trans hbound, hfinished.before.2⟩, ?_, hemitted.closed,
    ⟨_, hemitted.direct⟩, hemitted.temps⟩
  obtain ⟨inner, hlabels, hperm⟩ := hfinished.labels
  have hentry : (startOf place u).frame.name = q.entry := by rw [hname, hcls, hmethod, Procedure.entry]
  change body.labels.Perm _
  rw [hlabels, Frame.exitLabel, hentry]
  exact (List.perm_append_comm.cons _).trans (hperm.append_left q.ends)

/-! ## All procedures -/

/-- The fragments of some procedures, with what was drawn for them between `s` and `s'`. -/
structure Hygienic (qs : List Procedure) (s s' : Supply) (fs : List Fragment) : Prop where
  before : Before s s'
  labels : (fs.flatMap (·.body.labels)).Perm (qs.flatMap Procedure.ends ++ labelsBetween s s')
  closed : ∀ f ∈ fs, Closed f.body.marks
  direct : ∀ f ∈ fs, ∃ routine, f.body.Direct routine
  temps : ∀ f ∈ fs, ∀ t ∈ f.body.temps, s.temps.next ≤ t.index ∧ t.index < s'.temps.next
  apart : fs.Pairwise fun f g => f.body.temps.Disjoint g.body.temps

namespace Hygienic

variable {s s' s'' : Supply}

theorem nil (s : Supply) : Hygienic [] s s [] := ⟨.refl s, by simp, nofun, nofun, nofun, .nil⟩

theorem cons (h : Drawn q s s' f) (hrest : Hygienic qs s' s'' fs) : Hygienic (q :: qs) s s'' (f :: fs) := by
  refine ⟨h.before.trans hrest.before, ?_, ?_, ?_, ?_, List.pairwise_cons.2 ⟨?_, hrest.apart⟩⟩
  · rw [Supply.labelsBetween_trans h.before hrest.before]
    refine (h.labels.append hrest.labels).trans ?_
    rw [List.append_assoc, List.flatMap_cons, List.append_assoc]
    exact (List.perm_append_comm_assoc _ _ _).append_left q.ends
  · exact List.forall_mem_cons.2 ⟨h.closed, hrest.closed⟩
  · exact List.forall_mem_cons.2 ⟨h.direct, hrest.direct⟩
  · have := h.before.1
    have := hrest.before.1
    refine List.forall_mem_cons.2 ⟨fun t ht => ?_, fun g hg t ht => ?_⟩
    · have := h.temps t ht
      omega
    · have := hrest.temps g hg t ht
      omega
  · intro g hg t ht ht'
    have := h.temps t ht
    have := hrest.temps g hg t ht'
    omega

end Hygienic

theorem LowerUnit.Chain.hygienic (h : Chain options (fun q place => Declared q.body place.method) qs u fs u') :
    Hygienic qs u.supply u'.supply fs := by
  induction h with
  | nil hsame =>
    rw [hsame.2]
    exact .nil _
  | cons hplace hdeclared hsame hyields _ ih =>
    rw [← hsame.2]
    exact .cons (drawn_of_lowerProcedure (hsame.1 ▸ hplace) hdeclared hyields) ih

theorem labelsOf_flatMap_linearized (fs : List Fragment) :
    labelsOf (fs.flatMap Fragment.linearized) = fs.flatMap (·.body.labels) := by
  induction fs with
  | nil => rfl
  | cons f rest ih => rw [List.flatMap_cons, Tree.labelsOf_append, ih, Fragment.linearized, Stm.labelsOf_linearize,
      List.flatMap_cons]

/-- In the code of a whole unit no label stands twice, every jump goes to the one label that it names,
within its fragment, and no two fragments share a temp. -/
theorem lower_hygienic (p : Program) (options : Options) (fs : List Fragment)
    (hplain : ∀ q ∈ p.procedures, q.Plain) (hdeclare : (declare p).2 = [])
    (hlower : (lower p (declare p).1 options).1 = .ok fs) :
    (labelsOf (fs.flatMap Fragment.linearized)).Nodup ∧
      (∀ f ∈ fs, Closed (marksOf f.linearized) ∧
        ∀ target labels, .jump target labels ∈ f.linearized → ∃ l, target = .name l ∧ labels = [l]) ∧
      fs.Pairwise fun f g => f.body.temps.Disjoint g.body.temps := by
  have hygienic := (lower_declared hdeclare hlower).hygienic
  refine ⟨?_, fun f hf => ⟨?_, fun target labels hjump => ?_⟩, hygienic.apart⟩
  · rw [labelsOf_flatMap_linearized, hygienic.labels.nodup_iff]
    refine (nodup_flatMap_ends hplain (declare_outline hdeclare).nodup_keys).append (Supply.nodup_labelsBetween _ _) ?_
    -- A label made of names has a dollar sign, and one that is drawn has none.
    intro l hends hdrawn
    obtain ⟨q, -, hl⟩ := List.mem_flatMap.1 hends
    obtain ⟨k, -, rfl⟩ := List.mem_map.1 hdrawn
    exact dollar_notMem_labelNamed k (Procedure.dollar_mem_ends hl)
  · rw [Fragment.linearized, Stm.marksOf_linearize]
    exact hygienic.closed f hf
  · obtain ⟨routine, hdirect⟩ := hygienic.direct f hf
    exact f.body.linearize_direct hdirect _ hjump

theorem lower_hygienic_shadowing : (∀ q ∈ shadowing.procedures, q.Plain) ∧ (declare shadowing).2 = [] ∧
    ∃ main method, (lower shadowing (declare shadowing).1 { linkage := .jvm }).1 = .ok [main, method] ∧
      (labelsOf (main.linearized ++ method.linearized)).Nodup ∧
      (∀ f ∈ [main, method], Closed (marksOf f.linearized) ∧
        ∀ target labels, .jump target labels ∈ f.linearized → ∃ l, target = .name l ∧ labels = [l]) ∧
      main.body.temps.Disjoint method.body.temps := by
  have hplain : ∀ q ∈ shadowing.procedures, q.Plain := by decide +kernel
  have hdeclare : (declare shadowing).2 = [] := by decide +kernel
  obtain ⟨main, method, hfs⟩ : ∃ main method,
      (lower shadowing (declare shadowing).1 { linkage := .jvm }).1 = .ok [main, method] :=
    exists_pair_of_length (by decide +kernel)
  obtain ⟨hlabels, hjumps, hapart⟩ := lower_hygienic shadowing { linkage := .jvm } _ hplain hdeclare hfs
  refine ⟨hplain, hdeclare, main, method, hfs, by simpa using hlabels, hjumps, ?_⟩
  exact (List.pairwise_cons.1 hapart).1 method (by simp)

end Lowering
