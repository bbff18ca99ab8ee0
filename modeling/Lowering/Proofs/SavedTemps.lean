import Lowering.Proofs.Linear.Canonical
import Lowering.Proofs.Linear.Conservation
import Lowering.Proofs.Lowered.Drawn
import Lowering.Proofs.Scoping
import Lowering.Proofs.Tree.Bystanders

/-!
# Saved values keep clear of the frame

Linear code saves values in temps of its own, which it numbers from the largest temp in the body on. It
does not know the frame, whose pointer, result and homes need not stand in the body. They are safe all
the same: a value is saved only if a statement is nested in an expression, and then a temp was drawn
after those of the frame and stands in the body.
-/

namespace Lowering

open Lowering.Tree (Temp Stm AllFlat tempsOf nextTemp)
open Lowering.Source (Program)

namespace Tree

/-! ## Flat code needs no more temps -/

theorem straightenAll_flat {code : List Stm} (h : AllFlat code) (s : Supply) :
    Gives (Stm.straightenAll code) s (code.filter (!·.isNop)) s := by
  induction code with
  | nil => rfl
  | cons c rest ih =>
    obtain ⟨hc, hrest⟩ := List.forall_mem_cons.1 h
    rw [gives_straightenAll_cons]
    cases hnop : c.isNop with
    | false => exact ⟨[c], s, _, c.straighten_stays hc hnop s, ih hrest, by simp [hnop]⟩
    | true =>
      have hdropped : Gives c.straighten s [] s := by
        cases c with
        | exp e =>
          rw [gives_straighten_exp]
          exact ⟨_, e.hoist_stays hc s, by simp [hnop]⟩
        | _ => cases hnop
      exact ⟨[], s, _, hdropped, ih hrest, by simp [hnop]⟩

theorem Stm.mem_temps_of_flat (st : Stm) (h : AllFlat st.parts) {t : Temp} (ht : t ∈ tempsOf st.linearize) :
    t ∈ st.temps := by
  have hgives := st.gives_parts.1 (straightenAll_flat h (Supply.startingAt st.tempBound))
  have hlinear : st.linearize = st.parts.filter (!·.isNop) := congrArg Prod.fst hgives
  rw [hlinear] at ht
  obtain ⟨c, hc, htc⟩ := List.mem_flatMap.1 ht
  by_contra hnot
  exact st.notMem_temps_parts hnot c (List.mem_of_mem_filter hc) htc

end Tree

/-! ## Fragments -/

/-- The temp comes after all temps of the frame. -/
structure Frame.Precedes (f : Frame) (t : Temp) : Prop where
  fp : f.fp.index < t.index
  rv : f.rv.index < t.index
  locals : ∀ u, .inReg u ∈ f.locals → u.index < t.index

theorem Covers.precedes {place : LowerUnit.Place} {u : UnitWork} {w : Work} {body : Stm} {t : Temp}
    (h : Covers (LowerUnit.startOf place u) w body.temps (AllFlat body.parts)) (ht : t ∈ tempsOf body.linearize)
    (hnew : t ∉ body.temps) : w.frame.Precedes t := by
  have hbound : body.tempBound ≤ t.index := body.tempBound_le_of_mem_linearize ht hnew
  have hbelow : ∀ u ∈ body.temps, u.index < t.index := fun u hu => (body.index_lt_tempBound hu).trans_le hbound
  -- Flat code would have added no temp, so one was drawn, and the first of them stands in the body.
  have hdrew : (LowerUnit.startOf place u).supply.temps.next ≠ w.supply.temps.next := fun hsame =>
    hnew (body.mem_temps_of_flat (h.flat hsame.symm) ht)
  have hfirst : (LowerUnit.startOf place u).supply.temps.next < t.index :=
    hbelow _ (h.drawn (nextTemp (LowerUnit.startOf place u).supply) ⟨le_rfl, lt_of_le_of_ne h.le hdrew⟩)
  have hfp : (LowerUnit.startOf place u).frame.fp.index < (LowerUnit.startOf place u).supply.temps.next :=
    Nat.lt_add_of_pos_right Nat.two_pos
  have hrv : (LowerUnit.startOf place u).frame.rv.index < (LowerUnit.startOf place u).supply.temps.next :=
    Nat.lt_succ_self _
  refine ⟨h.frame.1 ▸ hfp.trans hfirst, h.frame.2 ▸ hrv.trans hfirst, fun v hv => ?_⟩
  rcases h.locals _ hv with hold | ⟨v', heq, hdrawn⟩
  · cases hold
  · cases heq
    exact hbelow v (h.drawn v hdrawn)

theorem LowerUnit.Chain.precedes {options : Options} {At : Procedure → LowerUnit.Place → Prop} {qs : List Procedure}
    {u u' : UnitWork} {fs : List Fragment} {f : Fragment} {t : Temp} (h : Chain options At qs u fs u') (hf : f ∈ fs)
    (ht : t ∈ tempsOf f.linearized) (hnew : t ∉ f.body.temps) : f.frame.Precedes t := by
  induction h with
  | nil _ => cases hf
  | cons _ _ _ hyields _ ih =>
    rcases List.mem_cons.1 hf with rfl | hf
    · obtain ⟨body, w, hbody, rfl, -⟩ := LowerUnit.yields_lowerProcedure hyields
      exact (covers_procedure rfl hbody).precedes ht hnew
    · exact ih hf

theorem Frame.Precedes.apart {f : Frame} {t : Temp} (h : f.Precedes t) :
    t ≠ f.fp ∧ t ≠ f.rv ∧ .inReg t ∉ f.locals := by
  refine ⟨?_, ?_, fun hmem => absurd (h.locals t hmem) (lt_irrefl _)⟩
  · rintro rfl
    exact absurd h.fp (lt_irrefl _)
  · rintro rfl
    exact absurd h.rv (lt_irrefl _)

/-- A temp that only the linear code of a fragment has comes after the temps of the frame, so it is none of
them. This needs nothing of the table with which the program was lowered. -/
theorem saved_temp_apart (p : Program) (t : Table) (options : Options) (fs : List Fragment)
    (hlower : (lower p t options).1 = .ok fs) (f : Fragment) (hf : f ∈ fs) (saved : Temp)
    (hsaved : saved ∈ tempsOf f.linearized) (hnew : saved ∉ f.body.temps) :
    f.frame.Precedes saved ∧ saved ≠ f.frame.fp ∧ saved ≠ f.frame.rv ∧ .inReg saved ∉ f.frame.locals := by
  have hprecedes := (lower_chain hlower).precedes hf hsaved hnew
  exact ⟨hprecedes, hprecedes.apart⟩

/-- Prints the sum of two comparisons. Neither the frame pointer nor the place of the result stands in its
code, and the verdict of the first comparison is saved while the second is decided. -/
def addingVerdicts : Program where
  main := {
    name := { val := "Main" }, method := { val := "main" }, args := { val := "a" }, locals := [intDecl "x"]
    body := [.println {} (.binary .add (.binary .less (.literal "1") (.literal "2"))
      (.binary .less (.literal "3") (.literal "4")))] }
  classes := []

theorem exists_single_of_map {ε α : Type} {x : Except ε (List α)} {p : α → Bool}
    (h : x.toOption.map (List.map p) = some [true]) : ∃ a, x = .ok [a] ∧ p a = true := by
  cases x with
  | error e => cases h
  | ok as =>
    obtain ⟨a, rfl, hp⟩ := List.map_eq_singleton_iff.1 (Option.some.inj h)
    exact ⟨a, rfl, hp⟩

theorem saved_temp_apart_adding_verdicts : ∃ f, (lower addingVerdicts (declare addingVerdicts).1).1 = .ok [f] ∧
    ⟨5⟩ ∈ tempsOf f.linearized ∧ ⟨5⟩ ∉ f.body.temps ∧ f.frame.fp ∉ f.body.temps ∧ f.frame.rv ∉ f.body.temps ∧
    f.frame.Precedes ⟨5⟩ := by
  obtain ⟨f, hfs, hf⟩ : ∃ f, (lower addingVerdicts (declare addingVerdicts).1).1 = .ok [f] ∧
      decide (⟨5⟩ ∈ tempsOf f.linearized ∧ ⟨5⟩ ∉ f.body.temps ∧ f.frame.fp ∉ f.body.temps ∧
        f.frame.rv ∉ f.body.temps) = true := exists_single_of_map (by decide +kernel)
  obtain ⟨hsaved, hnew, hfp, hrv⟩ := of_decide_eq_true hf
  have hall := saved_temp_apart addingVerdicts _ {} _ hfs f (by simp) _ hsaved hnew
  exact ⟨f, hfs, hsaved, hnew, hfp, hrv, hall.1⟩

end Lowering
