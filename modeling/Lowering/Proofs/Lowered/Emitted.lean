import Lowering.Proofs.Linear.Direct
import Lowering.Proofs.Lowered.Value

/-!
# Emitted code

The forms that code can have which lowering emits, whatever method it works on. The scaffold of a
statement holds the labels that its branches go to, so no jump leaves it. Names are routines to call
and labels to go to. The temps in the code are those that a predicate calls its own.
-/

namespace Lowering

open Lowering.Tree

variable {own : Temp → Prop} {routine : String} {c : Tree.Expr}

/-! ## Values -/

/-- The code of a variable, with temps of its own only. -/
def OwnPlace (own : Temp → Prop) (c : Tree.Expr) : Prop := IsPlace c ∧ ∀ t ∈ c.temps, own t

/-- The code of a value, with temps of its own only. -/
def OwnValue (own : Temp → Prop) (c : Tree.Expr) : Prop :=
  ∃ place e, (∀ x c, place x = some c → OwnPlace own c) ∧ ValueCode place own e c

theorem OwnPlace.value (h : OwnPlace own c) : OwnValue own c := by
  refine ⟨fun _ => some c, .ident "", fun _ _ hc => ?_, .ident rfl⟩
  cases hc
  exact h

theorem ownValue_zero : OwnValue own (.const 0) := ⟨fun _ => none, .bool false, nofun, .bool⟩

theorem IsPlace.direct (h : IsPlace c) : c.Direct routine := by
  obtain ⟨fp, _ | _, rfl⟩ := h
  · exact ⟨trivial, trivial⟩
  · trivial

theorem IsPlace.marks (h : IsPlace c) : c.marks = [] := by
  obtain ⟨fp, _ | _, rfl⟩ := h <;> rfl

theorem Lowered.marks_verdict (op : RelOp) (l r : Tree.Expr) (result : Temp) (t f : Label) :
    (Lowered.verdict op l r result t f).marks =
      l.marks ++ r.marks ++ [.branch op t f, .label f, .label t] := by
  simp [Lowered.verdict, Tree.Expr.marks, Stm.marks]

theorem closed_branch (op : RelOp) (t f : Label) : Closed [.branch op t f, .label f, .label t] := by
  simp [Closed, ClosedIn, Mark.targets]

namespace OwnValue

theorem direct (h : OwnValue own c) : c.Direct routine := by
  obtain ⟨place, e, hplace, hcode⟩ := h
  induction hcode with
  | @literal _ w _ => cases w <;> trivial
  | bool => trivial
  | ident hx => exact (hplace _ _ hx).1.direct
  | arithmetic _ _ _ hl hr => exact ⟨hl, hr⟩
  | comparison _ _ _ _ _ hl hr => exact ⟨⟨⟨trivial, trivial⟩, ⟨hl, hr⟩, trivial, ⟨trivial, trivial⟩, trivial⟩, trivial⟩
  | not _ h => exact ⟨trivial, h⟩

theorem closed (h : OwnValue own c) : Closed c.marks := by
  obtain ⟨place, e, hplace, hcode⟩ := h
  induction hcode with
  | @literal _ w _ => cases w <;> exact closedIn_nil
  | bool => exact closedIn_nil
  | ident hx =>
    rw [(hplace _ _ hx).1.marks]
    exact closedIn_nil
  | arithmetic _ _ _ hl hr => exact hl.append hr
  | comparison _ _ _ _ _ hl hr =>
    rw [Lowered.marks_verdict]
    exact (hl.append hr).append (closed_branch _ _ _)
  | not _ h => exact h

theorem temps (h : OwnValue own c) : ∀ t ∈ c.temps, own t := by
  obtain ⟨place, e, hplace, hcode⟩ := h
  induction hcode with
  | @literal _ w _ => cases w <;> nofun
  | bool => nofun
  | ident hx => exact (hplace _ _ hx).2
  | arithmetic _ _ _ hl hr =>
    intro t ht
    rcases List.mem_append.1 ht with ht | ht
    · exact hl t ht
    · exact hr t ht
  | comparison _ _ _ hresult _ hl hr =>
    intro t ht
    simp only [Lowered.verdict, Tree.Expr.temps, Stm.temps_ofList, Stm.temps, List.flatMap_cons, List.flatMap_nil,
      List.mem_append, List.mem_singleton, List.not_mem_nil, or_false, false_or] at ht
    rcases ht with (rfl | (ht | ht) | rfl) | rfl
    · exact hresult
    · exact hl t ht
    · exact hr t ht
    · exact hresult
    · exact hresult
  | not _ h => exact h

end OwnValue

/-! ## Statements -/

section

variable (own : Temp → Prop) (routine : String)

/-- Statements that lowering emits. -/
inductive Emitted : Stm → Prop
  | value {v} : OwnValue own v → Emitted (.exp v)
  | println {v} : OwnValue own v → Emitted (.exp (externalCall routine [v]))
  /-- A formal comes in and moves to its home. -/
  | arrive {home incoming} :
    OwnPlace own home → OwnPlace own incoming → Emitted (.exp (.eseq (.move home incoming) home))
  | move {target v} : OwnPlace own target → OwnValue own v → Emitted (.move target v)
  | store {base i v} :
    OwnPlace own base → OwnValue own i → OwnValue own v → Emitted (.move (.binOp .plus base i) v)
  | label {l} : Emitted (.label l)
  | chain {cs} : (∀ c ∈ cs, Emitted c) → Emitted (.ofList cs)
  | ifThen {op a b yes no body} :
    OwnValue own a → OwnValue own b → Emitted body →
      Emitted (.ofList [.cjump op a b yes no, .label yes, body, .label no])
  | ifElse {op a b yes no join body otherwise} :
    OwnValue own a → OwnValue own b → Emitted body → Emitted otherwise →
      Emitted (.ofList [.cjump op a b yes no, .label yes, body, .jumpTo join, .label no, otherwise, .label join])
  | while {op a b start inside exit body} :
    OwnValue own a → OwnValue own b → Emitted body →
      Emitted (.ofList [.label start, .cjump op a b inside exit, .label inside, body, .jumpTo start, .label exit])

end

namespace Emitted

variable {st : Stm}

theorem direct (h : Emitted own routine st) : st.Direct routine := by
  induction h with
  | value hv => exact hv.direct
  | println hv => exact ⟨rfl, hv.direct, trivial⟩
  | arrive hhome hincoming => exact ⟨⟨hhome.1.direct, hincoming.1.direct⟩, hhome.1.direct⟩
  | move htarget hv => exact ⟨htarget.1.direct, hv.direct⟩
  | store hbase hi hv => exact ⟨⟨hbase.1.direct, hi.direct⟩, hv.direct⟩
  | label => trivial
  | chain _ ih => exact Stm.direct_ofList ih
  | ifThen ha hb _ ih => exact ⟨⟨ha.direct, hb.direct⟩, trivial, ih, trivial⟩
  | ifElse ha hb _ _ ih ih' =>
    exact ⟨⟨ha.direct, hb.direct⟩, trivial, ih, ⟨_, rfl, rfl⟩, trivial, ih', trivial⟩
  | «while» ha hb _ ih => exact ⟨trivial, ⟨ha.direct, hb.direct⟩, trivial, ih, ⟨_, rfl, rfl⟩, trivial⟩

theorem marks_jumpTo (l : Label) : (Stm.jumpTo l).marks = [.jump (some l) [l]] := rfl

/-- Every branch of a scaffold goes to a label of the scaffold. -/
theorem closed (h : Emitted own routine st) : Closed st.marks := by
  induction h with
  | value hv => exact hv.closed
  | @println v hv =>
    have hmarks : (Stm.exp (externalCall routine [v])).marks = v.marks ++ [.call 1] := by
      simp [Stm.marks, externalCall, Tree.Expr.marks, Tree.Expr.marksAll]
    rw [hmarks]
    exact hv.closed.append (by simp [Closed, ClosedIn, Mark.targets])
  | arrive hhome hincoming =>
    simp [Stm.marks, Tree.Expr.marks, hhome.1.marks, hincoming.1.marks, Closed]
  | move htarget hv =>
    rw [Stm.marks, htarget.1.marks]
    exact hv.closed
  | store hbase hi hv =>
    rw [Stm.marks, Tree.Expr.marks, hbase.1.marks]
    exact hi.closed.append hv.closed
  | label => simp [Closed, ClosedIn, Stm.marks, Mark.targets]
  | @chain cs _ ih =>
    rw [Stm.marks_ofList]
    intro mark hmark l hl
    obtain ⟨c, hc, hmark⟩ := List.mem_flatMap.1 hmark
    exact List.mem_flatMap.2 ⟨c, hc, ih c hc mark hmark l hl⟩
  | ifThen ha hb _ ih =>
    -- The parts are closed by themselves, so they are among more marks. That leaves the branch.
    simp only [Closed, Stm.marks_ofList, marksOf_cons, marksOf_nil, Stm.marks, closedIn_append, closedIn_cons,
      closedIn_nil, and_true, Mark.targets]
    refine ⟨⟨⟨ha.closed.mono ?_, hb.closed.mono ?_⟩, by simp⟩, by simp, ih.mono ?_, by simp⟩ <;>
      intro mark hmark <;> simp [hmark]
  | ifElse ha hb _ _ ih ih' =>
    simp only [Closed, Stm.marks_ofList, marksOf_cons, marksOf_nil, Stm.marks, marks_jumpTo, closedIn_append,
      closedIn_cons, closedIn_nil, and_true, Mark.targets]
    refine ⟨⟨⟨ha.closed.mono ?_, hb.closed.mono ?_⟩, by simp⟩, by simp, ih.mono ?_, by simp, by simp, ih'.mono ?_,
      by simp⟩ <;> intro mark hmark <;> simp [hmark]
  | «while» ha hb _ ih =>
    simp only [Closed, Stm.marks_ofList, marksOf_cons, marksOf_nil, Stm.marks, marks_jumpTo, closedIn_append,
      closedIn_cons, closedIn_nil, and_true, Mark.targets]
    refine ⟨by simp, ⟨⟨ha.closed.mono ?_, hb.closed.mono ?_⟩, by simp⟩, by simp, ih.mono ?_, by simp, by simp⟩ <;>
      intro mark hmark <;> simp [hmark]

theorem temps (h : Emitted own routine st) : ∀ t ∈ st.temps, own t := by
  induction h with
  | value hv => exact hv.temps
  | println hv =>
    intro t ht
    exact hv.temps t (by simpa [Stm.temps, externalCall, Tree.Expr.temps, Tree.Expr.tempsAll] using ht)
  | arrive hhome hincoming =>
    intro t ht
    simp only [Stm.temps, Tree.Expr.temps, List.mem_append] at ht
    rcases ht with (ht | ht) | ht
    · exact hhome.2 t ht
    · exact hincoming.2 t ht
    · exact hhome.2 t ht
  | move htarget hv =>
    intro t ht
    rcases List.mem_append.1 ht with ht | ht
    · exact htarget.2 t ht
    · exact hv.temps t ht
  | store hbase hi hv =>
    intro t ht
    simp only [Stm.temps, Tree.Expr.temps, List.mem_append] at ht
    rcases ht with (ht | ht) | ht
    · exact hbase.2 t ht
    · exact hi.temps t ht
    · exact hv.temps t ht
  | label => nofun
  | chain _ ih =>
    intro t ht
    rw [Stm.temps_ofList, List.mem_flatMap] at ht
    obtain ⟨c, hc, ht⟩ := ht
    exact ih c hc t ht
  | ifThen ha hb _ ih =>
    intro t ht
    simp only [Stm.temps_ofList, List.flatMap_cons, List.flatMap_nil, Stm.temps, List.mem_append, List.not_mem_nil,
      or_false, false_or] at ht
    rcases ht with (ht | ht) | ht
    · exact ha.temps t ht
    · exact hb.temps t ht
    · exact ih t ht
  | ifElse ha hb _ _ ih ih' =>
    intro t ht
    simp only [Stm.temps_ofList, List.flatMap_cons, List.flatMap_nil, Stm.temps, Stm.jumpTo, Tree.Expr.temps,
      List.mem_append, List.not_mem_nil, or_false, false_or] at ht
    rcases ht with (ht | ht) | ht | ht
    · exact ha.temps t ht
    · exact hb.temps t ht
    · exact ih t ht
    · exact ih' t ht
  | «while» ha hb _ ih =>
    intro t ht
    simp only [Stm.temps_ofList, List.flatMap_cons, List.flatMap_nil, Stm.temps, Stm.jumpTo, Tree.Expr.temps,
      List.mem_append, List.not_mem_nil, or_false, false_or] at ht
    rcases ht with (ht | ht) | ht
    · exact ha.temps t ht
    · exact hb.temps t ht
    · exact ih t ht

end Emitted

end Lowering
