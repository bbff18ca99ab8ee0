import Mathlib
import Lowering.Table.Method

/-!
# Histories of a method

A method is used through calls: blocks are entered and left, parameters and locals are added. A call
is answered with what it got or why it is refused, and leaves a method behind either way. What holds of
a method after every history of calls is proved for one call.
-/

namespace Lowering

open Lowering.Source (Site)

namespace Method

/-! ## Calls and answers -/

inductive Call where
  | enter
  | leave
  | addParameter (name : String) (type : Ty) (site : Site)
  | addLocal (name : String) (type : Ty) (site : Site)
  deriving DecidableEq

inductive Answer where
  | entered (b : Block)
  | left (b : Block)
  | added (v : Variable)
  | refused (e : ScopeError)
  deriving DecidableEq

def Answer.of {α : Type} (accepted : α → Answer) : Except ScopeError α → Answer
  | .ok a => accepted a
  | .error e => .refused e

def call (m : Method) : Call → Answer × Method
  | .enter => m.enter.map .entered id
  | .leave => m.leave.map (.of .left) id
  | .addParameter name type site => (m.addParameter name type site).map (.of .added) id
  | .addLocal name type site => (m.addLocal name type site).map (.of .added) id

/-- The method after calls. -/
def after (m : Method) (calls : List Call) : Method := calls.foldl (fun m c => (m.call c).2) m

/-- What calls are answered, one after the other. -/
def answers (m : Method) : List Call → List Answer
  | [] => []
  | c :: rest => (m.call c).1 :: (m.call c).2.answers rest

variable {m m' : Method} {c : Call}

@[simp] theorem after_nil (m : Method) : m.after [] = m := rfl

@[simp] theorem after_cons (m : Method) (c : Call) (rest : List Call) :
    m.after (c :: rest) = (m.call c).2.after rest := rfl

theorem after_append (m : Method) (calls more : List Call) :
    m.after (calls ++ more) = (m.after calls).after more := List.foldl_append

theorem after_concat (m : Method) (calls : List Call) (c : Call) :
    m.after (calls ++ [c]) = ((m.after calls).call c).2 := by
  rw [after_append, after_cons, after_nil]

/-! ## One call -/

/-- All that a call can do. -/
inductive Responds (m : Method) : Call → Answer → Method → Prop
  | enter : Responds m .enter (.entered ⟨m.nextBlock.next⟩)
      { m with blocks := ⟨m.nextBlock.next⟩ :: m.blocks, nextBlock := ⟨m.nextBlock.next + 1⟩ }
  | leaveInner {b outer} : m.blocks = b :: outer → outer ≠ [] →
      Responds m .leave (.left b) { m with blocks := outer }
  | leaveLast {b} : m.blocks = [b] → Responds m .leave (.left b) { m with blocks := [], nextBlock := {} }
  | parameterAdded {name type site v} : m.blocks = [] →
      v = { name, type, site, index := m.nextIndex.next, block := none } →
      Responds m (.addParameter name type site) (.added v)
        { m with parameters := m.parameters ++ [v], nextIndex := ⟨m.nextIndex.next + 1⟩ }
  | localAdded {name type site v b outer} : m.blocks = b :: outer →
      v = { name, type, site, index := m.nextIndex.next, block := some b } →
      Responds m (.addLocal name type site) (.added v)
        { m with locals := v :: m.locals, nextIndex := ⟨m.nextIndex.next + 1⟩ }
  | underflow : m.blocks = [] → Responds m .leave (.refused (.underflow m.name)) m
  | blockOpen {name type site} : m.blocks ≠ [] →
      Responds m (.addParameter name type site) (.refused (.blockOpen name)) m
  | noOpenBlock {name type site} : m.blocks = [] →
      Responds m (.addLocal name type site) (.refused (.noOpenBlock name)) m

theorem responds_leave (m : Method) : Responds m .leave (m.call .leave).1 (m.call .leave).2 := by
  unfold call leave
  cases hblocks : m.blocks with
  | nil => exact .underflow hblocks
  | cons b outer =>
    cases outer with
    | nil => exact .leaveLast hblocks
    | cons c outer => exact .leaveInner hblocks (List.cons_ne_nil _ _)

theorem responds_call (m : Method) (c : Call) : Responds m c (m.call c).1 (m.call c).2 := by
  cases c with
  | enter => exact .enter
  | leave => exact m.responds_leave
  | addParameter name type site =>
    rw [call, addParameter]
    cases hblocks : m.blocks with
    | nil => exact .parameterAdded hblocks rfl
    | cons b outer => exact .blockOpen (by simp [hblocks])
  | addLocal name type site =>
    rw [call, addLocal]
    cases hblocks : m.blocks with
    | nil => exact .noOpenBlock hblocks
    | cons b outer => exact .localAdded hblocks rfl

/-! ## What every history keeps -/

/-- Numbers start over when no block is open. -/
def Rested (m : Method) : Prop := m.blocks = [] → m.nextBlock = {}

theorem Rested.call (h : m.Rested) (c : Call) : (m.call c).2.Rested := by
  have hstep := m.responds_call c
  generalize (m.call c).1 = a, (m.call c).2 = m' at hstep
  cases hstep with
  | enter => exact fun hnone => absurd hnone (List.cons_ne_nil _ _)
  | leaveInner _ houter => exact fun hnone => absurd hnone houter
  | leaveLast => exact fun _ => rfl
  | parameterAdded | localAdded | underflow | blockOpen | noOpenBlock => exact h

theorem Rested.after (h : m.Rested) (calls : List Call) : (m.after calls).Rested := by
  induction calls generalizing m with
  | nil => exact h
  | cons c rest ih => exact ih (h.call c)

/-- Parameters and locals have the numbers from 1 on, each once, and none of them has storage. -/
structure Numbered (m : Method) : Prop where
  indices : ((m.parameters ++ m.locals).map (·.index)).Perm (List.range' 1 m.numVariables)
  next : m.nextIndex.next = m.numVariables + 1
  unbound : ∀ v ∈ m.parameters ++ m.locals, v.access = none

theorem Numbered.add {v : Variable} (h : m.Numbered) (hindex : v.index = m.nextIndex.next)
    (haccess : v.access = none) (hdrawn : m'.nextIndex.next = m.nextIndex.next + 1)
    (hadded : (m'.parameters ++ m'.locals).Perm (v :: (m.parameters ++ m.locals))) : m'.Numbered := by
  have hcount : m'.numVariables = m.numVariables + 1 := by
    simpa [numVariables, Nat.add_assoc] using hadded.length_eq
  refine ⟨?_, by rw [hdrawn, h.next, hcount], ?_⟩
  · have hnext : List.range' 1 m'.numVariables = List.range' 1 m.numVariables ++ [v.index] := by
      rw [hcount, List.range'_1_concat, hindex, h.next, Nat.add_comm 1]
    have hold : ((m'.parameters ++ m'.locals).map (·.index)).Perm (v.index :: List.range' 1 m.numVariables) :=
      (hadded.map _).trans (h.indices.cons _)
    rw [hnext]
    exact hold.trans (List.perm_append_singleton _ _).symm
  · intro u hu
    rcases List.mem_cons.1 (hadded.mem_iff.1 hu) with rfl | hu
    · exact haccess
    · exact h.unbound u hu

theorem Numbered.call (h : m.Numbered) (c : Call) : (m.call c).2.Numbered := by
  have hstep := m.responds_call c
  generalize (m.call c).1 = a, (m.call c).2 = m' at hstep
  cases hstep with
  | enter | leaveInner | leaveLast | underflow | blockOpen | noOpenBlock => exact ⟨h.indices, h.next, h.unbound⟩
  | @parameterAdded _ _ _ v _ hv =>
    refine h.add (v := v) (by rw [hv]) (by rw [hv]) rfl ?_
    rw [List.append_assoc, List.singleton_append]
    exact List.perm_middle
  | @localAdded _ _ _ v _ _ _ hv => exact h.add (v := v) (by rw [hv]) (by rw [hv]) rfl List.perm_middle

theorem Numbered.after (h : m.Numbered) (calls : List Call) : (m.after calls).Numbered := by
  induction calls generalizing m with
  | nil => exact h
  | cons c rest ih => exact ih (h.call c)

/-- No number stands twice. -/
def Apart (m : Method) : Prop := ((m.parameters ++ m.locals).map (·.index)).Nodup

theorem Numbered.apart (h : m.Numbered) : m.Apart := h.indices.nodup_iff.2 List.nodup_range'

/-! ## Methods made by calls -/

/-- The method was new and got its state through calls. -/
def Made (m : Method) : Prop := ∃ name returns site calls, m = after { name, returns, site } calls

theorem made_new (name : String) (returns : Option Ty) (site : Site) : Made { name, returns, site } :=
  ⟨name, returns, site, [], rfl⟩

theorem Made.call (h : m.Made) (c : Call) : (m.call c).2.Made := by
  obtain ⟨name, returns, site, calls, rfl⟩ := h
  exact ⟨name, returns, site, calls ++ [c], (after_concat _ calls c).symm⟩

theorem Made.rested (h : m.Made) : m.Rested := by
  obtain ⟨name, returns, site, calls, rfl⟩ := h
  exact Rested.after (fun _ => rfl) calls

theorem Made.numbered (h : m.Made) : m.Numbered := by
  obtain ⟨name, returns, site, calls, rfl⟩ := h
  have hnew : Numbered { name, returns, site } := ⟨.refl _, rfl, fun _ hv => absurd hv List.not_mem_nil⟩
  exact hnew.after calls

end Method

end Lowering
