import Lowering.Proofs.Table.History

/-!
# Numbers of blocks and variables

A method numbers its open blocks upwards and its variables from 1 on. Calls may come in any order, and
calls that are refused use up no number.
-/

namespace Lowering

open Lowering.Source (Site)

namespace Method

/-! ## What calls bring about -/

def Answer.declared? : Answer → Option Variable
  | .added v => some v
  | _ => none

def Answer.isRefused : Answer → Bool
  | .refused _ => true
  | _ => false

/-- The variables that calls add, in the order in which they are added. -/
def added (m : Method) (calls : List Call) : List Variable := (m.answers calls).filterMap Answer.declared?

/-- The calls that are not refused. -/
def accepted (m : Method) : List Call → List Call
  | [] => []
  | c :: rest => if (m.call c).1.isRefused then m.accepted rest else c :: (m.call c).2.accepted rest

/-- Why a call is refused, if it is. -/
def refusal? (m : Method) : Call → Option ScopeError
  | .enter => none
  | .leave => if m.blocks = [] then some (.underflow m.name) else none
  | .addParameter name .. => if m.blocks = [] then none else some (.blockOpen name)
  | .addLocal name .. => if m.blocks = [] then some (.noOpenBlock name) else none

variable {m : Method} {c : Call} {log : List Variable}

theorem added_cons (m : Method) (c : Call) (rest : List Call) :
    m.added (c :: rest) = (m.call c).1.declared?.toList ++ (m.call c).2.added rest := by
  unfold added
  rw [answers, List.filterMap_cons]
  cases (m.call c).1.declared? <;> rfl

/-! ## Refused calls -/

theorem refused_iff {e : ScopeError} : (m.call c).1 = .refused e ↔ m.refusal? c = some e := by
  have hstep := m.responds_call c
  generalize (m.call c).1 = a, (m.call c).2 = m' at hstep
  cases hstep <;> simp_all [refusal?]

theorem call_of_isRefused (h : (m.call c).1.isRefused = true) : (m.call c).2 = m := by
  have hstep := m.responds_call c
  generalize (m.call c).1 = a, (m.call c).2 = m' at h hstep
  cases hstep with
  | enter | leaveInner | leaveLast | parameterAdded | localAdded => simp [Answer.isRefused] at h
  | underflow | blockOpen | noOpenBlock => rfl

theorem after_accepted (m : Method) (calls : List Call) : m.after (m.accepted calls) = m.after calls := by
  induction calls generalizing m with
  | nil => rfl
  | cons c rest ih =>
    rw [accepted, after_cons]
    split
    next hrefused => rw [ih, call_of_isRefused hrefused]
    next => rw [after_cons, ih]

theorem answers_accepted (m : Method) (calls : List Call) :
    m.answers (m.accepted calls) = (m.answers calls).filter (!·.isRefused) := by
  induction calls generalizing m with
  | nil => rfl
  | cons c rest ih =>
    rw [accepted, answers, List.filter_cons]
    split
    next hrefused => simp [hrefused, ih, call_of_isRefused hrefused]
    next hrefused => simp [answers, hrefused, ih]

/-! ## The invariant -/

/-- The open blocks are numbered upwards, the next block gets a number above them, and the method holds the
variables in `log`, which are numbered in this order. -/
structure InOrder (m : Method) (log : List Variable) : Prop where
  upwards : m.blocks.Pairwise fun inner outer => outer.number < inner.number
  below : ∀ b ∈ m.blocks, b.number < m.nextBlock.next
  parameters : m.parameters = log.filter (·.block.isNone)
  locals : m.locals = (log.filter (·.block.isSome)).reverse
  indices : log.map (·.index) = List.range' 1 m.numVariables
  next : m.nextIndex.next = m.numVariables + 1

theorem inOrder_new (name : String) (returns : Option Ty) (site : Site) : InOrder { name, returns, site } [] where
  upwards := .nil
  below := by simp
  parameters := rfl
  locals := rfl
  indices := rfl
  next := rfl

namespace InOrder

theorem indices_concat (h : m.InOrder log) {v : Variable} (hindex : v.index = m.nextIndex.next) :
    (log ++ [v]).map (·.index) = List.range' 1 (m.numVariables + 1) := by
  rw [List.map_append, h.indices, List.range'_1_concat, List.map_singleton, hindex, h.next, Nat.add_comm 1]

theorem enter (h : m.InOrder log) : InOrder { m with
    blocks := ⟨m.nextBlock.next⟩ :: m.blocks, nextBlock := ⟨m.nextBlock.next + 1⟩ } log where
  upwards := List.pairwise_cons.2 ⟨h.below, h.upwards⟩
  below := by
    intro b hb
    rcases List.mem_cons.1 hb with rfl | hb
    · exact Nat.lt_succ_self _
    · exact Nat.lt_succ_of_lt (h.below b hb)
  parameters := h.parameters
  locals := h.locals
  indices := h.indices
  next := h.next

theorem leaveInner (h : m.InOrder log) {b : Block} {outer : List Block} (hblocks : m.blocks = b :: outer) :
    InOrder { m with blocks := outer } log where
  upwards := by
    have hall := h.upwards
    rw [hblocks] at hall
    exact hall.of_cons
  below c hc := h.below c (by simp [hblocks, hc])
  parameters := h.parameters
  locals := h.locals
  indices := h.indices
  next := h.next

theorem leaveLast (h : m.InOrder log) : InOrder { m with blocks := [], nextBlock := {} } log where
  upwards := .nil
  below := by simp
  parameters := h.parameters
  locals := h.locals
  indices := h.indices
  next := h.next

theorem addParameter (h : m.InOrder log) {v : Variable} (hindex : v.index = m.nextIndex.next)
    (hblock : v.block = none) :
    InOrder { m with parameters := m.parameters ++ [v], nextIndex := ⟨m.nextIndex.next + 1⟩ } (log ++ [v]) := by
  have hcount : (m.parameters ++ [v]).length + m.locals.length = m.numVariables + 1 := by
    rw [List.length_append, List.length_singleton, numVariables]
    omega
  exact {
    upwards := h.upwards
    below := h.below
    parameters := by simp [h.parameters, hblock]
    locals := by simp [h.locals, hblock]
    indices := by rw [h.indices_concat hindex, ← hcount, numVariables]
    next := by rw [numVariables, hcount, h.next] }

theorem addLocal (h : m.InOrder log) {v : Variable} {b : Block} (hindex : v.index = m.nextIndex.next)
    (hblock : v.block = some b) :
    InOrder { m with locals := v :: m.locals, nextIndex := ⟨m.nextIndex.next + 1⟩ } (log ++ [v]) where
  upwards := h.upwards
  below := h.below
  parameters := by simp [h.parameters, hblock]
  locals := by simp [h.locals, hblock]
  indices := h.indices_concat hindex
  next := congrArg (· + 1) h.next

theorem call (h : m.InOrder log) (c : Call) : (m.call c).2.InOrder (log ++ (m.call c).1.declared?.toList) := by
  have hstep := m.responds_call c
  generalize (m.call c).1 = a, (m.call c).2 = m' at hstep
  cases hstep with
  | enter => simpa [Answer.declared?] using h.enter
  | leaveInner hblocks => simpa [Answer.declared?] using h.leaveInner hblocks
  | leaveLast => simpa [Answer.declared?] using h.leaveLast
  | parameterAdded _ hv => exact h.addParameter (by rw [hv]) (by rw [hv])
  | localAdded _ hv => exact h.addLocal (by rw [hv]) (by rw [hv])
  | underflow | blockOpen | noOpenBlock => simpa [Answer.declared?] using h

theorem after (h : m.InOrder log) (calls : List Call) : (m.after calls).InOrder (log ++ m.added calls) := by
  induction calls generalizing m log with
  | nil => simpa [added, answers] using h
  | cons c rest ih =>
    rw [after_cons, added_cons, ← List.append_assoc]
    exact ih (h.call c)

end InOrder

/-- Whatever calls a new method gets, its open blocks are numbered upwards, the numbers of blocks start over when
none is open, and its variables have the numbers from 1 on in the order in which they were added. A call is refused
only for misuse. Then it changes nothing, and all other calls are answered as if it had never been made. -/
theorem numbering_after_calls (name : String) (returns : Option Ty) (site : Site) (calls : List Call) :
    let new : Method := { name, returns, site }
    let m := new.after calls
    ((m.blocks.reverse.map Block.number).Pairwise (· < ·) ∧ ∀ b ∈ m.blocks, b.number < m.nextBlock.next) ∧
    (m.blocks = [] → m.nextBlock.next = 0) ∧
    (((m.parameters ++ m.locals).map (·.index)).Nodup ∧
      (new.added calls).map (·.index) = List.range' 1 m.numVariables ∧
      m.parameters = (new.added calls).filter (·.block.isNone) ∧
      m.locals.reverse = (new.added calls).filter (·.block.isSome) ∧
      m.nextIndex.next = m.numVariables + 1) ∧
    (∀ c e, (m.call c).1 = .refused e ↔ m.refusal? c = some e) ∧
    (∀ c e, (m.call c).1 = .refused e → (m.call c).2 = m) ∧
    new.after (new.accepted calls) = m ∧
    new.answers (new.accepted calls) = (new.answers calls).filter (!·.isRefused) := by
  intro new m
  have h : m.InOrder (new.added calls) := (inOrder_new name returns site).after calls
  have hmade : m.Made := ⟨name, returns, site, calls, rfl⟩
  refine ⟨⟨?_, h.below⟩, ?_, ⟨hmade.numbered.apart, h.indices, h.parameters, ?_, h.next⟩, fun c e => refused_iff, ?_,
    new.after_accepted calls, new.answers_accepted calls⟩
  · rw [List.pairwise_map, List.pairwise_reverse]
    exact h.upwards
  · intro hclosed
    rw [hmade.rested hclosed]
  · rw [h.locals, List.reverse_reverse]
  · intro c e hrefused
    apply call_of_isRefused
    rw [hrefused, Answer.isRefused]

end Method

end Lowering
