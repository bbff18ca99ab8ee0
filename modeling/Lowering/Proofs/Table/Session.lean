import Lowering.Proofs.Table.History

/-!
# Lexical scoping

A method keeps the locals of all blocks in one list and tells blocks apart by their numbers alone. It
is measured against a stack of environments, one for each open block: to leave a block takes its
environment off the stack, and a name is looked up from the top of the stack down. The main statement
says that both find the same locals, so long as numbers do not start over.
-/

namespace Lowering

open Lowering.Source (Site)
open Method (Call Answer)

/-! ## The stack of environments -/

/-- A block with its locals, the latest first. -/
structure Environment where
  block : Block
  locals : List Variable := []
  deriving DecidableEq

structure Session where
  /-- The environments of the open blocks, the innermost first. -/
  stack : List Environment := []
  /-- The environments of the blocks that were left. -/
  past : List Environment := []
  /-- The number of variables, parameters included. -/
  declared : Nat := 0
  deriving DecidableEq

namespace Session

variable {s : Session} {c : Call}

def environments (s : Session) : List Environment := s.stack ++ s.past

/-- A new block goes by the number of blocks that were entered before it. -/
def enter (s : Session) : Session := { s with stack := { block := ⟨s.environments.length⟩ } :: s.stack }

def leave (s : Session) : Session :=
  match s.stack with
  | [] => s
  | e :: outer => { s with stack := outer, past := e :: s.past }

def addParameter (s : Session) : Session :=
  match s.stack with
  | [] => { s with declared := s.declared + 1 }
  | _ :: _ => s

def addLocal (s : Session) (name : String) (type : Ty) (site : Site) : Session :=
  match s.stack with
  | [] => s
  | e :: outer =>
    let v : Variable := { name, type, site, index := s.declared + 1, block := some e.block }
    { s with stack := { e with locals := v :: e.locals } :: outer, declared := s.declared + 1 }

def call (s : Session) : Call → Session
  | .enter => s.enter
  | .leave => s.leave
  | .addParameter .. => s.addParameter
  | .addLocal name type site => s.addLocal name type site

def after (s : Session) (calls : List Call) : Session := calls.foldl call s

theorem after_concat (s : Session) (calls : List Call) (c : Call) :
    s.after (calls ++ [c]) = (s.after calls).call c := by
  rw [after, List.foldl_append]
  rfl

theorem length_call (hc : c ≠ .enter) : (s.call c).environments.length = s.environments.length := by
  cases c with
  | enter => exact absurd rfl hc
  | leave =>
    rw [call, leave]
    split
    next => rfl
    next e outer hstack =>
      rw [environments, environments, hstack, List.perm_middle.length_eq]
      rfl
  | addParameter name type site =>
    rw [call, addParameter]
    split <;> rfl
  | addLocal name type site =>
    rw [call, addLocal]
    split
    next => rfl
    next e outer hstack =>
      rw [environments, environments, hstack]
      rfl

/-- The latest local of the innermost environment that has one of the name. -/
def find? (s : Session) (x : String) : Option Variable :=
  s.stack.findSome? fun e => e.locals.find? (·.name == x)

theorem find?_eq_none_iff (s : Session) (x : String) :
    s.find? x = none ↔ ∀ e ∈ s.stack, ∀ v ∈ e.locals, v.name ≠ x := by
  simp [find?, List.findSome?_eq_none_iff]

end Session

/-! ## Both at a point -/

/-- The method is at the same point as the stack of environments. -/
structure Tracks (m : Method) (s : Session) : Prop where
  blocks : m.blocks = s.stack.map (·.block)
  locals : ∀ e ∈ s.environments, e.locals = m.locals.filter (·.block == some e.block)
  numbers : (s.environments.map (·.block)).Perm ((List.range s.environments.length).map Block.mk)
  known : ∀ v ∈ m.locals, ∃ e ∈ s.environments, v.block = some e.block
  declared : m.nextIndex.next = s.declared + 1
  indices : m.locals.Pairwise fun v u => u.index < v.index
  bounded : ∀ v ∈ m.locals, v.index < m.nextIndex.next

namespace Tracks

variable {m m' : Method} {s s' : Session} {x : String}

theorem stack_eq_nil (h : Tracks m s) (hblocks : m.blocks = []) : s.stack = [] := by
  rw [h.blocks] at hblocks
  exact List.map_eq_nil_iff.1 hblocks

theorem stack_eq_cons {b : Block} {outer : List Block} (h : Tracks m s) (hblocks : m.blocks = b :: outer) :
    ∃ e rest, s.stack = e :: rest ∧ e.block = b ∧ rest.map (·.block) = outer := by
  rw [h.blocks] at hblocks
  exact List.map_eq_cons_iff.1 hblocks

theorem number_lt (h : Tracks m s) {e : Environment} (he : e ∈ s.environments) :
    e.block.number < s.environments.length := by
  obtain ⟨n, hn, heq⟩ := List.mem_map.1 (h.numbers.mem_iff.1 (List.mem_map_of_mem he))
  rw [← heq]
  exact List.mem_range.1 hn

theorem nodup (h : Tracks m s) : (s.environments.map (·.block)).Nodup := by
  refine h.numbers.nodup_iff.2 (List.nodup_range.map fun a b hab => ?_)
  exact congrArg Block.number hab

/-! ## One call -/

theorem rearrange (h : Tracks m s) (hblocks : m'.blocks = s'.stack.map (·.block))
    (hperm : s'.environments.Perm s.environments) (hlocals : m'.locals = m.locals)
    (hcount : m'.nextIndex.next = s'.declared + 1) (hle : m.nextIndex.next ≤ m'.nextIndex.next) :
    Tracks m' s' := by
  refine ⟨hblocks, fun e he => ?_, ?_, fun v hv => ?_, hcount, ?_, fun v hv => ?_⟩
  · rw [hlocals]
    exact h.locals e (hperm.mem_iff.1 he)
  · rw [hperm.length_eq]
    exact (hperm.map _).trans h.numbers
  · rw [hlocals] at hv
    obtain ⟨e, he, hblock⟩ := h.known v hv
    exact ⟨e, hperm.mem_iff.2 he, hblock⟩
  · rw [hlocals]
    exact h.indices
  · rw [hlocals] at hv
    exact (h.bounded v hv).trans_le hle

theorem enter (h : Tracks m s) (hnext : m.nextBlock.next = s.environments.length) :
    Tracks { m with blocks := ⟨m.nextBlock.next⟩ :: m.blocks, nextBlock := ⟨m.nextBlock.next + 1⟩ } s.enter := by
  have hnew : s.enter.environments = { block := ⟨s.environments.length⟩ } :: s.environments := rfl
  refine ⟨?_, fun e he => ?_, ?_, fun v hv => ?_, h.declared, h.indices, h.bounded⟩
  · rw [hnext, h.blocks]
    rfl
  · rw [hnew] at he
    rcases List.mem_cons.1 he with rfl | he
    -- No local can be in a block whose number was not given before.
    · refine (List.filter_eq_nil_iff.2 fun v hv hblock => ?_).symm
      obtain ⟨e, he, heq⟩ := h.known v hv
      have hlt := h.number_lt he
      rw [heq, beq_iff_eq, Option.some.injEq] at hblock
      rw [hblock] at hlt
      exact lt_irrefl _ hlt
    · exact h.locals e he
  · rw [hnew, List.length_cons, List.range_succ, List.map_append, List.map_cons]
    exact (h.numbers.cons _).trans (List.perm_append_singleton _ _).symm
  · obtain ⟨e, he, hblock⟩ := h.known v hv
    exact ⟨e, List.mem_cons_of_mem _ he, hblock⟩

theorem leave {b : Block} {outer : List Block} {next : Counter} (h : Tracks m s) (hblocks : m.blocks = b :: outer) :
    Tracks { m with blocks := outer, nextBlock := next } s.leave := by
  obtain ⟨e, rest, hstack, -, hrest⟩ := h.stack_eq_cons hblocks
  have hleave : s.leave = { s with stack := rest, past := e :: s.past } := by rw [Session.leave, hstack]
  rw [hleave]
  refine h.rearrange hrest.symm ?_ rfl h.declared le_rfl
  rw [Session.environments, Session.environments, hstack]
  exact List.perm_middle

theorem addParameter {v : Variable} (h : Tracks m s) (hblocks : m.blocks = []) :
    Tracks { m with parameters := m.parameters ++ [v], nextIndex := ⟨m.nextIndex.next + 1⟩ } s.addParameter := by
  have hadd : s.addParameter = { s with declared := s.declared + 1 } := by
    rw [Session.addParameter, h.stack_eq_nil hblocks]
  rw [hadd]
  exact h.rearrange h.blocks (.refl _) rfl (congrArg (· + 1) h.declared) (Nat.le_succ _)

theorem addLocal {b : Block} {outer : List Block} {v : Variable} {name : String} {type : Ty} {site : Site}
    (h : Tracks m s) (hblocks : m.blocks = b :: outer)
    (hv : v = { name, type, site, index := m.nextIndex.next, block := some b }) :
    Tracks { m with locals := v :: m.locals, nextIndex := ⟨m.nextIndex.next + 1⟩ } (s.addLocal name type site) := by
  obtain ⟨e, rest, hstack, rfl, hrest⟩ := h.stack_eq_cons hblocks
  have hadd : s.addLocal name type site =
      { s with stack := { e with locals := v :: e.locals } :: rest, declared := s.declared + 1 } := by
    rw [Session.addLocal, hstack, hv, h.declared]
  have hold : s.environments = e :: (rest ++ s.past) := by rw [Session.environments, hstack]; rfl
  have hnew : (s.addLocal name type site).environments = { e with locals := v :: e.locals } :: (rest ++ s.past) := by
    rw [Session.environments, hadd]
    rfl
  have hsame : (s.addLocal name type site).environments.map (·.block) = s.environments.map (·.block) := by
    rw [hnew, hold]
    rfl
  have hblock : v.block = some e.block := by rw [hv]
  have hindex : v.index = m.nextIndex.next := by rw [hv]
  -- No other environment has the block of the top one.
  have hother : ∀ e' ∈ rest ++ s.past, (v.block == some e'.block) = false := by
    intro e' he'
    have hnodup := h.nodup
    rw [hold, List.map_cons, List.nodup_cons] at hnodup
    rw [hblock, beq_eq_false_iff_ne, Ne, Option.some.injEq]
    exact fun heq => hnodup.1 (heq ▸ List.mem_map_of_mem he')
  refine ⟨?_, fun e' he' => ?_, ?_, fun u hu => ?_, ?_, ?_, fun u hu => ?_⟩
  · rw [hadd, h.blocks, hstack]
    rfl
  · rw [hnew] at he'
    rcases List.mem_cons.1 he' with rfl | he'
    · rw [List.filter_cons_of_pos (by simp [hblock]), h.locals e (hold ▸ List.mem_cons_self)]
    · rw [List.filter_cons_of_neg (by simp [hother e' he'])]
      exact h.locals e' (hold ▸ List.mem_cons_of_mem _ he')
  · have hlength : (s.addLocal name type site).environments.length = s.environments.length := by
      rw [hnew, hold]
      rfl
    rw [hsame, hlength]
    exact h.numbers
  · rcases List.mem_cons.1 hu with rfl | hu
    · exact ⟨{ e with locals := u :: e.locals }, hnew ▸ List.mem_cons_self, hblock⟩
    · obtain ⟨e', he', heq⟩ := h.known u hu
      have hmem : e'.block ∈ s.environments.map (·.block) := List.mem_map_of_mem he'
      rw [← hsame] at hmem
      obtain ⟨e'', he'', hsame'⟩ := List.mem_map.1 hmem
      exact ⟨e'', he'', by rw [heq, hsame']⟩
  · rw [hadd]
    exact congrArg (· + 1) h.declared
  · refine List.pairwise_cons.2 ⟨fun u hu => ?_, h.indices⟩
    rw [hindex]
    exact h.bounded u hu
  · rcases List.mem_cons.1 hu with rfl | hu
    · exact Nat.lt_succ_of_le hindex.le
    · exact Nat.lt_succ_of_lt (h.bounded u hu)

end Tracks

/-- Besides, the next block gets the same number from both. -/
structure InStep (m : Method) (s : Session) : Prop extends Tracks m s where
  next : m.nextBlock.next = s.environments.length

namespace InStep

variable {m : Method} {s : Session} {c : Call} {calls : List Call}

theorem tracks_call (h : InStep m s) (c : Call) : Tracks (m.call c).2 (s.call c) := by
  have hstep := m.responds_call c
  generalize (m.call c).1 = a, (m.call c).2 = m' at hstep
  cases hstep with
  | enter => exact h.enter h.next
  | leaveInner hblocks => exact h.leave hblocks
  | leaveLast hblocks => exact h.leave hblocks
  | parameterAdded hblocks => exact h.addParameter hblocks
  | localAdded hblocks hv => exact h.addLocal hblocks hv
  | underflow hblocks =>
    rw [Session.call, Session.leave, h.stack_eq_nil hblocks]
    exact h.toTracks
  | blockOpen hblocks =>
    obtain ⟨b, outer, hcons⟩ := List.exists_cons_of_ne_nil hblocks
    obtain ⟨e, rest, hstack, -⟩ := h.stack_eq_cons hcons
    rw [Session.call, Session.addParameter, hstack]
    exact h.toTracks
  | noOpenBlock hblocks =>
    rw [Session.call, Session.addLocal, h.stack_eq_nil hblocks]
    exact h.toTracks

theorem call (h : InStep m s) (hopen : m.blocks ≠ [] → (m.call c).2.blocks ≠ []) :
    InStep (m.call c).2 (s.call c) := by
  refine ⟨h.tracks_call c, ?_⟩
  have hstep := m.responds_call c
  generalize (m.call c).1 = a, (m.call c).2 = m' at hstep hopen
  cases hstep with
  | enter => exact congrArg (· + 1) h.next
  | leaveLast hblocks => exact absurd rfl (hopen (by simp [hblocks]))
  | leaveInner | parameterAdded | localAdded | underflow | blockOpen | noOpenBlock =>
    rw [Session.length_call (by simp)]
    exact h.next

end InStep

/-! ## Many calls -/

/-- From the first block on, there is always one open. -/
def Method.StaysOpen (m : Method) (calls : List Call) : Prop :=
  ∀ before, before <+: calls → .enter ∈ before → (m.after before).blocks ≠ []

instance (m : Method) (calls : List Call) : Decidable (m.StaysOpen calls) :=
  decidable_of_iff (∀ before ∈ calls.inits, .enter ∈ before → (m.after before).blocks ≠ [])
    (forall_congr' fun before => by rw [List.mem_inits])

theorem Method.blocks_call_eq_nil {m : Method} {c : Call} (hclosed : m.blocks = []) (hc : c ≠ .enter) :
    (m.call c).2.blocks = [] := by
  have hstep := m.responds_call c
  generalize (m.call c).1 = a, (m.call c).2 = m' at hstep
  cases hstep with
  | enter => exact absurd rfl hc
  | leaveInner hblocks => simp [hblocks] at hclosed
  | leaveLast => rfl
  | parameterAdded | localAdded | underflow | blockOpen | noOpenBlock => exact hclosed

theorem Method.blocks_after_eq_nil {m : Method} {calls : List Call} (hclosed : m.blocks = [])
    (henter : .enter ∉ calls) : (m.after calls).blocks = [] := by
  induction calls generalizing m with
  | nil => exact hclosed
  | cons c rest ih =>
    obtain ⟨hne, hrest⟩ := not_or.1 (List.mem_cons.not.1 henter)
    exact ih (blocks_call_eq_nil hclosed (Ne.symm hne)) hrest

theorem InStep.after {m : Method} {s : Session} {calls : List Call} (h : InStep m s) (hclosed : m.blocks = [])
    (hopen : m.StaysOpen calls) : InStep (m.after calls) (s.after calls) := by
  induction calls using List.reverseRecOn with
  | nil => exact h
  | append_singleton calls c ih =>
    have hstep := ih fun before hbefore => hopen before (hbefore.trans (List.prefix_append _ _))
    rw [Method.after_concat, Session.after_concat]
    -- A block can be open before the call only if one was entered.
    refine hstep.call fun hblocks => ?_
    have henter : .enter ∈ calls := by
      by_contra hnone
      exact hblocks (Method.blocks_after_eq_nil hclosed hnone)
    rw [← Method.after_concat]
    exact hopen _ List.prefix_rfl (List.mem_append_left _ henter)

theorem inStep_new (name : String) (returns : Option Ty) (site : Site) : InStep { name, returns, site } {} where
  blocks := rfl
  locals _ he := absurd he List.not_mem_nil
  numbers := .refl _
  known _ hv := absurd hv List.not_mem_nil
  declared := rfl
  indices := .nil
  bounded _ hv := absurd hv List.not_mem_nil
  next := rfl

/-! ## Selection by depth -/

/-- How many blocks lie below the block on the stack. -/
def Block.position? (b : Block) : List Block → Option Nat
  | [] => none
  | inner :: outer => if inner = b then some outer.length else b.position? outer

theorem Block.position?_lt {b : Block} {stack : List Block} {d : Nat} (h : b.position? stack = some d) :
    d < stack.length := by
  induction stack with
  | nil => cases h
  | cons inner outer ih =>
    rw [position?] at h
    split at h
    next =>
      cases h
      exact Nat.lt_succ_self _
    next => exact Nat.lt_succ_of_lt (ih h)

/-- The locals whose block is on the stack, each with the position of its block. -/
def placedOn (stack : List Block) (vs : List Variable) : List (Nat × Variable) :=
  vs.filterMap fun v => (v.block.bind (·.position? stack)).map (·, v)

theorem mem_placedOn {stack : List Block} {vs : List Variable} {d : Nat} {v : Variable} :
    (d, v) ∈ placedOn stack vs ↔ v ∈ vs ∧ ∃ b, v.block = some b ∧ b.position? stack = some d := by
  simp [placedOn, List.mem_filterMap, Option.bind_eq_some_iff]

theorem argmax_append_cons {α : Type} {f : α → Nat} {a : α} {before after : List α}
    (hbefore : ∀ b ∈ before, f b < f a) (hafter : ∀ b ∈ after, f b ≤ f a) :
    (before ++ a :: after).argmax f = some a := by
  induction before with
  | nil =>
    rw [List.nil_append, List.argmax_cons]
    cases hmax : after.argmax f with
    | none => rfl
    | some c => exact if_neg (Nat.not_lt.2 (hafter c (List.argmax_mem hmax)))
  | cons b rest ih =>
    rw [List.cons_append, List.argmax_cons, ih fun c hc => hbefore c (List.mem_cons_of_mem _ hc)]
    exact if_pos (hbefore b List.mem_cons_self)

theorem findSome?_eq_deepest (vs : List Variable) (stack : List Block) :
    (stack.findSome? fun b => vs.find? (·.block == some b)) = ((placedOn stack vs).argmax Prod.fst).map Prod.snd := by
  induction stack with
  | nil =>
    have hnone : placedOn [] vs = [] := List.filterMap_eq_nil_iff.2 fun v _ => by simp [Block.position?]
    rw [hnone]
    rfl
  | cons inner outer ih =>
    rw [List.findSome?_cons]
    cases hfind : vs.find? (·.block == some inner) with
    | none =>
      -- Nothing is in the innermost block, so it may as well not be there.
      have hsame : placedOn (inner :: outer) vs = placedOn outer vs := by
        refine List.filterMap_congr fun v hv => ?_
        have hother := List.find?_eq_none.1 hfind v hv
        cases hblock : v.block with
        | none => rfl
        | some b =>
          have hne : inner ≠ b := by
            rintro rfl
            simp [hblock] at hother
          simp [Block.position?, hne]
      rw [ih, hsame]
    | some v =>
      -- Those that stand before it were declared later, and not in the innermost block.
      obtain ⟨hblock, later, earlier, rfl, hlater⟩ := List.find?_eq_some_iff_append.1 hfind
      have hv : v.block = some inner := by simpa using hblock
      have hplaced : placedOn (inner :: outer) (later ++ v :: earlier) =
          placedOn (inner :: outer) later ++ (outer.length, v) :: placedOn (inner :: outer) earlier := by
        simp [placedOn, hv, Block.position?]
      have hmax : (placedOn (inner :: outer) (later ++ v :: earlier)).argmax Prod.fst = some (outer.length, v) := by
        rw [hplaced]
        refine argmax_append_cons ?_ ?_
        · rintro ⟨d, u⟩ hu
          obtain ⟨hmem, b, hb, hd⟩ := mem_placedOn.1 hu
          have hne : inner ≠ b := by
            rintro rfl
            simpa [hb] using hlater u hmem
          rw [Block.position?, if_neg hne] at hd
          exact Block.position?_lt hd
        · rintro ⟨d, u⟩ hu
          obtain ⟨-, b, -, hd⟩ := mem_placedOn.1 hu
          exact Nat.le_of_lt_succ (Block.position?_lt hd)
      rw [hmax]
      rfl

/-- The visible local is in the block that lies deepest on the stack. Namesakes stand the latest first, so of
several in that block it is the one declared last. -/
theorem Method.local?_eq_deepest (m : Method) (x : String) :
    m.local? x = ((placedOn m.blocks (m.namesakes x)).argmax Prod.fst).map Prod.snd :=
  findSome?_eq_deepest (m.namesakes x) m.blocks

/-! ## Lookup -/

theorem findSome?_congr {α β : Type} {f g : α → Option β} {l : List α} (h : ∀ a ∈ l, f a = g a) :
    l.findSome? f = l.findSome? g := by
  induction l with
  | nil => rfl
  | cons a rest ih =>
    rw [List.findSome?_cons, List.findSome?_cons, h a List.mem_cons_self,
      ih fun b hb => h b (List.mem_cons_of_mem _ hb)]

/-- The method looks for the name first and for the block then, an environment the other way round. -/
theorem Method.find?_namesakes (m : Method) (x : String) (b : Block) :
    (m.namesakes x).find? (·.block == some b) = (m.locals.filter (·.block == some b)).find? (·.name == x) := by
  rw [namesakes, List.find?_filter, List.find?_filter]
  simp only [and_comm]

/-- What is bound under the name `x` is `v` and nothing else. -/
def Method.Selects (m : Method) (x : String) (v : Variable) : Prop :=
  ∀ a, ∃ before after, m.locals = before ++ v :: after ∧
    m.bindLocal? x a = some { m with locals := before ++ { v with access := some a } :: after }

namespace Tracks

variable {m : Method} {s : Session} {x : String}

theorem find?_locals (h : Tracks m s) {e : Environment} (he : e ∈ s.environments) (x : String) :
    (m.namesakes x).find? (·.block == some e.block) = e.locals.find? (·.name == x) := by
  rw [h.locals e he, m.find?_namesakes]

theorem local?_eq (h : Tracks m s) (x : String) : m.local? x = s.find? x := by
  unfold Method.local? Session.find?
  rw [h.blocks, List.findSome?_map]
  exact findSome?_congr fun e he => h.find?_locals (List.mem_append_left _ he) x

theorem mem_of_find? (h : Tracks m s) {v : Variable} (hv : s.find? x = some v) : v ∈ m.locals := by
  obtain ⟨e, he, hfound⟩ := List.exists_of_findSome?_eq_some hv
  have hmem := List.mem_of_find?_eq_some hfound
  rw [h.locals e (List.mem_append_left _ he)] at hmem
  exact List.mem_of_mem_filter hmem

theorem selects (h : Tracks m s) {v : Variable} (hv : s.find? x = some v) : m.Selects x v := by
  intro a
  obtain ⟨before, after, hlocals⟩ := List.append_of_mem (h.mem_of_find? hv)
  refine ⟨before, after, hlocals, ?_⟩
  -- No other local has the number of the one that is found.
  have hindices := h.indices
  rw [hlocals, List.pairwise_append, List.pairwise_cons] at hindices
  obtain ⟨-, ⟨hafter, -⟩, hbefore⟩ := hindices
  have hother : ∀ us : List Variable, (∀ u ∈ us, u.index ≠ v.index) → Method.setAccess v.index a us = us := by
    intro us hus
    exact (List.map_congr_left fun u hu => if_neg (hus u hu)).trans (List.map_id' us)
  rw [Method.bindLocal?, h.local?_eq, hv, Option.map_some, hlocals, Method.setAccess, List.map_append, List.map_cons,
    if_pos rfl]
  have hleft := hother before fun u hu => (hbefore u hu v List.mem_cons_self).ne'
  have hright := hother after fun u hu => (hafter u hu).ne
  rw [Method.setAccess] at hleft hright
  rw [hleft, hright]

theorem isDeclaredHere_iff (h : Tracks m s) (x : String) :
    m.isDeclaredHere x = true ↔ ∃ e outer, s.stack = e :: outer ∧ ∃ v ∈ e.locals, v.name = x := by
  unfold Method.isDeclaredHere Method.currentBlock?
  rw [h.blocks]
  cases hstack : s.stack with
  | nil => simp
  | cons e outer =>
    have he : e ∈ s.environments := List.mem_append_left _ (hstack ▸ List.mem_cons_self)
    simp [Method.localIn?, h.find?_locals he]

end Tracks

/-- The method finds under the name `x` what the stack of environments has. -/
structure Agrees (m : Method) (s : Session) (x : String) : Prop where
  found : m.local? x = s.find? x
  missing : m.local? x = none ↔ ∀ e ∈ s.stack, ∀ v ∈ e.locals, v.name ≠ x
  selected : ∀ v, s.find? x = some v → m.Selects x v
  unselected : s.find? x = none → ∀ a, m.bindLocal? x a = none
  declaredHere : m.isDeclaredHere x = true ↔ ∃ e outer, s.stack = e :: outer ∧ ∃ v ∈ e.locals, v.name = x

/-- At every point of a session, lookup is lexical. -/
theorem Method.after_agrees (name : String) (returns : Option Ty) (site : Site) (calls : List Call)
    (hopen : StaysOpen { name, returns, site } calls) (before : List Call) (hbefore : before <+: calls) (x : String) :
    Agrees (after { name, returns, site } before) (Session.after {} before) x := by
  have hstep := (inStep_new name returns site).after rfl
    fun before' hearlier => hopen before' (hearlier.trans hbefore)
  have htracks := hstep.toTracks
  refine ⟨htracks.local?_eq x, ?_, fun v => htracks.selects, fun hnone a => ?_, htracks.isDeclaredHere_iff x⟩
  · rw [htracks.local?_eq, Session.find?_eq_none_iff]
  · rw [Method.bindLocal?, htracks.local?_eq, hnone, Option.map_none]

/-- Two blocks side by side in an outer one, with a name that is declared twice in a block. -/
def siblings : List Call :=
  [.addParameter "x" .boolean {}, .enter, .addLocal "x" .int {}, .enter, .addLocal "x" .intArray {},
    .addLocal "x" .boolean {}, .leave, .enter, .addLocal "y" .int {}]

/-- The name in the block that was left is out of sight, that in the outer block is not. -/
theorem Method.after_agrees_siblings :
    StaysOpen { name := "run", returns := none, site := {} } siblings ∧
      (after { name := "run", returns := none, site := {} } siblings).local? "x" =
        some { name := "x", type := .int, site := {}, index := 2, block := some ⟨0⟩ } ∧
      Agrees (after { name := "run", returns := none, site := {} } siblings) (Session.after {} siblings) "x" := by
  have hopen : StaysOpen { name := "run", returns := none, site := {} } siblings := by decide
  exact ⟨hopen, by decide, after_agrees "run" none {} siblings hopen siblings List.prefix_rfl "x"⟩

end Lowering
