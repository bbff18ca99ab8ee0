import Lowering.Proofs.Table.Session

/-!
# A second walk over the blocks

Numbers start over when the last block is left. So a second session that enters and leaves blocks as
the first one did is given the same numbers, and sees in each block all the locals that the block got in
the first session, those added after the point included.
-/

namespace Lowering

open Lowering.Source (Site)
open Method (Call Answer)

/-! ## Entering and leaving -/

def Method.Call.isBlock : Call → Bool
  | .enter | .leave => true
  | .addParameter .. | .addLocal .. => false

/-- The block that was entered or left. -/
def Method.Answer.block? : Answer → Option Block
  | .entered b | .left b => some b
  | .added _ | .refused _ => none

/-- Blocks stand the same in both methods. -/
structure SameScopes (m n : Method) : Prop where
  blocks : n.blocks = m.blocks
  nextBlock : n.nextBlock = m.nextBlock

namespace SameScopes

variable {m n : Method} {c : Call}

theorem refl (m : Method) : SameScopes m m := ⟨rfl, rfl⟩

theorem call_of_isBlock (h : SameScopes m n) (hc : c.isBlock = true) :
    (n.call c).1.block? = (m.call c).1.block? ∧ SameScopes (m.call c).2 (n.call c).2 := by
  obtain ⟨hblocks, hnext⟩ := h
  cases c with
  | addParameter | addLocal => cases hc
  | enter =>
    rw [Method.call, Method.call, Method.enter, Method.enter, hblocks, hnext]
    exact ⟨rfl, rfl, rfl⟩
  | leave =>
    rw [Method.call, Method.call, Method.leave, Method.leave, hblocks, hnext]
    cases hnone : m.blocks with
    | nil => exact ⟨rfl, hblocks, hnext⟩
    | cons b outer => exact ⟨rfl, rfl, rfl⟩

theorem call_of_not_isBlock (h : SameScopes m n) (hc : c.isBlock = false) :
    (m.call c).1.block? = none ∧ SameScopes (m.call c).2 n := by
  have hstep := m.responds_call c
  generalize (m.call c).1 = a, (m.call c).2 = m' at hstep
  cases hstep with
  | enter | leaveInner | leaveLast | underflow => cases hc
  | parameterAdded | localAdded | blockOpen | noOpenBlock => exact ⟨rfl, h.blocks, h.nextBlock⟩

theorem after (h : SameScopes m n) (calls : List Call) :
    SameScopes (m.after calls) (n.after (calls.filter Call.isBlock)) := by
  induction calls generalizing m n with
  | nil => exact h
  | cons c rest ih =>
    cases hc : c.isBlock with
    | true =>
      rw [List.filter_cons_of_pos hc]
      exact ih (h.call_of_isBlock hc).2
    | false =>
      rw [List.filter_cons_of_neg (by simp [hc])]
      exact ih (h.call_of_not_isBlock hc).2

theorem answers (h : SameScopes m n) (calls : List Call) :
    (n.answers (calls.filter Call.isBlock)).filterMap Answer.block? = (m.answers calls).filterMap Answer.block? := by
  induction calls generalizing m n with
  | nil => rfl
  | cons c rest ih =>
    cases hc : c.isBlock with
    | true =>
      obtain ⟨hblock, hnext⟩ := h.call_of_isBlock hc
      rw [List.filter_cons_of_pos hc, Method.answers, Method.answers, List.filterMap_cons, List.filterMap_cons, hblock,
        ih hnext]
    | false =>
      obtain ⟨hnone, hnext⟩ := h.call_of_not_isBlock hc
      rw [List.filter_cons_of_neg (by simp [hc]), ih hnext, Method.answers, List.filterMap_cons_none hnone]

end SameScopes

/-! ## Whole sessions -/

/-- The calls close all blocks, the last of them with the last call. -/
@[mk_iff]
structure Method.CompletesSession (m : Method) (calls : List Call) : Prop where
  stays : ∀ before, before <+: calls → before ≠ calls → .enter ∈ before → (m.after before).blocks ≠ []
  ends : (m.after calls).blocks = []

instance (m : Method) (calls : List Call) : Decidable (m.CompletesSession calls) :=
  decidable_of_iff ((∀ before ∈ calls.inits, before ≠ calls → .enter ∈ before → (m.after before).blocks ≠ []) ∧
    (m.after calls).blocks = []) (by simp only [List.mem_inits, Method.completesSession_iff])

namespace Method.CompletesSession

variable {m : Method} {s : Session} {calls before : List Call}

theorem tracks (h : m.CompletesSession calls) (hstart : InStep m s) (hclosed : m.blocks = [])
    (hbefore : before <+: calls) : Tracks (m.after before) (s.after before) := by
  induction before using List.reverseRecOn with
  | nil => exact hstart.toTracks
  | append_singleton earlier c _ =>
    -- The call `c` may close the last block, those before it leave one open.
    have hopen : m.StaysOpen earlier := by
      intro before' hearlier
      have hshort := hearlier.length_le.trans_lt (hbefore.length_le.trans_lt' (by simp))
      refine h.stays before' (hearlier.trans ((List.prefix_append _ _).trans hbefore)) ?_
      exact fun heq => hshort.ne (congrArg List.length heq)
    rw [after_concat, Session.after_concat]
    exact (hstart.after hclosed hopen).tracks_call c

theorem filter (h : m.CompletesSession calls) : m.CompletesSession (calls.filter Call.isBlock) := by
  have hsame := SameScopes.refl m
  refine ⟨fun before hbefore hne henter => ?_, ?_⟩
  · obtain ⟨earlier, hearlier, rfl⟩ := List.prefix_filter_iff.1 hbefore
    rw [(hsame.after earlier).blocks]
    refine h.stays earlier hearlier ?_ (List.mem_of_mem_filter henter)
    exact fun heq => hne (congrArg _ heq)
  · rw [(hsame.after calls).blocks]
    exact h.ends

end Method.CompletesSession

/-! ## Locals in the second session -/

/-- All locals that a block got, the latest first. -/
def Session.received (s : Session) (b : Block) : List Variable :=
  ((s.environments.find? (·.block == b)).map (·.locals)).getD []

theorem Tracks.received_eq {m : Method} {s : Session} (h : Tracks m s) (b : Block) :
    s.received b = m.locals.filter (·.block == some b) := by
  unfold Session.received
  cases hfind : s.environments.find? (·.block == b) with
  | some e =>
    have hblock : e.block = b := by simpa using List.find?_some hfind
    rw [Option.map_some, Option.getD_some, h.locals e (List.mem_of_find?_eq_some hfind), hblock]
  | none =>
    refine (List.filter_eq_nil_iff.2 fun v hv hvb => ?_).symm
    obtain ⟨e, he, hblock⟩ := h.known v hv
    have hother := List.find?_eq_none.1 hfind e he
    simp_all

theorem Tracks.local?_received {m n : Method} {s point : Session} (h : Tracks m s) (hlocals : n.locals = m.locals)
    (hblocks : n.blocks = point.stack.map (·.block)) (x : String) :
    n.local? x = point.stack.findSome? fun e => (s.received e.block).find? (·.name == x) := by
  unfold Method.local?
  rw [hblocks, List.findSome?_map]
  refine findSome?_congr fun e _ => ?_
  rw [h.received_eq, Function.comp_apply, n.find?_namesakes, hlocals]

theorem Method.locals_after_filter (m : Method) (calls : List Call) :
    (m.after (calls.filter Call.isBlock)).locals = m.locals := by
  induction calls generalizing m with
  | nil => rfl
  | cons c rest ih =>
    cases hc : c.isBlock with
    | false => rw [List.filter_cons_of_neg (by simp [hc]), ih]
    | true =>
      rw [List.filter_cons_of_pos hc, after_cons, ih]
      have hstep := m.responds_call c
      generalize (m.call c).1 = a, (m.call c).2 = m' at hstep
      cases hstep with
      | parameterAdded | localAdded | blockOpen | noOpenBlock => cases hc
      | enter | leaveInner | leaveLast | underflow => rfl

/-- A second session meets the same blocks, each with all that it got in the first session. -/
theorem Method.replay_finds (name : String) (returns : Option Ty) (site : Site) (calls : List Call)
    (hcomplete : CompletesSession { name, returns, site } calls) :
    let first := after { name, returns, site } calls
    (first.answers (calls.filter Call.isBlock)).filterMap Answer.block? =
        (answers { name, returns, site } calls).filterMap Answer.block? ∧
      ∀ point, point <+: calls.filter Call.isBlock → ∀ x,
        (first.after point).local? x = ((Session.after {} point).stack.findSome? fun e =>
          ((Session.after {} calls).received e.block).find? (·.name == x)) ∧
        ((first.after point).local? x = none ↔ ∀ e ∈ (Session.after {} point).stack,
          ∀ v ∈ (Session.after {} calls).received e.block, v.name ≠ x) := by
  intro first
  have hstart := inStep_new name returns site
  have hend : Tracks first (Session.after {} calls) := hcomplete.tracks hstart rfl List.prefix_rfl
  have hagain : SameScopes { name, returns, site } first :=
    ⟨hcomplete.ends, Rested.after (m := { name, returns, site }) (fun _ => rfl) calls hcomplete.ends⟩
  refine ⟨hagain.answers calls, fun point hpoint x => ?_⟩
  have hthen := hcomplete.filter.tracks hstart rfl hpoint
  obtain ⟨earlier, -, rfl⟩ := List.prefix_filter_iff.1 hpoint
  have hblocks : (first.after (earlier.filter Call.isBlock)).blocks =
      (Session.after {} (earlier.filter Call.isBlock)).stack.map (·.block) := by
    rw [(hagain.after earlier).blocks, ← ((SameScopes.refl _).after earlier).blocks, hthen.blocks]
  have hfound := hend.local?_received (first.locals_after_filter earlier) hblocks x
  refine ⟨hfound, ?_⟩
  rw [hfound]
  simp [List.findSome?_eq_none_iff]

/-- A block that gets one more local of a name after a block in it was left. -/
def lateDeclaration : List Call :=
  [.enter, .addLocal "x" .int {}, .enter, .leave, .addLocal "x" .boolean {}, .enter, .addLocal "x" .intArray {},
    .leave, .leave]

/-- The second session sees the later local of the outer block in the first inner one already. -/
theorem Method.replay_finds_later :
    CompletesSession { name := "run", returns := none, site := {} } lateDeclaration ∧
      ((after { name := "run", returns := none, site := {} } lateDeclaration).after [.enter, .enter]).local? "x" =
        some { name := "x", type := .boolean, site := {}, index := 2, block := some ⟨0⟩ } ∧
      ((after { name := "run", returns := none, site := {} } lateDeclaration).answers
          (lateDeclaration.filter Call.isBlock)).filterMap Answer.block? =
        (answers { name := "run", returns := none, site := {} } lateDeclaration).filterMap Answer.block? := by
  have hcomplete : CompletesSession { name := "run", returns := none, site := {} } lateDeclaration := by decide
  obtain ⟨hanswers, hlookup⟩ := replay_finds "run" none {} lateDeclaration hcomplete
  exact ⟨hcomplete, (hlookup [.enter, .enter] (by decide) "x").1.trans (by decide), hanswers⟩

end Lowering
