import Lowering.Frame
import Lowering.Proofs.Scope.Lookup

/-!
# Frames that share a supply

Frames count their slots on their own and draw their temps from one supply. Calls that create frames and
calls that allocate locals may come in any order, and no storage is handed out twice.
-/

namespace Lowering

open Lowering.Tree (Temp Label)

/-! ## Storage of one frame -/

namespace Access

def isSlot : Access → Bool
  | .inFrame _ => true
  | .inReg _ => false

def offset? : Access → Option Int
  | .inFrame offset => some offset.toInt
  | .inReg _ => none

def temp? : Access → Option Temp
  | .inFrame _ => none
  | .inReg t => some t

theorem filterMap_offset? (l : List Access) : l.filterMap offset? = (l.filter isSlot).filterMap offset? := by
  rw [List.filterMap_filter]
  congr 1
  funext a
  cases a <;> rfl

theorem nodup_of_parts {l : List Access} (hoffsets : (l.filterMap offset?).Nodup) (htemps : (l.filterMap temp?).Nodup) :
    l.Nodup := by
  induction l with
  | nil => exact List.nodup_nil
  | cons a rest ih =>
    cases a with
    | inFrame offset =>
      simp only [List.filterMap_cons, offset?, temp?, List.nodup_cons] at hoffsets htemps
      refine List.nodup_cons.2 ⟨fun hmem => hoffsets.1 ?_, ih hoffsets.2 htemps⟩
      exact List.mem_filterMap.2 ⟨_, hmem, rfl⟩
    | inReg t =>
      simp only [List.filterMap_cons, offset?, temp?, List.nodup_cons] at hoffsets htemps
      refine List.nodup_cons.2 ⟨fun hmem => htemps.1 ?_, ih hoffsets htemps.2⟩
      exact List.mem_filterMap.2 ⟨_, hmem, rfl⟩

end Access

namespace Frame

variable {f : Frame}

@[simp] theorem isSlot_slot (k : Nat) : (slot k).isSlot = true := rfl

@[simp] theorem temp?_slot (k : Nat) : (slot k).temp? = none := rfl

theorem offset?_slot {k : Nat} (h : k < 2 ^ 29) : (slot k).offset? = some (4 * (k : Int)) := by
  have hoffset : (Int32.ofNat (k * wordSize)).toInt = 4 * (k : Int) := by
    unfold wordSize
    rw [Int32.toInt_ofNat_of_lt (by omega)]
    omega
  unfold slot
  rw [Access.offset?, hoffset]

/-- Where the variables of the frame live, the formals first. -/
def accesses (f : Frame) : List Access := f.formals ++ f.locals

/-- The frame pointer, the result and the temps of variables. -/
def temps (f : Frame) : List Temp := f.fp :: f.rv :: f.accesses.filterMap Access.temp?

def withTemp (f : Frame) (t : Temp) : Frame := { f with locals := f.locals ++ [.inReg t] }

def withSlot (f : Frame) : Frame := { f with slots := f.slots + 1, locals := f.locals ++ [slot f.slots] }

theorem temps_withTemp (f : Frame) (t : Temp) : (f.withTemp t).temps = f.temps ++ [t] := by
  simp [temps, withTemp, accesses, Access.temp?]

theorem temps_withSlot (f : Frame) : f.withSlot.temps = f.temps := by
  simp [temps, withSlot, accesses]

/-- The slots in use are those after the receiver's, in order, those of the formals first. -/
structure Filled (f : Frame) : Prop where
  formals : f.formals = (List.range' 1 f.formals.length).map slot
  slots : f.accesses.filter Access.isSlot = (List.range' 1 (f.slots - 1)).map slot
  count : f.formals.length < f.slots

def fresh (name : Label) (n : Nat) (fp rv : Temp) : Frame where
  name
  fp
  rv
  formals := (List.range n).map fun i => slot (i + 1)
  slots := n + 1

theorem temps_fresh (name : Label) (n : Nat) (fp rv : Temp) : (fresh name n fp rv).temps = [fp, rv] := by
  simp [temps, fresh, accesses]

theorem filled_fresh (name : Label) (n : Nat) (fp rv : Temp) : (fresh name n fp rv).Filled := by
  have hformals : (List.range n).map (fun i => slot (i + 1)) = (List.range' 1 n).map slot := by
    rw [List.range'_eq_map_range, List.map_map]
    congr 1
    funext i
    simp [Nat.add_comm]
  constructor
  · simp [fresh, hformals]
  · simp [fresh, accesses, hformals, List.filter_map, Function.comp_def]
  · simp [fresh]

theorem Filled.withTemp (h : f.Filled) (t : Temp) : (f.withTemp t).Filled where
  formals := h.formals
  slots := by
    have hslots := h.slots
    simp only [accesses, List.filter_append] at hslots
    simp [accesses, Frame.withTemp, Access.isSlot, hslots]
  count := h.count

theorem Filled.withSlot (h : f.Filled) : f.withSlot.Filled where
  formals := h.formals
  slots := by
    have hslots := h.slots
    have hnext : List.range' 1 f.slots = List.range' 1 (f.slots - 1) ++ [f.slots] := by
      have hcount := h.count
      rw [show f.slots = f.slots - 1 + 1 by omega, List.range'_1_concat, Nat.add_sub_cancel, Nat.add_comm 1]
    simp only [accesses, List.filter_append] at hslots
    simp only [accesses, Frame.withSlot, List.filter_append, ← List.append_assoc, hslots, Nat.add_sub_cancel, hnext,
      List.map_append]
    rfl
  count := Nat.lt_succ_of_lt h.count

theorem offsets_slots {n : Nat} (h : n < 2 ^ 29) :
    ((List.range' 1 n).map slot).map Access.offset? = (List.range' 1 n).map fun k : Nat => some (4 * (k : Int)) := by
  rw [List.map_map]
  apply List.map_congr_left
  intro k hk
  have hlt := (List.mem_range'_1.1 hk).2
  exact offset?_slot (by omega)

theorem Filled.offsets (h : f.Filled) (hfew : f.slots < 2 ^ 29) :
    f.accesses.filterMap Access.offset? = (List.range' 1 (f.slots - 1)).map fun k : Nat => 4 * (k : Int) := by
  have hoffsets := offsets_slots (show f.slots - 1 < 2 ^ 29 by omega)
  rw [← h.slots] at hoffsets
  rw [Access.filterMap_offset?]
  simpa [List.filterMap_map, Function.comp_def] using congrArg (List.filterMap id) hoffsets

theorem Filled.offsets_formals (h : f.Filled) (hfew : f.slots < 2 ^ 29) :
    f.formals.map Access.offset? = (List.range' 1 f.formals.length).map fun k : Nat => some (4 * (k : Int)) := by
  have hcount := h.count
  rw [← offsets_slots (by omega), ← h.formals]

theorem Filled.nodup_accesses (h : f.Filled) (hfew : f.slots < 2 ^ 29) (htemps : f.temps.Nodup) :
    f.accesses.Nodup ∧ .inFrame 0 ∉ f.accesses := by
  have hoffsets := h.offsets hfew
  constructor
  · apply Access.nodup_of_parts
    · rw [hoffsets]
      exact List.Nodup.map (fun a b hab => by simpa using hab) List.nodup_range'
    · exact (List.nodup_cons.1 (List.nodup_cons.1 htemps).2).2
  · intro hzero
    have hmem : (0 : Int) ∈ f.accesses.filterMap Access.offset? := List.mem_filterMap.2 ⟨_, hzero, rfl⟩
    rw [hoffsets] at hmem
    simp at hmem

end Frame

/-! ## Calls -/

/-- Frames that draw from one supply, in the order in which they were created. -/
structure Frames where
  supply : Supply
  frames : List Frame := []

namespace Frames

inductive Call where
  /-- There is a flag for each formal that says whether it escapes. -/
  | create (name : Label) (formals : List Bool)
  /-- The frame goes by its number. -/
  | alloc (frame : Nat) (escapes : Bool)

/-- A call for a local is answered with the number of the frame and the access. -/
def call (s : Frames) : Call → Option (Nat × Access) × Frames
  | .create name formals =>
    let (f, supply) := (Frame.create name formals.length).run s.supply
    (none, { supply, frames := s.frames ++ [f] })
  | .alloc i escapes =>
    match s.frames[i]? with
    | none => (none, s)
    | some f =>
      let ((a, f), supply) := (f.alloc escapes).run s.supply
      (some (i, a), { supply, frames := s.frames.set i f })

def after (s : Frames) (calls : List Call) : Frames := calls.foldl (fun s c => (s.call c).2) s

/-- What calls for locals are answered, one after the other. -/
def allocated (s : Frames) : List Call → List (Nat × Access)
  | [] => []
  | c :: rest => (s.call c).1.toList ++ (s.call c).2.allocated rest

def Call.created? : Call → Option (Label × Nat)
  | .create name formals => some (name, formals.length)
  | .alloc .. => none

@[simp] theorem after_nil (s : Frames) : s.after [] = s := rfl

@[simp] theorem after_cons (s : Frames) (c : Call) (rest : List Call) :
    s.after (c :: rest) = (s.call c).2.after rest := rfl

variable {s s' : Frames} {c : Call}

def next (s : Frames) : Nat := s.supply.temps.next

def supplyAfter (s : Frames) (n : Nat) : Supply := { s.supply with temps := ⟨s.next + n⟩ }

/-- All that a call can do. -/
inductive Responds (s : Frames) : Call → Option (Nat × Access) → Frames → Prop
  | created {name formals} : Responds s (.create name formals) none
      ⟨s.supplyAfter 2, s.frames ++ [.fresh name formals.length ⟨s.next⟩ ⟨s.next + 1⟩]⟩
  | slot {i f} : s.frames[i]? = some f → Responds s (.alloc i true) (some (i, Frame.slot f.slots))
      ⟨s.supply, s.frames.set i f.withSlot⟩
  | temp {i f} : s.frames[i]? = some f → Responds s (.alloc i false) (some (i, .inReg ⟨s.next⟩))
      ⟨s.supplyAfter 1, s.frames.set i (f.withTemp ⟨s.next⟩)⟩
  | unknown {i escapes} : s.frames[i]? = none → Responds s (.alloc i escapes) none s

theorem responds_call (s : Frames) (c : Call) : Responds s c (s.call c).1 (s.call c).2 := by
  cases c with
  | create name formals => exact .created
  | alloc i escapes =>
    cases hf : s.frames[i]? with
    | none =>
      have hcall : s.call (.alloc i escapes) = (none, s) := by simp only [call, hf]
      rw [hcall]
      exact .unknown hf
    | some f =>
      have hcall : s.call (.alloc i escapes) = (some (i, ((f.alloc escapes).run s.supply).1.1),
          ⟨((f.alloc escapes).run s.supply).2, s.frames.set i ((f.alloc escapes).run s.supply).1.2⟩) := by
        simp only [call, hf]
        rfl
      rw [hcall]
      cases escapes with
      | true => exact .slot hf
      | false => exact .temp hf

/-! ## Storage never repeats -/

def temps (s : Frames) : List Temp := s.frames.flatMap Frame.temps

/-- Each frame has its own slots, and every temp was drawn once. -/
structure Apart (s : Frames) : Prop where
  filled : ∀ f ∈ s.frames, f.Filled
  drawn : ∀ t ∈ s.temps, t.index < s.next
  nodup : s.temps.Nodup

theorem flatMap_set_perm {l : List Frame} {i : Nat} {f f' : Frame} {more : List Temp} (hf : l[i]? = some f)
    (hmore : f'.temps = f.temps ++ more) : ((l.set i f').flatMap Frame.temps).Perm (l.flatMap Frame.temps ++ more) := by
  induction l generalizing i with
  | nil => simp at hf
  | cons g rest ih =>
    cases i with
    | zero =>
      obtain rfl : g = f := by simpa using hf
      rw [List.set_cons_zero, List.flatMap_cons, List.flatMap_cons, hmore, List.append_assoc, List.append_assoc]
      exact List.perm_append_comm.append_left _
    | succ i =>
      rw [List.set_cons_succ, List.flatMap_cons, List.flatMap_cons, List.append_assoc]
      exact (ih (by simpa using hf)).append_left _

theorem Apart.grow (h : s.Apart) (more : List Temp) (hfilled : ∀ f ∈ s'.frames, f.Filled)
    (htemps : s'.temps.Perm (s.temps ++ more)) (hmore : more.Nodup) (hnext : s.next ≤ s'.next)
    (hdrawn : ∀ t ∈ more, s.next ≤ t.index ∧ t.index < s'.next) : s'.Apart where
  filled := hfilled
  drawn := by
    intro t ht
    rcases List.mem_append.1 (htemps.mem_iff.1 ht) with hold | hnew
    · exact (h.drawn t hold).trans_le hnext
    · exact (hdrawn t hnew).2
  nodup := by
    rw [htemps.nodup_iff, List.nodup_append]
    refine ⟨h.nodup, hmore, ?_⟩
    rintro t hold _ hnew rfl
    have := h.drawn t hold
    have := hdrawn t hnew
    omega

theorem Apart.call (h : s.Apart) (c : Call) : (s.call c).2.Apart := by
  have hstep := s.responds_call c
  generalize (s.call c).1 = a, (s.call c).2 = s' at hstep
  cases hstep with
  | @created name formals =>
    apply h.grow [⟨s.next⟩, ⟨s.next + 1⟩]
    · rw [List.forall_mem_append, List.forall_mem_singleton]
      exact ⟨h.filled, Frame.filled_fresh _ _ _ _⟩
    · simp [temps, Frame.temps_fresh]
    · simp
    · simp [next, supplyAfter]
    · simp [next, supplyAfter]
  | @slot i f hf =>
    apply h.grow []
    · intro g hg
      rcases List.mem_or_eq_of_mem_set hg with hold | rfl
      · exact h.filled g hold
      · exact (h.filled f (List.mem_of_getElem? hf)).withSlot
    · exact flatMap_set_perm hf (by rw [Frame.temps_withSlot, List.append_nil])
    · exact List.nodup_nil
    · exact le_rfl
    · simp
  | @temp i f hf =>
    apply h.grow [⟨s.next⟩]
    · intro g hg
      rcases List.mem_or_eq_of_mem_set hg with hold | rfl
      · exact h.filled g hold
      · exact (h.filled f (List.mem_of_getElem? hf)).withTemp _
    · exact flatMap_set_perm hf (Frame.temps_withTemp f _)
    · exact List.nodup_singleton _
    · simp [next, supplyAfter]
    · simp [next, supplyAfter]
  | unknown => exact h

theorem Apart.after (h : s.Apart) (calls : List Call) : (s.after calls).Apart := by
  induction calls generalizing s with
  | nil => exact h
  | cons c rest ih => exact ih (h.call c)

/-! ## Locals in the order of allocation -/

def localsOf (s : Frames) (i : Nat) : List Access := (s.frames[i]?.map Frame.locals).getD []

/-- The frames are those of `created`, and their locals are those of `log`. -/
structure Lists (s : Frames) (created : List (Label × Nat)) (log : List (Nat × Access)) : Prop where
  created : s.frames.map (fun f => (f.name, f.formals.length)) = created
  locals : ∀ i, s.localsOf i = (log.filter (·.1 = i)).map Prod.snd

variable {created : List (Label × Nat)} {log : List (Nat × Access)}

theorem Lists.alloc {supply : Supply} {i : Nat} {f : Frame} {a : Access} (h : s.Lists created log) (f' : Frame)
    (hf : s.frames[i]? = some f) (hsame : (f'.name, f'.formals.length) = (f.name, f.formals.length))
    (hlocals : f'.locals = f.locals ++ [a]) : Lists ⟨supply, s.frames.set i f'⟩ created (log ++ [(i, a)]) := by
  constructor
  · rw [← h.created, map_set_of_eq hf hsame]
  · intro j
    have hold := h.locals j
    unfold localsOf at hold ⊢
    rw [List.getElem?_set]
    by_cases hij : i = j
    · subst hij
      have hlt := (List.getElem?_eq_some_iff.1 hf).1
      simp only [hf, Option.map_some, Option.getD_some] at hold
      simp [hlt, hlocals, hold]
    · simp [hij, hold]

theorem Lists.create {supply : Supply} (h : s.Lists created log) (name : Label) (n : Nat) (fp rv : Temp) :
    Lists ⟨supply, s.frames ++ [.fresh name n fp rv]⟩ (created ++ [(name, n)]) log := by
  constructor
  · simp [h.created, Frame.fresh]
  · intro i
    rw [← h.locals i]
    unfold localsOf
    rw [List.getElem?_append]
    split
    next => rfl
    next hlong =>
      -- there was no frame at `i`, and the new one has no locals
      have hnone : s.frames[i]? = none := List.getElem?_eq_none (by omega)
      rw [hnone]
      cases hnew : [Frame.fresh name n fp rv][i - s.frames.length]? with
      | none => rfl
      | some f =>
        obtain rfl := List.mem_singleton.1 (List.mem_of_getElem? hnew)
        rfl

theorem Lists.call (h : s.Lists created log) (c : Call) :
    (s.call c).2.Lists (created ++ c.created?.toList) (log ++ (s.call c).1.toList) := by
  have hstep := s.responds_call c
  generalize (s.call c).1 = a, (s.call c).2 = s' at hstep
  cases hstep with
  | created => simpa [Call.created?] using h.create _ _ _ _
  | @slot i f hf => simpa [Call.created?] using h.alloc f.withSlot hf rfl rfl
  | @temp i f hf => simpa [Call.created?] using h.alloc (f.withTemp ⟨s.next⟩) hf rfl rfl
  | unknown => simpa [Call.created?] using h

theorem Lists.after (h : s.Lists created log) (calls : List Call) :
    (s.after calls).Lists (created ++ calls.filterMap Call.created?) (log ++ s.allocated calls) := by
  induction calls generalizing s created log with
  | nil => simpa [allocated] using h
  | cons c rest ih =>
    have hrest := ih (h.call c)
    rw [List.append_assoc, List.append_assoc] at hrest
    rw [allocated, List.filterMap_cons]
    cases hc : c.created? <;> simpa [hc] using hrest

/-! ## All histories -/

theorem isSlot_of_alloc {i : Nat} {f : Frame} (hf : s.frames[i]? = some f) (escapes : Bool) :
    ∃ a, (s.call (.alloc i escapes)).1 = some (i, a) ∧ a.isSlot = escapes := by
  have hstep := s.responds_call (.alloc i escapes)
  generalize (s.call (.alloc i escapes)).1 = answer, (s.call (.alloc i escapes)).2 = s' at hstep
  cases hstep with
  | slot => exact ⟨_, rfl, rfl⟩
  | temp => exact ⟨_, rfl, rfl⟩
  | unknown hnone => simp [hf] at hnone

/-- Frames are created and locals allocated in any order. Within a frame no access stands twice, its slots lie one
after the other behind the receiver's, those of the formals first, and its locals are listed in the order of their
allocation. No temp of a frame is one of another variable, nor the frame pointer or the result of any frame. -/
theorem storage_disjoint (supply : Supply) (calls : List Call) (s : Frames) (hs : s = after { supply } calls)
    (hfew : ∀ f ∈ s.frames, f.slots < 2 ^ 29) :
    s.frames.map (fun f => (f.name, f.formals.length)) = calls.filterMap Call.created? ∧
    (∀ f ∈ s.frames, f.accesses.Nodup ∧
      f.accesses.filterMap Access.offset? = (List.range' 1 (f.slots - 1)).map (fun k : Nat => 4 * (k : Int)) ∧
      f.formals.map Access.offset? = (List.range' 1 f.formals.length).map (fun k : Nat => some (4 * (k : Int))) ∧
      .inFrame 0 ∉ f.accesses) ∧
    (∀ i f, s.frames[i]? = some f →
      f.locals = ((allocated { supply } calls).filter (·.1 = i)).map Prod.snd ∧
      ∀ escapes, ∃ a, (s.call (.alloc i escapes)).1 = some (i, a) ∧ a.isSlot = escapes) ∧
    s.temps.Nodup := by
  have hstart : Apart { supply } := ⟨by simp, by simp [temps], by simp [temps]⟩
  have hnone : Lists { supply } [] [] := ⟨rfl, by simp [localsOf]⟩
  have hapart : s.Apart := hs ▸ hstart.after calls
  have hlists : s.Lists (calls.filterMap Call.created?) (allocated { supply } calls) := by
    rw [hs]
    simpa using hnone.after calls
  refine ⟨hlists.created, fun f hf => ?_, fun i f hf => ⟨?_, isSlot_of_alloc hf⟩, hapart.nodup⟩
  · have hfilled := hapart.filled f hf
    have htemps : f.temps.Nodup := (List.nodup_flatMap.1 hapart.nodup).1 f hf
    obtain ⟨hnodup, hzero⟩ := hfilled.nodup_accesses (hfew f hf) htemps
    exact ⟨hnodup, hfilled.offsets (hfew f hf), hfilled.offsets_formals (hfew f hf), hzero⟩
  · rw [← hlists.locals i, localsOf, hf]
    rfl

def takingTurns : List Call :=
  [.create ⟨"A$run"⟩ [false, true], .alloc 0 false, .create ⟨"B$run"⟩ [], .alloc 1 true, .alloc 0 true, .alloc 1 false]

theorem storage_disjoint_takingTurns :
    (∀ f ∈ (after { supply := {} } takingTurns).frames, f.slots < 2 ^ 29) ∧
    (after { supply := {} } takingTurns).frames.map Frame.accesses =
      [[.inFrame 4, .inFrame 8, .inReg ⟨2⟩, .inFrame 12], [.inFrame 4, .inReg ⟨5⟩]] ∧
    (after { supply := {} } takingTurns).temps.Nodup := by
  have hfew : ∀ f ∈ (after { supply := {} } takingTurns).frames, f.slots < 2 ^ 29 := by decide
  obtain ⟨-, -, -, hnodup⟩ := storage_disjoint {} takingTurns _ rfl hfew
  exact ⟨hfew, by decide, hnodup⟩

end Frames

end Lowering
