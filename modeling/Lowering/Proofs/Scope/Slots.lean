import Mathlib
import Lowering.Source.Program
import Lowering.Table.Method

/-!
# Slots of a procedure

The declarations of a procedure, numbered in the order in which a walk over its source meets them,
each with the number of its block. The walk needs no table, and both the declaration pass and
lowering are measured against it.
-/

namespace Lowering

open Lowering.Source (Site VarDecl Stmt)

/-- A declaration with its number and its block. -/
structure Slot where
  name : String
  site : Site
  index : Nat
  block : Option Block
  deriving DecidableEq

def Variable.slot (v : Variable) : Slot := ⟨v.name, v.site, v.index, v.block⟩

/-! ## The walk -/

/-- Declarations of one block, numbered from `first`. -/
def slotsOf (block : Option Block) : (first : Nat) → List VarDecl → List Slot
  | _, [] => []
  | first, d :: rest => ⟨d.name.val, d.name.site, first, block⟩ :: slotsOf block (first + 1) rest

namespace Source

mutual
/-- The number of blocks that a statement opens. -/
def Stmt.blockCount : Stmt → Nat
  | .block _ _ body => Stmt.blockCountAll body + 1
  | .ifThen _ _ body | .while _ _ body => body.blockCount
  | .ifElse _ _ body otherwise => body.blockCount + otherwise.blockCount
  | .println .. | .assign .. | .assignAt .. => 0

def Stmt.blockCountAll : List Stmt → Nat
  | [] => 0
  | s :: rest => s.blockCount + Stmt.blockCountAll rest
end

mutual
/-- The locals that a statement declares, in order. -/
def Stmt.declarations : Stmt → List VarDecl
  | .block _ locals body => locals ++ Stmt.declarationsAll body
  | .ifThen _ _ body | .while _ _ body => body.declarations
  | .ifElse _ _ body otherwise => body.declarations ++ otherwise.declarations
  | .println .. | .assign .. | .assignAt .. => []

def Stmt.declarationsAll : List Stmt → List VarDecl
  | [] => []
  | s :: rest => s.declarations ++ Stmt.declarationsAll rest
end

mutual
/-- The slots of a statement, with blocks numbered from `k` and declarations from `i`. -/
def Stmt.slots : Stmt → (k i : Nat) → List Slot
  | .block _ locals body, k, i =>
    slotsOf (some ⟨k⟩) i locals ++ Stmt.slotsAll body (k + 1) (i + locals.length)
  | .ifThen _ _ body, k, i | .while _ _ body, k, i => body.slots k i
  | .ifElse _ _ body otherwise, k, i =>
    body.slots k i ++ otherwise.slots (k + body.blockCount) (i + body.declarations.length)
  | .println .., _, _ | .assign .., _, _ | .assignAt .., _, _ => []

def Stmt.slotsAll : List Stmt → (k i : Nat) → List Slot
  | [], _, _ => []
  | s :: rest, k, i => s.slots k i ++ Stmt.slotsAll rest (k + s.blockCount) (i + s.declarations.length)
end

end Source

/-! ## What the walk gives -/

@[simp] theorem length_slotsOf (b : Option Block) (first : Nat) (ds : List VarDecl) :
    (slotsOf b first ds).length = ds.length := by
  induction ds generalizing first with
  | nil => rfl
  | cons d rest ih => simp [slotsOf, ih]

theorem map_name_slotsOf (b : Option Block) (first : Nat) (ds : List VarDecl) :
    (slotsOf b first ds).map Slot.name = ds.map (·.name.val) := by
  induction ds generalizing first with
  | nil => rfl
  | cons d rest ih => simp [slotsOf, ih]

theorem map_index_slotsOf (b : Option Block) (first : Nat) (ds : List VarDecl) :
    (slotsOf b first ds).map Slot.index = List.range' first ds.length := by
  induction ds generalizing first with
  | nil => rfl
  | cons d rest ih => simp [slotsOf, ih, List.range'_succ]

theorem slotsOf_append (b : Option Block) (first : Nat) (xs ys : List VarDecl) :
    slotsOf b first (xs ++ ys) = slotsOf b first xs ++ slotsOf b (first + xs.length) ys := by
  induction xs generalizing first with
  | nil => rfl
  | cons d rest ih => simp [slotsOf, ih, Nat.add_assoc, Nat.add_comm 1]

theorem block_of_mem_slotsOf {b : Option Block} {first : Nat} {ds : List VarDecl} {s : Slot}
    (h : s ∈ slotsOf b first ds) : s.block = b := by
  induction ds generalizing first with
  | nil => simp [slotsOf] at h
  | cons d rest ih =>
    rcases List.mem_cons.1 h with rfl | h
    · rfl
    · exact ih h

/-- The slot without its block. -/
def Slot.anywhere (s : Slot) : Slot := { s with block := none }

theorem map_anywhere_slotsOf (b : Option Block) (first : Nat) (ds : List VarDecl) :
    (slotsOf b first ds).map Slot.anywhere = slotsOf none first ds := by
  induction ds generalizing first with
  | nil => rfl
  | cons d rest ih => simp [slotsOf, ih, Slot.anywhere]

mutual
theorem Source.Stmt.map_anywhere_slots (st : Stmt) (k i : Nat) :
    (st.slots k i).map Slot.anywhere = slotsOf none i st.declarations := by
  cases st with
  | block _ locals body =>
    simp only [Stmt.slots, Stmt.declarations, List.map_append, map_anywhere_slotsOf, slotsOf_append,
      Stmt.map_anywhere_slotsAll body]
  | ifThen _ _ body => exact body.map_anywhere_slots k i
  | «while» _ _ body => exact body.map_anywhere_slots k i
  | ifElse _ _ body otherwise =>
    simp only [Stmt.slots, Stmt.declarations, List.map_append, slotsOf_append, body.map_anywhere_slots,
      otherwise.map_anywhere_slots]
  | println _ _ | assign _ _ _ | assignAt _ _ _ _ => rfl

theorem Source.Stmt.map_anywhere_slotsAll (stmts : List Stmt) (k i : Nat) :
    (Stmt.slotsAll stmts k i).map Slot.anywhere = slotsOf none i (Stmt.declarationsAll stmts) := by
  cases stmts with
  | nil => rfl
  | cons s rest =>
    simp only [Stmt.slotsAll, Stmt.declarationsAll, List.map_append, slotsOf_append, s.map_anywhere_slots,
      Stmt.map_anywhere_slotsAll rest]
end

theorem Source.Stmt.length_slots (st : Stmt) (k i : Nat) :
    (st.slots k i).length = st.declarations.length := by
  have h := congrArg List.length (st.map_anywhere_slots k i)
  simpa using h

/-- The block of the slot has a number from `k` up to `k'`. -/
def Slot.InBlocks (k k' : Nat) (s : Slot) : Prop := ∃ b, s.block = some ⟨b⟩ ∧ k ≤ b ∧ b < k'

mutual
theorem Source.Stmt.inBlocks_slots (st : Stmt) {k i : Nat} {s : Slot} (h : s ∈ st.slots k i) :
    s.InBlocks k (k + st.blockCount) := by
  cases st with
  | block _ locals body =>
    rcases List.mem_append.1 h with h | h
    · exact ⟨k, block_of_mem_slotsOf h, le_rfl, by simp [Stmt.blockCount]⟩
    · obtain ⟨b, hb, hlo, hhi⟩ := Stmt.inBlocks_slotsAll body h
      exact ⟨b, hb, by omega, by simp only [Stmt.blockCount]; omega⟩
  | ifThen _ _ body => exact body.inBlocks_slots h
  | «while» _ _ body => exact body.inBlocks_slots h
  | ifElse _ _ body otherwise =>
    simp only [Stmt.blockCount]
    rcases List.mem_append.1 h with h | h
    · obtain ⟨b, hb, hlo, hhi⟩ := body.inBlocks_slots h
      exact ⟨b, hb, by omega, by omega⟩
    · obtain ⟨b, hb, hlo, hhi⟩ := otherwise.inBlocks_slots h
      exact ⟨b, hb, by omega, by omega⟩
  | println _ _ | assign _ _ _ | assignAt _ _ _ _ => simp [Stmt.slots] at h

theorem Source.Stmt.inBlocks_slotsAll (stmts : List Stmt) {k i : Nat} {s : Slot}
    (h : s ∈ Stmt.slotsAll stmts k i) : s.InBlocks k (k + Stmt.blockCountAll stmts) := by
  cases stmts with
  | nil => simp [Stmt.slotsAll] at h
  | cons st rest =>
    simp only [Stmt.blockCountAll]
    rcases List.mem_append.1 h with h | h
    · obtain ⟨b, hb, hlo, hhi⟩ := st.inBlocks_slots h
      exact ⟨b, hb, by omega, by omega⟩
    · obtain ⟨b, hb, hlo, hhi⟩ := Stmt.inBlocks_slotsAll rest h
      exact ⟨b, hb, by omega, by omega⟩
end

/-! ## Lookup -/

def Slot.key (s : Slot) : String × Option Block := (s.name, s.block)

/-- The first slot of a name in a block. -/
def findSlot (slots : List Slot) (x : String) (b : Block) : Option Slot :=
  slots.find? fun s => s.name == x && s.block == some b

theorem findSlot_append (xs ys : List Slot) (x : String) (b : Block) :
    findSlot (xs ++ ys) x b = (findSlot xs x b).or (findSlot ys x b) := List.find?_append

theorem findSlot_eq_none {slots : List Slot} {x : String} {b : Block}
    (h : ∀ s ∈ slots, s.block ≠ some b) : findSlot slots x b = none := by
  refine List.find?_eq_none.2 fun s hs => ?_
  simp [h s hs]

theorem findSlot_eq_some {slots : List Slot} {x : String} {b : Block} {s : Slot}
    (hkeys : (slots.map Slot.key).Nodup) :
    findSlot slots x b = some s ↔ s ∈ slots ∧ s.name = x ∧ s.block = some b := by
  induction slots with
  | nil => simp [findSlot]
  | cons first rest ih =>
    obtain ⟨hfirst, hrest⟩ := List.nodup_cons.1 hkeys
    have hother : first.name = x → first.block = some b → ∀ s ∈ rest, s.name = x → s.block ≠ some b := by
      rintro hx hb s hs hsx hsb
      exact hfirst (List.mem_map.2 ⟨s, hs, by simp [Slot.key, hx, hb, hsx, hsb]⟩)
    have ih := ih hrest
    unfold findSlot at ih ⊢
    rw [List.find?_cons]
    split <;> grind

theorem findSlot_perm {slots slots' : List Slot} (hperm : slots.Perm slots')
    (hkeys : (slots.map Slot.key).Nodup) (x : String) (b : Block) :
    findSlot slots x b = findSlot slots' x b := by
  have hkeys' : (slots'.map Slot.key).Nodup := (hperm.map _).nodup_iff.1 hkeys
  refine Option.ext fun s => ?_
  rw [findSlot_eq_some hkeys, findSlot_eq_some hkeys', hperm.mem_iff]

/-- The names that a block declares with their numbers. -/
def numbered : (first : Nat) → List VarDecl → List (String × Nat)
  | _, [] => []
  | first, d :: rest => (d.name.val, first) :: numbered (first + 1) rest

theorem map_fst_numbered (first : Nat) (ds : List VarDecl) :
    (numbered first ds).map Prod.fst = ds.map (·.name.val) := by
  induction ds generalizing first with
  | nil => rfl
  | cons d rest ih => simp [numbered, ih]

theorem lookup_numbered {first : Nat} {ds : List VarDecl} {y : String × Nat}
    (hnames : (ds.map (·.name.val)).Nodup) (h : y ∈ numbered first ds) :
    (numbered first ds).lookup y.1 = some y.2 := by
  induction ds generalizing first with
  | nil => simp [numbered] at h
  | cons d rest ih =>
    rw [List.map_cons, List.nodup_cons] at hnames
    rcases List.mem_cons.1 h with rfl | h
    · simp [numbered]
    · have hname : y.1 ∈ rest.map (·.name.val) := map_fst_numbered (first + 1) rest ▸ List.mem_map_of_mem h
      have hother : (y.1 == d.name.val) = false := beq_eq_false_iff_ne.2 fun heq => hnames.1 (heq ▸ hname)
      rw [numbered, List.lookup_cons, hother]
      exact ih hnames.2 h

theorem find?_slotsOf {block : Option Block} {p : Slot → Bool} {x : String}
    (hp : ∀ s : Slot, s.block = block → p s = (s.name == x)) (first : Nat) (ds : List VarDecl) :
    ((slotsOf block first ds).find? p).map Slot.index = (numbered first ds).lookup x := by
  induction ds generalizing first with
  | nil => rfl
  | cons d rest ih =>
    by_cases hx : d.name.val = x
    · simp [slotsOf, numbered, hp, hx]
    · have hx' : (x == d.name.val) = false := by simpa using fun h => hx h.symm
      simp [slotsOf, numbered, List.lookup_cons, hp, hx, hx', ih]

theorem findSlot_slotsOf (b : Block) (first : Nat) (ds : List VarDecl) (x : String) :
    (findSlot (slotsOf (some b) first ds) x b).map Slot.index = (numbered first ds).lookup x :=
  find?_slotsOf (fun s hs => by simp [hs]) first ds

/-- In the block `b` these names are found, with numbers from `i`, and no others. -/
structure BlockFound (slots : List Slot) (b : Block) (i : Nat) (ds : List VarDecl) : Prop where
  names : (ds.map (·.name.val)).Nodup
  lookup : ∀ x, (findSlot slots x b).map Slot.index = (numbered i ds).lookup x

namespace Source

mutual
/-- Every block of the statement is found, with blocks numbered from `k` and slots from `i`. -/
def Stmt.Found (slots : List Slot) : Stmt → (k i : Nat) → Prop
  | .block _ locals body, k, i =>
    BlockFound slots ⟨k⟩ i locals ∧ Stmt.FoundAll slots body (k + 1) (i + locals.length)
  | .ifThen _ _ body, k, i | .while _ _ body, k, i => body.Found slots k i
  | .ifElse _ _ body otherwise, k, i =>
    body.Found slots k i ∧ otherwise.Found slots (k + body.blockCount) (i + body.declarations.length)
  | .println .., _, _ | .assign .., _, _ | .assignAt .., _, _ => True

def Stmt.FoundAll (slots : List Slot) : List Stmt → (k i : Nat) → Prop
  | [], _, _ => True
  | s :: rest, k, i =>
    s.Found slots k i ∧ Stmt.FoundAll slots rest (k + s.blockCount) (i + s.declarations.length)
end

end Source

/-! ## Slots in their place -/

/-- Among the slots are those in `mid`, of blocks from `k` up to `k'`, and all others are of earlier or of
later blocks. -/
structure Around (slots pre mid post : List Slot) (k k' : Nat) : Prop where
  perm : slots.Perm (pre ++ (mid ++ post))
  before : ∀ s ∈ pre, s.InBlocks 0 k
  after : ∀ s ∈ post, ∃ last, s.InBlocks k' last

theorem Around.split {slots pre a b post : List Slot} {k k' k'' : Nat}
    (h : Around slots pre (a ++ b) post k k'') (ha : ∀ s ∈ a, s.InBlocks k k')
    (hb : ∀ s ∈ b, s.InBlocks k' k'') (hk : k ≤ k') (hk' : k' ≤ k'') :
    Around slots pre a (b ++ post) k k' ∧ Around slots (pre ++ a) b post k' k'' := by
  refine ⟨⟨by simpa using h.perm, h.before, fun s hs => ?_⟩, ⟨by simpa using h.perm, fun s hs => ?_, h.after⟩⟩
  · rcases List.mem_append.1 hs with hs | hs
    · exact ⟨k'', hb s hs⟩
    · obtain ⟨last, b, hblock, hlo, hhi⟩ := h.after s hs
      exact ⟨last, b, hblock, hk'.trans hlo, hhi⟩
  · rcases List.mem_append.1 hs with hs | hs
    · obtain ⟨b, hblock, hlo, hhi⟩ := h.before s hs
      exact ⟨b, hblock, hlo, hhi.trans_le hk⟩
    · obtain ⟨b, hblock, hlo, hhi⟩ := ha s hs
      exact ⟨b, hblock, Nat.zero_le _, hhi⟩

theorem inBlocks_slotsOf {k i : Nat} {ds : List VarDecl} {s : Slot} (h : s ∈ slotsOf (some ⟨k⟩) i ds) :
    s.InBlocks k (k + 1) := ⟨k, block_of_mem_slotsOf h, le_rfl, Nat.lt_succ_self k⟩

theorem Around.names {slots pre post : List Slot} {k i : Nat} {ds : List VarDecl}
    (h : Around slots pre (slotsOf (some ⟨k⟩) i ds) post k (k + 1))
    (hkeys : (slots.map Slot.key).Nodup) : (ds.map (·.name.val)).Nodup := by
  have hnodup : ((slotsOf (some ⟨k⟩) i ds).map Slot.key).Nodup := by
    refine ((h.perm.map _).nodup_iff.1 hkeys).sublist (.map _ ?_)
    exact (List.sublist_append_left _ _).trans (List.sublist_append_right _ _)
  rw [← map_name_slotsOf (some ⟨k⟩) i ds]
  refine (List.nodup_map_iff_inj_on hnodup.of_map).2 fun s hs s' hs' hname => ?_
  have hkey : s.key = s'.key := by
    rw [Slot.key, Slot.key, hname, block_of_mem_slotsOf hs, block_of_mem_slotsOf hs']
  exact List.inj_on_of_nodup_map hnodup hs hs' hkey

theorem Around.blockFound {slots pre post : List Slot} {k i : Nat} {ds : List VarDecl}
    (h : Around slots pre (slotsOf (some ⟨k⟩) i ds) post k (k + 1))
    (hkeys : (slots.map Slot.key).Nodup) : BlockFound slots ⟨k⟩ i ds := by
  have hpre : ∀ s ∈ pre, s.block ≠ some ⟨k⟩ := by
    intro s hs hb
    obtain ⟨b, hb', -, hlt⟩ := h.before s hs
    cases hb'.symm.trans hb
    omega
  have hpost : ∀ s ∈ post, s.block ≠ some ⟨k⟩ := by
    intro s hs hb
    obtain ⟨_, b, hb', hlt, -⟩ := h.after s hs
    cases hb'.symm.trans hb
    omega
  refine ⟨h.names hkeys, fun x => ?_⟩
  rw [findSlot_perm h.perm hkeys, findSlot_append, findSlot_append, findSlot_eq_none hpre, findSlot_eq_none hpost,
    Option.none_or, Option.or_none, findSlot_slotsOf]

mutual
theorem Source.Stmt.found_of_around (st : Stmt) {slots pre post : List Slot} {k i : Nat}
    (hkeys : (slots.map Slot.key).Nodup)
    (h : Around slots pre (st.slots k i) post k (k + st.blockCount)) : st.Found slots k i := by
  cases st with
  | block site locals body =>
    have hcount : k + (Stmt.block site locals body).blockCount = k + 1 + Stmt.blockCountAll body := by
      simp only [Stmt.blockCount]
      omega
    rw [Stmt.slots, hcount] at h
    obtain ⟨hlocals, hbody⟩ := h.split (fun _ => inBlocks_slotsOf) (fun _ => Stmt.inBlocks_slotsAll body)
      (by omega) (by omega)
    exact ⟨hlocals.blockFound hkeys, Stmt.found_of_aroundAll body hkeys hbody⟩
  | ifThen site cond body => exact body.found_of_around hkeys h
  | «while» site cond body => exact body.found_of_around hkeys h
  | ifElse site cond body otherwise =>
    rw [Stmt.slots, Stmt.blockCount, ← Nat.add_assoc] at h
    obtain ⟨hbody, hotherwise⟩ := h.split (fun _ => body.inBlocks_slots)
      (fun _ => otherwise.inBlocks_slots) (by omega) (by omega)
    exact ⟨body.found_of_around hkeys hbody, otherwise.found_of_around hkeys hotherwise⟩
  | println _ _ | assign _ _ _ | assignAt _ _ _ _ => trivial

theorem Source.Stmt.found_of_aroundAll (stmts : List Stmt) {slots pre post : List Slot} {k i : Nat}
    (hkeys : (slots.map Slot.key).Nodup)
    (h : Around slots pre (Stmt.slotsAll stmts k i) post k (k + Stmt.blockCountAll stmts)) :
    Stmt.FoundAll slots stmts k i := by
  cases stmts with
  | nil => trivial
  | cons st rest =>
    rw [Stmt.slotsAll, Stmt.blockCountAll, ← Nat.add_assoc] at h
    obtain ⟨hfirst, hrest⟩ := h.split (fun _ => st.inBlocks_slots)
      (fun _ => Stmt.inBlocks_slotsAll rest) (by omega) (by omega)
    exact ⟨st.found_of_around hkeys hfirst, Stmt.found_of_aroundAll rest hkeys hrest⟩
end

end Lowering
