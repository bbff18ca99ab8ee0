import Lowering.Proofs.Lowered.Statement
import Lowering.Proofs.Scope.Code
import Lowering.Proofs.Scope.Declared

/-!
# Storage of variables

Lowering enters and leaves the blocks in the order of the walk over the source. So it meets each
declaration when its number is the next one, binds the variable with this number, and a name
resolves to the variable that the scopes around it say.
-/

namespace Lowering

open Lowering.Tree (Temp Label Stm nextTemp)
open Lowering.Source (VarDecl Stmt)
open Supply (Before labelsBetween)

variable {L P : List Slot} {w w' w'' : Work} {f : Frame} {scopes : Scopes}

/-! ## Names and numbers -/

/-- The open blocks of a method are the scopes around a place, with the formals around them. -/
inductive InScope (L P : List Slot) : List Block → Scopes → Prop
  | formals {outer} : (∀ x, (P.find? (·.name == x)).map Slot.index = outer.lookup x) → InScope L P [] [outer]
  | block {b blocks scope scopes} :
    (∀ x, (findSlot L x b).map Slot.index = scope.lookup x) → InScope L P blocks scopes →
      InScope L P (b :: blocks) (scope :: scopes)

theorem Method.slot_localIn? (m : Method) (x : String) (b : Block) :
    (m.localIn? x b).map Variable.slot = findSlot (m.locals.map Variable.slot) x b := by
  simp only [Method.localIn?, Method.namesakes, findSlot, List.find?_filter, List.find?_map]
  congr 2
  funext v
  simp only [Function.comp_apply, Variable.slot, Bool.decide_and, Bool.decide_eq_true]

theorem Method.index_localIn? (m : Method) (x : String) (b : Block) :
    (m.localIn? x b).map Variable.index = (findSlot (m.locals.map Variable.slot) x b).map Slot.index := by
  rw [← m.slot_localIn? x b, Option.map_map]
  rfl

theorem Method.index_parameter? (m : Method) (x : String) :
    (m.parameter? x).map Variable.index =
      ((m.parameters.map Variable.slot).find? (·.name == x)).map Slot.index := by
  simp only [Method.parameter?, List.find?_map, Option.map_map]
  rfl

theorem InScope.slot? {blocks : List Block} (h : InScope L P blocks scopes) (m : Method)
    (hlocals : m.locals.map Variable.slot = L) (hparameters : m.parameters.map Variable.slot = P)
    (x : String) :
    ((blocks.findSome? (m.localIn? x)).or (m.parameter? x)).map Variable.index = scopes.slot? x := by
  induction h with
  | formals h =>
    rw [List.findSome?_nil, Option.none_or, m.index_parameter?, hparameters, h x]
    simp [Scopes.slot?]
  | @block b blocks scope scopes h _ ih =>
    have hfirst := m.index_localIn? x b
    rw [hlocals, h x] at hfirst
    rw [List.findSome?_cons, Scopes.slot?, List.findSome?_cons, ← hfirst]
    cases hv : m.localIn? x b with
    | none => exact ih
    | some v => rfl

theorem Method.mem_of_local? {m : Method} {x : String} {v : Variable} (h : m.local? x = some v) :
    v ∈ m.locals := by
  obtain ⟨b, -, hb⟩ := List.exists_of_findSome?_eq_some h
  exact List.mem_of_mem_filter (List.mem_of_find?_eq_some hb)

/-! ## Frames and supplies -/

namespace Frame

/-- All temps of the frame were drawn from the supply, each once. -/
structure Within (f : Frame) (s : Supply) : Prop where
  homes : ∀ a ∈ f.locals, ∃ t : Temp, a = .inReg t ∧ t.index < s.temps.next
  nodup : f.locals.Nodup
  fp : f.fp.index < s.temps.next ∧ .inReg f.fp ∉ f.locals
  rv : f.rv.index < s.temps.next ∧ .inReg f.rv ∉ f.locals
  distinct : f.fp ≠ f.rv

theorem Within.mono {s s' : Supply} (h : f.Within s) (hle : s.temps.next ≤ s'.temps.next) : f.Within s' where
  homes a ha := by
    obtain ⟨t, rfl, hlt⟩ := h.homes a ha
    exact ⟨t, rfl, hlt.trans_le hle⟩
  nodup := h.nodup
  fp := ⟨h.fp.1.trans_le hle, h.fp.2⟩
  rv := ⟨h.rv.1.trans_le hle, h.rv.2⟩
  distinct := h.distinct

/-- The frame is that of the work with homes that are still to be drawn. -/
structure Extends (f : Frame) (w : Work) : Prop where
  same : f = { w.frame with locals := f.locals }
  locals : ∃ later, f.locals = w.frame.locals ++ later ∧
    ∀ a ∈ later, ∃ t : Temp, a = .inReg t ∧ w.supply.temps.next ≤ t.index

theorem Extends.place? (h : f.Extends w) {x : String} {c : Tree.Expr} (hc : w.frame.place? scopes x = some c) :
    f.place? scopes x = some c := by
  obtain ⟨slot, hslot, hhome⟩ := Option.bind_eq_some_iff.1 hc
  obtain ⟨a, ha, rfl⟩ := Option.map_eq_some_iff.1 hhome
  obtain ⟨later, hlater, -⟩ := h.locals
  have hfp : f.fp = w.frame.fp := by rw [h.same]
  have hget : f.locals[slot - 1]? = some a := by
    rw [hlater, List.getElem?_append_left (List.getElem?_eq_some_iff.1 ha).1, ha]
  simp [Frame.place?, hslot, Frame.home?, hget, hfp]

end Frame

/-! ## Settled work -/

/-- Every declaration met so far has its home, and the variable with its number is kept there. -/
structure Settled (L P : List Slot) (w : Work) : Prop where
  locals : w.method.locals.map Variable.slot = L
  parameters : w.method.parameters.map Variable.slot = P
  positive : ∀ s ∈ L, 1 ≤ s.index
  formals : ∀ s ∈ P, 1 ≤ s.index ∧ s.index ≤ w.frame.locals.length
  bound : ∀ v ∈ w.method.locals, v.access = w.frame.locals[v.index - 1]?
  homed : ∀ v ∈ w.method.parameters, v.access = w.frame.locals[v.index - 1]?
  within : w.frame.Within w.supply

namespace Settled

theorem of_same (h : Settled L P w) (hlocals : w'.method.locals = w.method.locals)
    (hparameters : w'.method.parameters = w.method.parameters) (hframe : w'.frame = w.frame)
    (hsupply : w.supply.temps.next ≤ w'.supply.temps.next) : Settled L P w' := by
  refine ⟨by rw [hlocals, h.locals], by rw [hparameters, h.parameters], h.positive, ?_, ?_, ?_, ?_⟩
  · simpa [hframe] using h.formals
  · simpa [hlocals, hframe] using h.bound
  · simpa [hparameters, hframe] using h.homed
  · rw [hframe]
    exact h.within.mono hsupply

theorem placeIn_eq (h : Settled L P w) (hscope : InScope L P w.method.blocks scopes) :
    Lower.placeIn w = w.frame.place? scopes := by
  funext x
  have hslot := hscope.slot? w.method h.locals h.parameters x
  have hlookup : (w.method.local? x).or (w.method.parameter? x) =
      (w.method.blocks.findSome? (w.method.localIn? x)).or (w.method.parameter? x) := rfl
  rw [← hlookup] at hslot
  unfold Lower.placeIn Frame.place?
  rw [← hslot]
  cases hv : (w.method.local? x).or (w.method.parameter? x) with
  | none => rfl
  | some v =>
    have haccess : v.access = w.frame.locals[v.index - 1]? := by
      rcases Option.or_eq_some_iff.1 hv with hv | ⟨-, hv⟩
      · exact h.bound v (Method.mem_of_local? hv)
      · exact h.homed v (List.mem_of_find?_eq_some hv)
    simp [haccess, Frame.home?]

theorem spare (h : Settled L P w) {ls : List Label} (hdraws : Lower.OnlyDraws w w' ls) (hf : f.Extends w')
    {t : Temp} (ht : Lower.DrawnIn w w' t) : f.Spare t := by
  have hframe : w'.frame = w.frame := by rw [hdraws.same]
  obtain ⟨later, hlocals, hlater⟩ := hf.locals
  have hfp : f.fp = w.frame.fp := by rw [hf.same, hframe]
  have hrv : f.rv = w.frame.rv := by rw [hf.same, hframe]
  refine ⟨fun hmem => ?_, ?_, ?_⟩
  · rw [hlocals, hframe] at hmem
    rcases List.mem_append.1 hmem with hmem | hmem
    · obtain ⟨t', heq, hlt⟩ := h.within.homes _ hmem
      cases heq
      exact absurd ht.1 (by omega)
    · obtain ⟨t', heq, hle⟩ := hlater _ hmem
      cases heq
      exact absurd ht.2 (by omega)
  · rintro rfl
    have := h.within.fp.1
    rw [← hfp] at this
    exact absurd ht.1 (by omega)
  · rintro rfl
    have := h.within.rv.1
    rw [← hrv] at this
    exact absurd ht.1 (by omega)

end Settled

/-! ## One piece after the other -/

/-- Lowering a piece enters `blocks` blocks, meets `decls` declarations and draws `labels`. -/
structure Advance (w w' : Work) (blocks decls : Nat) (labels : List Label) : Prop where
  method : w'.method = { w.method with
    parameters := w'.method.parameters, locals := w'.method.locals
    nextBlock := ⟨w.method.nextBlock.next + blocks⟩ }
  frame : ∃ added, w'.frame = { w.frame with locals := w.frame.locals ++ added } ∧ added.length = decls ∧
    ∀ a ∈ added, ∃ t : Temp, a = .inReg t ∧ w.supply.temps.next ≤ t.index
  before : Before w.supply w'.supply
  labels : labels.Perm (labelsBetween w.supply w'.supply)

namespace Advance

variable {j k m n : Nat} {a b : List Label}

theorem trans (h : Advance w w' j m a) (h' : Advance w' w'' k n b) : Advance w w'' (j + k) (m + n) (a ++ b) := by
  obtain ⟨added, hframe, hcount, hnew⟩ := h.frame
  obtain ⟨added', hframe', hcount', hnew'⟩ := h'.frame
  refine ⟨?_, ⟨added ++ added', ?_, by simp [hcount, hcount'], fun a ha => ?_⟩, h.before.trans h'.before, ?_⟩
  · rw [h'.method, h.method]
    simp [Nat.add_assoc]
  · rw [hframe', hframe]
    simp
  · rcases List.mem_append.1 ha with ha | ha
    · exact hnew a ha
    · obtain ⟨t, rfl, hle⟩ := hnew' a ha
      exact ⟨t, rfl, h.before.1.trans hle⟩
  · rw [Supply.labelsBetween_trans h.before h'.before]
    exact h.labels.append h'.labels

theorem blocks_eq (h : Advance w w' j m a) : w'.method.blocks = w.method.blocks := by rw [h.method]

theorem next_eq (h : Advance w w' j m a) : w'.method.nextBlock.next = w.method.nextBlock.next + j := by
  rw [h.method]

theorem length_eq (h : Advance w w' j m a) :
    w'.frame.locals.length + 1 = w.frame.locals.length + 1 + m := by
  obtain ⟨added, hframe, rfl, -⟩ := h.frame
  rw [hframe, List.length_append]
  omega

theorem extends_of (h : Advance w w' j m a) (hf : f.Extends w') : f.Extends w := by
  obtain ⟨added, hframe, -, hnew⟩ := h.frame
  obtain ⟨later, hlocals, hlater⟩ := hf.locals
  refine ⟨by rw [hf.same, hframe], added ++ later, by simp [hlocals, hframe], fun a ha => ?_⟩
  rcases List.mem_append.1 ha with ha | ha
  · exact hnew a ha
  · obtain ⟨t, rfl, hle⟩ := hlater a ha
    exact ⟨t, rfl, h.before.1.trans hle⟩

end Advance

theorem Lower.OnlyDraws.advance {ls : List Label} (h : Lower.OnlyDraws w w' ls) : Advance w w' 0 0 ls := by
  have hframe : w'.frame = w.frame := by rw [h.same]
  exact ⟨by rw [h.same]; rfl, ⟨[], by simp [hframe], rfl, by simp⟩, h.before, h.labels⟩

theorem Advance.perm {j m : Nat} {a b : List Label} (h : Advance w w' j m a) (hperm : b.Perm a) :
    Advance w w' j m b := ⟨h.method, h.frame, h.before, hperm.trans h.labels⟩

theorem Advance.draw {α : Type} {x : Draw α} {y : α} {s : Supply} {labels : α → List Label} {j m : Nat}
    {a : List Label} (h : Advance w w' j m a) (hspends : Spends x labels a) (hx : Yields x w'.supply y s) :
    Advance w { w' with supply := s } j m (labels y) ∧
      ∀ f : Frame, f.Extends { w' with supply := s } → f.Extends w' := by
  obtain ⟨hle, hperm⟩ := hspends _ _ _ hx
  have hdraws : Lower.OnlyDraws w' { w' with supply := s } (labelsBetween w'.supply s) := ⟨rfl, hle, .refl _⟩
  exact ⟨(h.trans hdraws.advance).perm hperm, fun f => hdraws.advance.extends_of⟩

/-- Lowering a piece in settled work leaves settled work, and the piece has its code. -/
structure Lowers (L P : List Slot) (w w' : Work) (blocks decls : Nat) (labels : List Label)
    (code : Frame → Scopes → Prop) : Prop where
  advance : Advance w w' blocks decls labels
  settled : Settled L P w'
  code : ∀ f scopes, f.Extends w' → InScope L P w.method.blocks scopes → code f scopes

namespace Lowers

variable {j k m n : Nat} {a b : List Label} {p q : Frame → Scopes → Prop}

theorem refl (h : Settled L P w) : Lowers L P w w 0 0 [] fun _ _ => True :=
  ⟨(Lower.OnlyDraws.refl w).advance, h, fun _ _ _ _ => trivial⟩

theorem trans (h : Lowers L P w w' j m a p) (h' : Lowers L P w' w'' k n b q) :
    Lowers L P w w'' (j + k) (m + n) (a ++ b) fun f scopes => p f scopes ∧ q f scopes := by
  refine ⟨h.advance.trans h'.advance, h'.settled, fun f scopes hf hscope => ⟨?_, ?_⟩⟩
  · exact h.code f scopes (h'.advance.extends_of hf) hscope
  · exact h'.code f scopes hf (by rwa [h.advance.blocks_eq])

theorem imp (h : Lowers L P w w' j m a p) (hcode : ∀ f scopes, p f scopes → q f scopes) :
    Lowers L P w w' j m a q :=
  ⟨h.advance, h.settled, fun f scopes hf hscope => hcode f scopes (h.code f scopes hf hscope)⟩

theorem noting (h : Lowers L P w w' j m a p) (e : Event) : Lowers L P w (w'.noting e) j m a p :=
  ⟨⟨h.advance.method, h.advance.frame, h.advance.before, h.advance.labels⟩,
    h.settled.of_same rfl rfl rfl le_rfl, fun f scopes hf => h.code f scopes ⟨hf.same, hf.locals⟩⟩

theorem perm (h : Lowers L P w w' j m a p) (hperm : b.Perm a) : Lowers L P w w' j m b p :=
  ⟨h.advance.perm hperm, h.settled, h.code⟩

theorem draw {α : Type} {x : Draw α} {y : α} {s : Supply} {labels : α → List Label}
    (h : Lowers L P w w' j m a p) (hspends : Spends x labels a) (hx : Yields x w'.supply y s) :
    Lowers L P w { w' with supply := s } j m (labels y) p := by
  obtain ⟨hadvance, hextends⟩ := h.advance.draw hspends hx
  exact ⟨hadvance, h.settled.of_same rfl rfl rfl (hspends _ _ _ hx).1.1,
    fun f scopes hf => h.code f scopes (hextends f hf)⟩

theorem label {x : Label} {s : Supply} (h : Lowers L P w w' j m a p) (hx : Gives Fresh.label w'.supply x s) :
    Lowers L P w { w' with supply := s } j m (a ++ [x]) p := by
  have hspends : Spends (liftM Fresh.label) (fun x => a ++ [x]) a := by
    intro s x s' hx
    obtain ⟨hle, hbetween⟩ := labelsBetween_of_gives (yields_liftState.1 hx)
    exact ⟨hle, by rw [hbetween]⟩
  exact h.draw (y := x) hspends (yields_liftState.2 hx)

end Lowers

/-! ## Expressions -/

section

variable {env : Surroundings} {e : Source.Expr}

theorem Settled.of_onlyDraws {ls : List Label} (h : Settled L P w) (hdraws : Lower.OnlyDraws w w' ls) :
    Settled L P w' := by
  have hsame := hdraws.same
  exact h.of_same (by rw [hsame]) (by rw [hsame]) (by rw [hsame]) hdraws.before.1

theorem Settled.resolve {x : String} {c : Tree.Expr} (h : Settled L P w) (hc : Lower.placeIn w x = some c) :
    Lowers L P w w 0 0 c.labels fun f scopes => f.place? scopes x = some c := by
  rw [Lower.labels_placeIn hc]
  refine ⟨(Lower.OnlyDraws.refl w).advance, h, fun f scopes hf hscope => hf.place? ?_⟩
  rwa [h.placeIn_eq hscope] at hc

theorem Settled.lowerValue {c : Tree.Expr} (h : Settled L P w) (hc : Yields (Lower.lowerValue env e) w c w') :
    Lowers L P w w' 0 0 c.labels fun f scopes => ValueCode (f.place? scopes) f.Spare e c := by
  obtain ⟨hdraws, hcode⟩ := Lower.lowerValue_lowers hc
  refine ⟨hdraws.advance, h.of_onlyDraws hdraws, fun f scopes hf hscope => ?_⟩
  rw [h.placeIn_eq hscope] at hcode
  exact hcode.mono (fun _ _ => (hdraws.advance.extends_of hf).place?) fun _ => h.spare hdraws hf

theorem Settled.lowerExpr {l : Lowered} (h : Settled L P w) (hl : Yields (Lower.lowerExpr env e) w l w') :
    Lowers L P w w' 0 0 l.labels fun f scopes => PieceCode (f.place? scopes) f.Spare e l := by
  obtain ⟨hdraws, hcode⟩ := Lower.lowerExpr_lowers e _ _ _ hl
  refine ⟨hdraws.advance, h.of_onlyDraws hdraws, fun f scopes hf hscope => ?_⟩
  rw [h.placeIn_eq hscope] at hcode
  exact hcode.mono (fun _ _ => (hdraws.advance.extends_of hf).place?) fun _ => h.spare hdraws hf

end

/-! ## Locals -/

section

variable {env : Surroundings} {d : VarDecl} {l : Lowered}

/-- The work after a temp was drawn for a local of the frame. -/
def Work.housing (w : Work) : Work :=
  { w with frame := { w.frame with locals := w.frame.locals ++ [.inReg (nextTemp w.supply)] },
           supply := w.supply.temp.2 }

theorem Lower.yields_alloc {a : Access} (henv : env.storage.localsEscape = false) :
    Yields (Lower.alloc env) w a w' ↔ a = .inReg (nextTemp w.supply) ∧ w' = w.housing := by
  unfold Lower.alloc
  rw [yields_modifyGet, henv]
  constructor
  · intro h
    cases h
    exact ⟨rfl, rfl⟩
  · rintro ⟨rfl, rfl⟩
    rfl

theorem Lower.yields_lowerLocal (henv : env.storage.localsEscape = false)
    (h : Yields (Lower.lowerLocal env d) w l w') :
    ∃ v, w.method.local? d.name.val = some v ∧ l = .value (.temp (nextTemp w.supply)) ∧
      w' = { w.housing with method := { w.method with
        locals := Method.setAccess v.index (.inReg (nextTemp w.supply)) w.method.locals } } := by
  simp only [Lower.lowerLocal, yields_bind, yields_get, Lower.yields_alloc henv] at h
  obtain ⟨_, _, ⟨rfl, rfl⟩, _, _, ⟨rfl, rfl⟩, h⟩ := h
  cases hv : w.method.local? d.name.val with
  | none =>
    have hbind : w.housing.method.bindLocal? d.name.val (.inReg (nextTemp w.supply)) = none := by
      change (w.method.local? d.name.val).map _ = none
      rw [hv]
      rfl
    rw [hbind] at h
    exact absurd h (not_yields_throw _)
  | some v =>
    have hbind : w.housing.method.bindLocal? d.name.val (.inReg (nextTemp w.supply)) = some { w.method with
        locals := Method.setAccess v.index (.inReg (nextTemp w.supply)) w.method.locals } := by
      change (w.method.local? d.name.val).map _ = _
      rw [hv]
      rfl
    rw [hbind] at h
    simp only [Lower.framePointer, yields_bind, yields_get, yields_set, yields_pure] at h
    obtain ⟨_, _, rfl, _, _, ⟨_, _, ⟨rfl, rfl⟩, rfl, rfl⟩, rfl, rfl⟩ := h
    exact ⟨v, rfl, rfl, rfl⟩

theorem Frame.Within.housing (h : w.frame.Within w.supply) : w.housing.frame.Within w.housing.supply := by
  have hnew : .inReg (nextTemp w.supply) ∉ w.frame.locals := by
    intro hmem
    obtain ⟨t, heq, hlt⟩ := h.homes _ hmem
    cases heq
    exact absurd hlt (lt_irrefl _)
  have hold : ∀ t : Temp, t.index < w.supply.temps.next → .inReg t ∉ w.frame.locals →
      .inReg t ∉ w.housing.frame.locals := by
    intro t hlt hother hmem
    rcases List.mem_append.1 hmem with hmem | hmem
    · exact hother hmem
    · cases List.mem_singleton.1 hmem
      exact absurd hlt (lt_irrefl _)
  have hle : w.supply.temps.next ≤ w.housing.supply.temps.next := Nat.le_succ _
  have hmono := h.mono hle
  refine ⟨fun a ha => ?_, ?_, ⟨hmono.fp.1, hold _ h.fp.1 h.fp.2⟩, ⟨hmono.rv.1, hold _ h.rv.1 h.rv.2⟩,
    h.distinct⟩
  · rcases List.mem_append.1 ha with ha | ha
    · exact hmono.homes a ha
    · exact ⟨_, List.mem_singleton.1 ha, Nat.lt_succ_self _⟩
  · refine List.nodup_append.2 ⟨h.nodup, List.nodup_singleton _, ?_⟩
    rintro a ha b hb rfl
    exact hnew (List.mem_singleton.1 hb ▸ ha)

theorem Method.access_setAccess {vs : List Variable} {homes : List Access} (home : Access)
    (later : Nat → Option Access) (hpositive : ∀ v ∈ vs, 1 ≤ v.index)
    (hbound : ∀ v ∈ vs, v.access = homes[v.index - 1]?.or (later v.index)) :
    ∀ v ∈ Method.setAccess (homes.length + 1) home vs,
      v.access = (homes ++ [home])[v.index - 1]?.or (later v.index) := by
  intro v hv
  obtain ⟨u, hu, rfl⟩ := List.mem_map.1 hv
  split
  next hindex => simp [hindex]
  next hindex =>
    rw [hbound u hu]
    have hpos := hpositive u hu
    rcases Nat.lt_or_ge (u.index - 1) homes.length with hlt | hge
    · rw [List.getElem?_append_left hlt]
    · have hge' : (homes ++ [home]).length ≤ u.index - 1 := by
        simp only [List.length_append, List.length_singleton]
        omega
      rw [List.getElem?_eq_none hge, List.getElem?_eq_none hge']

theorem Method.slot_setAccess (index : Nat) (a : Access) (vs : List Variable) :
    (Method.setAccess index a vs).map Variable.slot = vs.map Variable.slot := by
  simp only [Method.setAccess, List.map_map, List.map_inj_left, Function.comp_apply]
  intro v _
  split <;> rfl

theorem Work.advance_housing (w : Work) (parameters locals : List Variable) :
    Advance w { w.housing with method := { w.method with parameters, locals } } 0 1 [] := by
  refine ⟨rfl, ⟨[.inReg (nextTemp w.supply)], rfl, rfl, fun a ha => ?_⟩, w.supply.before_temp, ?_⟩
  · exact ⟨_, List.mem_singleton.1 ha, le_rfl⟩
  · rw [show labelsBetween w.supply w.housing.supply = [] from w.supply.labelsBetween_temp]

theorem Settled.lowerLocal (henv : env.storage.localsEscape = false) (h : Settled L P w)
    (hl : Yields (Lower.lowerLocal env d) w l w')
    (hnext : (w.method.local? d.name.val).map Variable.index = some (w.frame.locals.length + 1)) :
    Lowers L P w w' 0 1 l.labels fun f _ =>
      ∃ home, f.home? (w.frame.locals.length + 1) = some home ∧ l = .value home := by
  obtain ⟨v, hv, rfl, rfl⟩ := Lower.yields_lowerLocal henv hl
  have hindex : v.index = w.frame.locals.length + 1 := by simpa [hv] using hnext
  refine ⟨w.advance_housing _ _, ⟨?_, h.parameters, h.positive, ?_, ?_, ?_, h.within.housing⟩, ?_⟩
  · exact (Method.slot_setAccess _ _ _).trans h.locals
  · intro s hs
    have := h.formals s hs
    simp only [Work.housing, List.length_append]
    omega
  · rw [hindex]
    have hbound := Method.access_setAccess (.inReg (nextTemp w.supply)) (fun _ => none)
      (fun u hu => h.positive u.slot (h.locals ▸ List.mem_map_of_mem hu)) (by simpa using h.bound)
    simpa [Work.housing] using hbound
  · intro u hu
    have hle := (h.formals u.slot (h.parameters ▸ List.mem_map_of_mem hu))
    simp only [Variable.slot] at hle
    rw [h.homed u hu]
    exact (List.getElem?_append_left (by omega)).symm
  · intro f scopes hf _
    obtain ⟨later, hlocals, -⟩ := hf.locals
    refine ⟨.temp (nextTemp w.supply), ?_, rfl⟩
    simp [Frame.home?, hlocals, Work.housing, Access.exp]

theorem Settled.index_local? (h : Settled L P w) {b : Block} {outer : List Block} {x : String} {n : Nat}
    (hblocks : w.method.blocks = b :: outer) (hslot : (findSlot L x b).map Slot.index = some n) :
    (w.method.local? x).map Variable.index = some n := by
  have hhere := w.method.index_localIn? x b
  rw [h.locals, hslot] at hhere
  have hfirst : w.method.local? x = (w.method.blocks).findSome? (w.method.localIn? x) := rfl
  rw [hfirst, hblocks, List.findSome?_cons]
  cases hv : w.method.localIn? x b with
  | none => simp [hv] at hhere
  | some v => simpa [hv] using hhere

theorem Settled.lowerLocals (henv : env.storage.localsEscape = false) (ds : List VarDecl) {w w' : Work}
    {ls : List Lowered} {b : Block} {outer : List Block} {scope : List (String × Nat)} (h : Settled L P w)
    (hls : Yields (ds.mapM (Lower.lowerLocal env)) w ls w') (hblocks : w.method.blocks = b :: outer)
    (hscope : ∀ x, (findSlot L x b).map Slot.index = scope.lookup x)
    (hnext : ∀ y ∈ numbered (w.frame.locals.length + 1) ds, scope.lookup y.1 = some y.2) :
    Lowers L P w w' 0 ds.length (ls.flatMap Lowered.labels) fun f _ =>
      ∀ cs, List.Forall₂ Lowered.GivesStm ls cs → LocalsCode f (w.frame.locals.length + 1) ds cs := by
  induction ds generalizing w ls with
  | nil =>
    obtain ⟨rfl, rfl⟩ := yields_mapM_nil.1 hls
    refine (Lowers.refl h).imp fun f _ _ cs hcs => ?_
    cases hcs
    exact .nil
  | cons d rest ih =>
    obtain ⟨l, w₁, ls', hl, hls', rfl⟩ := yields_mapM_cons.1 hls
    have hd : scope.lookup d.name.val = some (w.frame.locals.length + 1) := hnext _ List.mem_cons_self
    have hfirst := h.lowerLocal henv hl (h.index_local? hblocks ((hscope _).trans hd))
    have hlength := hfirst.advance.length_eq
    have hrest := ih hfirst.settled hls' (hfirst.advance.blocks_eq.trans hblocks) fun y hy => by
      rw [hlength] at hy
      exact hnext y (List.mem_cons_of_mem _ hy)
    rw [List.length_cons, Nat.add_comm rest.length]
    refine (hfirst.trans hrest).imp fun f scopes hcode cs hcs => ?_
    obtain ⟨⟨home, hhome, rfl⟩, hcode⟩ := hcode
    cases hcs with
    | cons hc hcs =>
      obtain ⟨s, s', hc⟩ := hc
      obtain ⟨rfl, -⟩ := Lowered.yields_toStm_value.1 hc
      refine .cons ⟨home, hhome, rfl⟩ ?_
      have := hcode _ hcs
      rwa [hlength] at this

end

end Lowering
