import Lowering.Proofs.Scope.Statements

/-!
# Lowering the body of a procedure

The formals come first. Each moves from where it comes in to a home, and then the work is settled.
-/

namespace Lowering

open Lowering.Tree (Temp Label Stm nextTemp)
open Lowering.Source (VarDecl Stmt)
open Supply (Before labelsBetween)

variable {L P : List Slot} {w w' : Work} {env : Surroundings}

/-! ## Formals -/

/-- The formals met so far have their homes, the others are where they come in. -/
structure Arriving (P : List Slot) (w : Work) : Prop where
  parameters : w.method.parameters.map Variable.slot = P
  positive : ∀ s ∈ P, 1 ≤ s.index
  homed : ∀ v ∈ w.method.parameters,
    v.access = w.frame.locals[v.index - 1]?.or w.frame.formals[v.index - 1]?
  within : w.frame.Within w.supply

section

variable {d : VarDecl} {l : Lowered}

theorem Lower.yields_lowerFormal (henv : env.storage.localsEscape = false)
    (h : Yields (Lower.lowerFormal env d) w l w') :
    ∃ v incoming, w.method.parameter? d.name.val = some v ∧ v.access = some incoming ∧
      l = .value (.eseq (.move (.temp (nextTemp w.supply)) (incoming.exp (.temp w.frame.fp)))
        (.temp (nextTemp w.supply))) ∧
      w' = { w.housing with method := { w.method with
        parameters := Method.setAccess v.index (.inReg (nextTemp w.supply)) w.method.parameters } } := by
  simp only [Lower.lowerFormal, yields_bind, yields_get, Lower.yields_alloc henv] at h
  obtain ⟨_, _, ⟨rfl, rfl⟩, _, _, ⟨rfl, rfl⟩, h⟩ := h
  have hmethod : w.housing.method = w.method := rfl
  rw [hmethod, Method.bindParameter?] at h
  cases hv : w.method.parameter? d.name.val with
  | none =>
    rw [hv] at h
    exact absurd h (not_yields_throw _)
  | some v =>
    simp only [hv, Option.map_some] at h
    split at h
    next => exact absurd h (not_yields_throw _)
    next incoming hincoming =>
      simp only [Lower.framePointer, yields_bind, yields_get, yields_set, yields_pure] at h
      obtain ⟨_, _, rfl, _, _, ⟨_, _, ⟨rfl, rfl⟩, rfl, rfl⟩, rfl, rfl⟩ := h
      exact ⟨v, incoming, rfl, hincoming, rfl, rfl⟩

theorem Arriving.lowerFormal (henv : env.storage.localsEscape = false) (h : Arriving P w)
    (hl : Yields (Lower.lowerFormal env d) w l w')
    (hnext : (P.find? (·.name == d.name.val)).map Slot.index = some (w.frame.locals.length + 1)) :
    Advance w w' 0 1 l.labels ∧ Arriving P w' ∧ w'.method.locals = w.method.locals ∧
      ∀ f : Frame, f.Extends w' → ∃ home incoming, f.home? (w.frame.locals.length + 1) = some home ∧
        f.formals[w.frame.locals.length]? = some incoming ∧
        l = .value (.eseq (.move home (incoming.exp (.temp f.fp))) home) := by
  obtain ⟨v, incoming, hv, hincoming, rfl, rfl⟩ := Lower.yields_lowerFormal henv hl
  have hindex : v.index = w.frame.locals.length + 1 := by
    have := w.method.index_parameter? d.name.val
    rw [hv, h.parameters, hnext] at this
    simpa using this
  have hlabels : (Lowered.value (.eseq (.move (.temp (nextTemp w.supply)) (incoming.exp (.temp w.frame.fp)))
      (.temp (nextTemp w.supply)))).labels = [] := by
    cases incoming <;> simp [Lowered.labels, Access.exp]
  rw [hlabels]
  refine ⟨w.advance_housing _ _, ⟨?_, h.positive, ?_, h.within.housing⟩, rfl, fun f hf => ?_⟩
  · exact (Method.slot_setAccess _ _ _).trans h.parameters
  · rw [hindex]
    exact Method.access_setAccess (.inReg (nextTemp w.supply)) (fun n => w.frame.formals[n - 1]?)
      (fun u hu => h.positive u.slot (h.parameters ▸ List.mem_map_of_mem hu)) h.homed
  · have haccess := h.homed v (List.mem_of_find?_eq_some hv)
    rw [hincoming, hindex] at haccess
    obtain ⟨later, hlocals, -⟩ := hf.locals
    have hfp : f.fp = w.frame.fp := by rw [hf.same]; rfl
    have hformals : f.formals = w.frame.formals := by rw [hf.same]; rfl
    refine ⟨.temp (nextTemp w.supply), incoming, ?_, ?_, by rw [hfp]⟩
    · simp [Frame.home?, hlocals, Work.housing, Access.exp]
    · rw [hformals]
      simpa using haccess.symm

theorem Arriving.lowerFormals (henv : env.storage.localsEscape = false) (ds : List VarDecl) {w w' : Work}
    {ls : List Lowered} (h : Arriving P w) (hls : Yields (ds.mapM (Lower.lowerFormal env)) w ls w')
    (hnext : ∀ y ∈ numbered (w.frame.locals.length + 1) ds,
      (P.find? (·.name == y.1)).map Slot.index = some y.2) :
    Advance w w' 0 ds.length (ls.flatMap Lowered.labels) ∧ Arriving P w' ∧
      w'.method.locals = w.method.locals ∧ ∀ f : Frame, f.Extends w' → ∀ cs,
        List.Forall₂ Lowered.GivesStm ls cs → FormalsCode f (w.frame.locals.length + 1) ds cs := by
  induction ds generalizing w ls with
  | nil =>
    obtain ⟨rfl, rfl⟩ := yields_mapM_nil.1 hls
    refine ⟨(Lower.OnlyDraws.refl w).advance, h, rfl, fun f _ cs hcs => ?_⟩
    cases hcs
    exact .nil
  | cons d rest ih =>
    obtain ⟨l, w₁, ls', hl, hls', rfl⟩ := yields_mapM_cons.1 hls
    obtain ⟨hadvance, harriving, hlocals, hcode⟩ := h.lowerFormal henv hl (hnext _ List.mem_cons_self)
    have hlength := hadvance.length_eq
    obtain ⟨hadvance', harriving', hlocals', hcode'⟩ := ih harriving hls' fun y hy => by
      rw [hlength] at hy
      exact hnext y (List.mem_cons_of_mem _ hy)
    rw [List.length_cons, Nat.add_comm rest.length]
    refine ⟨hadvance.trans hadvance', harriving', hlocals'.trans hlocals, fun f hf cs hcs => ?_⟩
    obtain ⟨home, incoming, hhome, hincoming, rfl⟩ := hcode f (hadvance'.extends_of hf)
    cases hcs with
    | cons hc hcs =>
      obtain ⟨s, s', hc⟩ := hc
      obtain ⟨rfl, -⟩ := Lowered.yields_toStm_value.1 hc
      refine .cons ⟨home, incoming, hhome, hincoming, rfl⟩ ?_
      have := hcode' f hf _ hcs
      rwa [hlength] at this

end

/-! ## Bodies -/

/-- Work at the start of a procedure. Nothing has a home yet. -/
structure Starting (b : Lower.Body) (w : Work) : Prop where
  blocks : w.method.blocks = []
  nextBlock : w.method.nextBlock = {}
  arriving : Arriving (slotsOf none 1 b.formals) w
  names : (b.formals.map (·.name.val)).Nodup
  locals : w.method.locals.map Variable.slot = b.localSlots.reverse
  distinct : w.method.Distinct
  unbound : w.method.Unbound
  empty : w.frame.locals = []

theorem index_of_mem_slotsOf {b : Option Block} {first : Nat} {ds : List VarDecl} {s : Slot}
    (h : s ∈ slotsOf b first ds) : first ≤ s.index ∧ s.index < first + ds.length := by
  induction ds generalizing first with
  | nil => simp [slotsOf] at h
  | cons d rest ih =>
    rcases List.mem_cons.1 h with rfl | h
    · simp
    · have := ih h
      simp only [List.length_cons]
      omega

theorem Lower.Body.index_of_mem_localSlots {b : Lower.Body} {s : Slot} (h : s ∈ b.localSlots) :
    b.formals.length < s.index := by
  have hslots : b.localSlots.map Slot.anywhere =
      slotsOf none (b.formals.length + 1) (b.locals ++ Stmt.declarationsAll b.stmts) := by
    rw [Lower.Body.localSlots, List.map_append, map_anywhere_slotsOf, Stmt.map_anywhere_slotsAll, slotsOf_append]
  have hmem : s.anywhere ∈ slotsOf none (b.formals.length + 1) (b.locals ++ Stmt.declarationsAll b.stmts) :=
    hslots ▸ List.mem_map_of_mem h
  exact (index_of_mem_slotsOf hmem).1

theorem Starting.found {b : Lower.Body} (h : Starting b w) :
    BlockFound b.localSlots.reverse ⟨0⟩ (b.formals.length + 1) b.locals ∧
      Stmt.FoundAll b.localSlots.reverse b.stmts 1 (b.formals.length + 1 + b.locals.length) := by
  have hkeys : (b.localSlots.reverse.map Slot.key).Nodup := by
    rw [← h.locals, List.map_map]
    exact h.distinct
  have haround : Around b.localSlots.reverse [] b.localSlots [] 0 (1 + Stmt.blockCountAll b.stmts) :=
    ⟨by simp, by simp, by simp⟩
  obtain ⟨hlocals, hstmts⟩ : Around _ _ _ _ 0 1 ∧ Around _ _ _ _ 1 _ := haround.split
    (fun _ => inBlocks_slotsOf) (fun _ => Stmt.inBlocks_slotsAll b.stmts) (by omega) (by omega)
  exact ⟨hlocals.blockFound hkeys, Stmt.found_of_aroundAll b.stmts hkeys hstmts⟩

theorem Starting.settled {b : Lower.Body} (h : Starting b w) {ls : List Label}
    (hadvance : Advance w.entering w' 0 b.formals.length ls) (harriving : Arriving (slotsOf none 1 b.formals) w')
    (hlocals : w'.method.locals = w.method.locals) :
    Settled b.localSlots.reverse (slotsOf none 1 b.formals) w' := by
  have hlength : w'.frame.locals.length = b.formals.length := by
    have := hadvance.length_eq
    simp only [Work.entering, h.empty, List.length_nil] at this
    omega
  have hformals : ∀ s ∈ slotsOf none 1 b.formals, 1 ≤ s.index ∧ s.index ≤ w'.frame.locals.length := by
    intro s hs
    have := index_of_mem_slotsOf hs
    omega
  have hafter : ∀ v ∈ w'.method.locals, b.formals.length < v.index := by
    intro v hv
    have hmem : v.slot ∈ b.localSlots.reverse := by
      rw [← h.locals, ← hlocals]
      exact List.mem_map_of_mem hv
    exact Lower.Body.index_of_mem_localSlots (List.mem_reverse.1 hmem)
  refine ⟨by rw [hlocals, h.locals], harriving.parameters, fun s hs => ?_, hformals, fun v hv => ?_, fun v hv => ?_,
    harriving.within⟩
  · have := Lower.Body.index_of_mem_localSlots (List.mem_reverse.1 hs)
    omega
  · have := hafter v hv
    rw [h.unbound v (hlocals ▸ hv), List.getElem?_eq_none (by omega)]
  · have := hformals v.slot (harriving.parameters ▸ List.mem_map_of_mem hv)
    simp only [Variable.slot] at this
    rw [harriving.homed v hv, List.getElem?_eq_getElem (by omega), Option.some_or]

theorem Settled.lowerResult {ls : List Lowered} {result : Option Source.Expr} (h : Settled L P w)
    (hls : Yields (Lower.lowerResult env result) w ls w') :
    Lowers L P w w' 0 0 (ls.flatMap Lowered.labels) fun f scopes =>
      ∀ cs, List.Forall₂ Lowered.GivesStm ls cs → ResultCode f scopes result cs := by
  cases result with
  | none =>
    obtain ⟨rfl, rfl⟩ := yields_pure.1 hls
    refine (Lowers.refl h).imp fun f scopes _ cs hcs => ?_
    cases hcs
    exact .none
  | some e =>
    simp only [Lower.lowerResult, yields_bind, yields_get, yields_pure] at hls
    obtain ⟨v, w₁, hv, _, _, ⟨rfl, rfl⟩, rfl, rfl⟩ := hls
    have hvalue := h.lowerValue hv
    refine ⟨hvalue.advance.perm (by simp [Lowered.labels]), hvalue.settled, fun f scopes hf hscope cs hcs => ?_⟩
    have hcode := hvalue.code f scopes hf hscope
    have hrv : w₁.frame.rv = f.rv := by rw [hf.same]
    cases hcs with
    | cons hc hcs =>
      cases hcs
      obtain ⟨s, s', hc⟩ := hc
      obtain ⟨rfl, -⟩ := Lowered.yields_toStm_effect.1 hc
      rw [hrv]
      exact .some hcode

theorem Starting.entered {b : Lower.Body} (h : Starting b w) : Arriving (slotsOf none 1 b.formals) w.entering :=
  ⟨h.arriving.parameters, h.arriving.positive, h.arriving.homed, h.arriving.within⟩

theorem Starting.first {b : Lower.Body} (h : Starting b w) : w.entering.frame.locals.length + 1 = 1 := by
  simp [Work.entering, h.empty]

theorem Starting.nextFormal {b : Lower.Body} (h : Starting b w) :
    ∀ y ∈ numbered (w.entering.frame.locals.length + 1) b.formals,
      ((slotsOf none 1 b.formals).find? (·.name == y.1)).map Slot.index = some y.2 := by
  intro y hy
  rw [h.first] at hy
  rw [find?_slotsOf fun _ _ => rfl]
  exact lookup_numbered h.names hy

/-- The work after the formals of a body have their homes. -/
structure Housed (b : Lower.Body) (w : Work) : Prop where
  settled : Settled b.localSlots.reverse (slotsOf none 1 b.formals) w
  blocks : w.method.blocks = [⟨0⟩]
  next : w.method.nextBlock.next = 1
  length : w.frame.locals.length = b.formals.length

theorem Starting.lowerFormals {b : Lower.Body} {ls : List Lowered} (henv : env.storage.localsEscape = false)
    (h : Starting b w) (hls : Yields (b.formals.mapM (Lower.lowerFormal env)) w.entering ls w') :
    Advance w.entering w' 0 b.formals.length (ls.flatMap Lowered.labels) ∧ Housed b w' ∧
      ∀ f : Frame, f.Extends w' → ∀ cs, List.Forall₂ Lowered.GivesStm ls cs → FormalsCode f 1 b.formals cs := by
  obtain ⟨hadvance, harriving, hsame, hcode⟩ := h.entered.lowerFormals henv b.formals hls h.nextFormal
  rw [h.first] at hcode
  refine ⟨hadvance, ⟨h.settled hadvance harriving hsame, ?_, ?_, ?_⟩, hcode⟩
  · rw [hadvance.blocks_eq]
    simp [Work.entering, Method.enter, h.blocks, h.nextBlock, Counter.draw]
  · rw [hadvance.next_eq]
    simp [Work.entering, Method.enter, h.nextBlock, Counter.draw]
  · have := hadvance.length_eq
    have := h.first
    omega

theorem Housed.inScope {b : Lower.Body} : InScope b.localSlots.reverse (slotsOf none 1 b.formals) []
    [numbered 1 b.formals] := .formals fun _ => find?_slotsOf (fun _ _ => rfl) 1 b.formals

/-- The contents of a body, inside its block. -/
structure BodyLowers (println : String) (b : Lower.Body) (w w' : Work) (l : Lowered) : Prop where
  advance : Advance w w' (Stmt.blockCountAll b.stmts) b.declarations.length l.labels
  settled : Settled b.localSlots.reverse (slotsOf none 1 b.formals) w'
  code : ∀ f : Frame, f.Extends w' → ∀ c, l.GivesStm c → BodyCode f println b (f.bracket c)

theorem Starting.lowerBody {b : Lower.Body} {l : Lowered} (henv : env.storage.localsEscape = false)
    (h : Starting b w) (hl : Yields (Lower.lowerBody env b) w.entering l w') :
    BodyLowers env.println b w.entering w' l := by
  obtain ⟨formals, w₁, locals, w₂, stmts, w₃, result, w₄, s, hformals, hlocals, hstmts, hresult, hfold, rfl⟩ :=
    Lower.yields_lowerBody hl
  obtain ⟨hadvance, hhoused, hcodef⟩ := h.lowerFormals henv hformals
  have hlength : w₁.frame.locals.length + 1 = b.formals.length + 1 := by rw [hhoused.length]
  obtain ⟨hblock, hall⟩ := h.found
  have hcontents := hhoused.settled.lowerContents henv (fun _ _ _ => Settled.lowerStmts henv b.stmts) hhoused.blocks
    (by rwa [hlength]) (by rwa [hhoused.next, hlength]) hlocals hstmts
  have hrest := hcontents.trans (hcontents.settled.lowerResult hresult)
  have hlabels : ((formals ++ locals ++ stmts ++ result).flatMap Lowered.labels) =
      formals.flatMap Lowered.labels ++ ((locals ++ stmts).flatMap Lowered.labels ++
        result.flatMap Lowered.labels) := by simp
  have hspends := Lowered.fold_spends (formals ++ locals ++ stmts ++ result)
  rw [hlabels] at hspends
  obtain ⟨hdraw, hextends⟩ := (hadvance.trans hrest.advance).draw hspends hfold
  refine ⟨?_, hrest.settled.of_same rfl rfl rfl (hspends _ _ _ hfold).1.1, fun f hf c hc => ?_⟩
  · simpa [Lower.Body.declarations] using hdraw
  · obtain ⟨cs, rfl, hcs⟩ := Lowered.givesStm_fold hfold hc
    obtain ⟨cs, cr, rfl, hcs, hcr⟩ := forall₂_append_left hcs
    obtain ⟨cs, css, rfl, hcs, hcss⟩ := forall₂_append_left hcs
    obtain ⟨cf, cl, rfl, hcf, hcl⟩ := forall₂_append_left hcs
    have hf := hextends f hf
    have hscope : InScope b.localSlots.reverse (slotsOf none 1 b.formals) w₁.method.blocks b.scopes := by
      rw [hhoused.blocks]
      exact .block hblock.lookup Housed.inScope
    obtain ⟨hcode, hcoder⟩ := hrest.code f b.scopes hf hscope
    obtain ⟨hcodel, hcodes⟩ := hcode cl css hcl hcss
    rw [hlength] at hcodel hcodes
    exact .mk (hcodef f (hrest.advance.extends_of hf) cf hcf) hcodel hcodes (hcoder cr hcr)

/-! ## Procedures -/

/-- A procedure is lowered: its body has its code, and its variables have their homes. -/
structure Finished (println : String) (b : Lower.Body) (w w' : Work) (body : Stm) : Prop where
  code : BodyCode w'.frame println b body
  labels : ∃ inner, body.labels = w.frame.name :: (inner ++ [w.frame.exitLabel]) ∧
    inner.Perm (labelsBetween w.supply w'.supply)
  settled : Settled b.localSlots.reverse (slotsOf none 1 b.formals) w'
  count : w'.frame.locals.length = b.declarations.length
  frame : w'.frame = { w.frame with locals := w'.frame.locals }
  before : Before w.supply w'.supply
  name : w'.method.name = w.method.name

theorem Starting.lowerProcedure {b : Lower.Body} {body : Stm} (henv : env.storage.localsEscape = false)
    (h : Starting b w) (hbody : Yields (Lower.lowerProcedure env b) w body w') :
    Finished env.println b w w' body := by
  obtain ⟨l, w₁, block, method, s, supply, hinside, hleave, hs, rfl, rfl⟩ := Lower.yields_lowerProcedure hbody
  have hlowers := h.lowerBody henv hinside
  obtain ⟨hadvance, hextends⟩ := hlowers.advance.draw l.toStm_spends hs
  obtain ⟨added, hframe, hcount, -⟩ := hlowers.advance.frame
  obtain ⟨outer, -, rfl⟩ := Method.leave_eq_ok.1 hleave
  refine ⟨?_, ⟨s.labels, ?_, hadvance.labels⟩, ?_, ?_, ?_, hadvance.before, ?_⟩
  · exact hlowers.code w₁.frame (hextends w₁.frame ⟨rfl, [], by simp, by simp⟩) s ⟨_, _, hs⟩
  · have hname : w₁.frame.name = w.frame.name := by
      rw [hframe]
      rfl
    simp [Frame.bracket, Frame.exitLabel, hname]
  · exact hlowers.settled.of_same rfl rfl rfl (l.toStm_spends _ _ _ hs).1.1
  · have := hlowers.advance.length_eq
    simp only [Work.entering, h.empty, List.length_nil] at this
    change w₁.frame.locals.length = _
    omega
  · change w₁.frame = { w.frame with locals := w₁.frame.locals }
    rw [hframe]
    rfl
  · change w₁.method.name = w.method.name
    rw [hlowers.advance.method]
    rfl

end Lowering
