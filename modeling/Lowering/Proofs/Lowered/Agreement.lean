import Lowering.Proofs.Linear.Meaning
import Lowering.Proofs.Lowered.Evaluation
import Lowering.Proofs.Tree.Bystanders

/-!
# The coercions of a piece agree

A value or a comparison can be had as an expression, as a statement and as a branch. Whichever it
is, its linear code has the effects of evaluating the piece, and the branch is decided by the word
that the expression computes.
-/

namespace Lowering

open Lowering.Tree (Temp Label Expr Stm Eval Runs Agree labelsOf nextTemp gives_temp countdown afterSetting)
open Lowering.Machine (Reaches targets)
open Lowering.Supply (labelNamed labelsBetween)

variable {ts us : List Temp} {m m₁ m' M : Machine} {w a b : Word} {s s' : Supply} {code : List Stm}

/-! ## What a run leaves -/

/-- `M` is `m` but for temps outside `ts`: the same words in memory, the same output, the same calls, and the
same routines with the same in their cells. -/
structure SameOn (ts : List Temp) (m M : Machine) : Prop where
  temps : ∀ t ∈ ts, M.temps[t]? = m.temps[t]?
  memory : M.memory = m.memory
  routines : M.routines = m.routines
  cells : M.cells = m.cells
  output : M.output = m.output
  calls : M.calls = m.calls

namespace SameOn

theorem refl (m : Machine) : SameOn ts m m := ⟨fun _ _ => rfl, rfl, rfl, rfl, rfl, rfl⟩

theorem trans (h : SameOn ts m m₁) (h' : SameOn ts m₁ M) : SameOn ts m M :=
  ⟨fun t ht => (h'.temps t ht).trans (h.temps t ht), h'.memory.trans h.memory, h'.routines.trans h.routines,
    h'.cells.trans h.cells, h'.output.trans h.output, h'.calls.trans h.calls⟩

theorem mono (h : SameOn us m M) (hts : ts ⊆ us) : SameOn ts m M :=
  ⟨fun t ht => h.temps t (hts ht), h.memory, h.routines, h.cells, h.output, h.calls⟩

theorem withTemp (h : SameOn ts m M) {r : Temp} (hr : r ∉ ts) : SameOn ts m (M.withTemp r w) := by
  refine ⟨fun t ht => ?_, h.memory, h.routines, h.cells, h.output, h.calls⟩
  have hne : r ≠ t := fun heq => hr (heq ▸ ht)
  rw [Machine.temps_withTemp_ne hne, h.temps t ht]

theorem of_agree {n : Nat} (h : Agree n m M) (hts : ∀ t ∈ ts, t.index < n) : SameOn ts m M :=
  ⟨fun t ht => h.temps t (hts t ht), h.memory, h.routines, h.cells, h.output, h.calls⟩

end SameOn

/-- Given enough steps, the code runs to its end on a machine where `Q` holds. -/
def Finishes (m : Machine) (code : List Stm) (Q : Machine → Prop) : Prop :=
  ∃ enough, ∀ limit, enough ≤ limit → ∃ steps M, (m.withLimit limit).run code = (.ok steps, M) ∧ Q M

/-- The code goes to the label `goal`, which does not stand in it. -/
structure BranchesTo (m : Machine) (code : List Stm) (goal : Label) (Q : Machine → Prop) : Prop where
  /-- Alone, it stops for want of the label. -/
  alone : ∃ enough, ∀ limit, enough ≤ limit →
    ∃ M, (m.withLimit limit).run code = (.error (.unknownLabel goal), M) ∧ Q M
  /-- Where the label stands somewhere behind the code, control comes to it. -/
  within : ∀ before after, (labelsOf (code ++ (before ++ .label goal :: after))).Nodup →
    let whole := code ++ (before ++ .label goal :: after)
    ∃ M, Reaches (targets whole) whole m (.label goal :: after) M ∧ Q M

theorem Finishes.mono {P Q : Machine → Prop} (h : Finishes m code P) (hQ : ∀ M, P M → Q M) : Finishes m code Q := by
  obtain ⟨enough, hrun⟩ := h
  refine ⟨enough, fun limit hlimit => ?_⟩
  obtain ⟨steps, M, hsteps, hM⟩ := hrun limit hlimit
  exact ⟨steps, M, hsteps, hQ M hM⟩

theorem BranchesTo.mono {goal : Label} {P Q : Machine → Prop} (h : BranchesTo m code goal P)
    (hQ : ∀ M, P M → Q M) : BranchesTo m code goal Q := by
  obtain ⟨⟨enough, halone⟩, hwithin⟩ := h
  refine ⟨⟨enough, fun limit hlimit => ?_⟩, fun before after hnodup => ?_⟩
  · obtain ⟨M, hrun, hM⟩ := halone limit hlimit
    exact ⟨M, hrun, hQ M hM⟩
  · obtain ⟨M, hreach, hM⟩ := hwithin before after hnodup
    exact ⟨M, hreach, hQ M hM⟩

namespace Tree

theorem Stm.finishes_of_inOrder (st : Stm) (hlabels : st.labels.Nodup) (horder : st.inOrder = true)
    (h : st.Ends m m') : Finishes m st.linearize (SameOn st.temps m') := by
  have hleads : LeadsFrom (targets st.linearize) st.tempBound _ _ m m' :=
    Runs.leadsFrom h (st.inOrder_parts le_rfl horder)
  exact Finishes.mono (st.run_linearize_of_performs hlabels hleads.performs)
    fun M hM => .of_agree hM fun t ht => st.index_lt_tempBound ht

theorem Stm.finishes_linearize (st : Stm) (hlabels : st.labels.Nodup) (hcalls : st.callsApart = true)
    (h : st.Ends m m') : Finishes m st.linearize (SameOn st.temps m') :=
  st.finishes_of_inOrder hlabels (st.inOrder_of_callsApart hcalls) h

theorem branchesTo_linearize {op : RelOp} {left right : Expr} {ifTrue ifFalse goal : Label}
    (hlabels : (Stm.cjump op left right ifTrue ifFalse).labels.Nodup)
    (hcalls : (Stm.cjump op left right ifTrue ifFalse).callsApart = true)
    (hleft : Eval m left a m₁) (hright : Eval m₁ right b m')
    (hgoal : goal = if op.holds a.value b.value then ifTrue else ifFalse)
    (hnew : goal ∉ (Stm.cjump op left right ifTrue ifFalse).labels) :
    BranchesTo m (Stm.cjump op left right ifTrue ifFalse).linearize goal
      (SameOn (left.temps ++ right.temps) m') := by
  set st := Stm.cjump op left right ifTrue ifFalse
  obtain ⟨hfl, hfr⟩ := Stm.fits_cjump.1 (⟨le_rfl, hcalls⟩ : st.Fits st.tempBound)
  have hsame : ∀ {M}, Agree st.tempBound m' M → SameOn (left.temps ++ right.temps) m' M :=
    fun hM => .of_agree hM fun t ht => st.index_lt_tempBound ht
  have hcode : Gives st.straighten (Supply.startingAt st.tempBound) st.linearize _ := gives_run _ _
  constructor
  · have hplaces := st.located_linearize hlabels
    have hcomputes : Tree.Computes (targets st.linearize) _ _ _ _ _ := hleft.hoisted hfl
    obtain ⟨before, last, heq, hlead⟩ := hcomputes.cjump (hright.hoisted hfr) hcode le_rfl
    have hout : goal ∉ targets st.linearize := by
      intro hmem
      have hstands := mem_labelsOf (Machine.mem_of_mem_targets hmem)
      rw [st.labelsOf_linearize] at hstands
      exact hnew hstands
    rw [← hgoal] at hlead
    rw [heq] at hlead hplaces hout ⊢
    obtain ⟨M₁, hreach, -, M₂, hstep, -, hM₂⟩ := hlead ([last] ++ []) m hplaces.left (.refl m)
    rw [List.append_nil] at hreach
    obtain ⟨enough, hrun⟩ := Machine.run_of_reaches_unknown hreach hstep hout
    exact ⟨enough, fun limit hlimit => ⟨_, hrun limit hlimit, hsame (hM₂.withLimit limit)⟩⟩
  · intro before after hnodup whole
    have hplaces := Machine.located_targets hnodup
    have hstep : Step m st (some goal) m' := hgoal ▸ .cjump hleft hright
    have htarget : (targets whole)[goal]? = some (.label goal :: after) := by
      simpa using hplaces.right.right.head
    have hbehind := hplaces.left
    rw [List.append_nil] at hbehind
    obtain ⟨M, hreach, -, hM⟩ := hstep.straightened ⟨le_rfl, hcalls⟩ hcode le_rfl hbehind htarget (.refl m)
    exact ⟨M, hreach, hsame hM⟩

end Tree

/-! ## Pieces that can be coerced -/

namespace Lowered

/-- Evaluating the piece on `m` gives the word `w` and leaves `m'`. A comparison gives one or zero. -/
inductive Evaluates (m : Machine) : Lowered → (w : Word) → (m' : Machine) → Prop
  | value {e w m'} : Eval m e w m' → Evaluates m (.value e) w m'
  | relation {op left right a b m₁ m'} : Eval m left a m₁ → Eval m₁ right b m' →
    Evaluates m (.relation op left right) (.ofBool (op.holds a.value b.value)) m'

/-- The temps that stand in a piece. -/
def temps : Lowered → List Temp
  | .value e => e.temps
  | .effect st => st.temps
  | .ifThen cond body => cond.temps ++ body.temps
  | .ifElse cond body otherwise => cond.temps ++ (body.temps ++ otherwise.temps)
  | .relation _ left right => left.temps ++ right.temps
  | .missing _ => []

/-- No move in the piece has a call in its address and another in its source. -/
def callsApart : Lowered → Bool
  | .value e => e.callsApart
  | .effect st => st.callsApart
  | .ifThen cond body => cond.callsApart && body.callsApart
  | .ifElse cond body otherwise => cond.callsApart && (body.callsApart && otherwise.callsApart)
  | .relation _ left right => left.callsApart && right.callsApart
  | .missing _ => true

/-- No label stands twice in the piece, no move in it has calls on both sides, and the supply will give no
temp and no label that it has. -/
structure Ready (l : Lowered) (s : Supply) : Prop where
  labels : l.labels.Nodup
  calls : l.callsApart = true
  freshTemps : ∀ t ∈ l.temps, t.index < s.temps.next
  freshLabels : ∀ k, s.labels.next ≤ k → labelNamed k ∉ l.labels

variable {l : Lowered}

theorem Ready.of_spends {α : Type} {x : Draw α} {labels : α → List Label} {c : α} (h : l.Ready s)
    (hspends : Spends x labels l.labels) (hx : Yields x s c s') :
    (labels c).Nodup ∧ ∀ k, s'.labels.next ≤ k → labelNamed k ∉ labels c := by
  obtain ⟨hbefore, hperm⟩ := hspends _ _ _ hx
  have hdrawn : ∀ k, labelNamed k ∈ labelsBetween s s' ↔ s.labels.next ≤ k ∧ k < s'.labels.next := by
    intro k
    have hle := hbefore.2
    simp only [labelsBetween, List.mem_map_of_injective Supply.labelNamed_injective, List.mem_range'_1]
    omega
  constructor
  · refine hperm.nodup_iff.2 (List.nodup_append.2 ⟨h.labels, Supply.nodup_labelsBetween s s', ?_⟩)
    rintro x hx _ hy rfl
    obtain ⟨k, -, rfl⟩ := List.mem_map.1 hy
    exact h.freshLabels k ((hdrawn k).1 hy).1 hx
  · intro k hk hmem
    rcases List.mem_append.1 (hperm.mem_iff.1 hmem) with hthere | hdraw
    · exact h.freshLabels k (hbefore.2.trans hk) hthere
    · have hlt := ((hdrawn k).1 hdraw).2
      omega

/-! ## Each coercion -/

theorem mem_temps_verdict {op : RelOp} {left right : Expr} {result u : Temp} {t f : Label} :
    u ∈ (verdict op left right result t f).temps ↔ u = result ∨ u ∈ left.temps ++ right.temps := by
  simp only [verdict, Expr.temps, Stm.temps_ofList, List.flatMap_cons, List.flatMap_nil, Stm.temps,
    List.mem_append, List.mem_singleton, List.not_mem_nil, or_false, false_or]
  tauto

theorem callsApart_verdict (op : RelOp) (left right : Expr) (result : Temp) (t f : Label) :
    (verdict op left right result t f).callsApart = (left.callsApart && right.callsApart) := by
  simp [verdict, Expr.callsApart, Stm.ofList, Stm.callsApart, Expr.addressHasCall]

theorem Evaluates.toExpr (h : l.Evaluates m w m') (hready : l.Ready s) : ∃ e s' m'', Yields l.toExpr s e s' ∧
    Eval m e w m'' ∧ SameOn l.temps m' m'' ∧ l.temps ⊆ e.temps ∧ (Lowered.value e).Ready s' := by
  cases h with
  | @value e _ _ he => exact ⟨e, s, m', yields_toExpr_value.2 ⟨rfl, rfl⟩, he, .refl m', fun _ h => h, hready⟩
  | @relation op left right a b m₁ _ hleft hright =>
    -- the temp of the verdict is new, so the operands do not see it
    have hnew : nextTemp s ∉ left.temps ++ right.temps := fun h => absurd (hready.freshTemps _ h) (lt_irrefl _)
    obtain ⟨hnl, hnr⟩ := Tree.notMem_append.1 hnew
    obtain ⟨m'', heval, rfl⟩ := eval_verdict (o := op) (t := labelNamed s.labels.next)
      (f := labelNamed (s.labels.next + 1)) (m := m) (hleft.withTemp hnl) (hright.withTemp hnr)
      Machine.temps_withTemp_self
    have hx : Yields (Lowered.toExpr (.relation op left right)) s _ _ := yields_toExpr_relation.2
      ⟨_, _, _, _, _, gives_temp.2 ⟨rfl, rfl⟩, gives_label.2 ⟨rfl, rfl⟩, gives_label.2 ⟨rfl, rfl⟩, rfl⟩
    obtain ⟨hlabels, hfresh⟩ := hready.of_spends (toExpr_spends _) hx
    refine ⟨_, _, _, hx, heval, ?_, fun u hu => mem_temps_verdict.2 (.inr hu), hlabels,
      (callsApart_verdict ..).trans hready.calls, fun u hu => ?_, hfresh⟩
    · split
      · exact (SameOn.refl m').withTemp hnew
      · exact ((SameOn.refl m').withTemp hnew).withTemp hnew
    · rcases mem_temps_verdict.1 hu with rfl | hu
      · exact Nat.lt_succ_self _
      · exact Nat.lt_succ_of_lt (hready.freshTemps u hu)

theorem Evaluates.toStm (h : l.Evaluates m w m') (hready : l.Ready s) : ∃ st s', Yields l.toStm s st s' ∧
    st.Ends m m' ∧ l.temps ⊆ st.temps ∧ st.labels.Nodup ∧ st.callsApart = true := by
  cases h with
  | @value e _ _ he =>
    exact ⟨.exp e, s, yields_toStm_value.2 ⟨rfl, rfl⟩, .next (.exp he) .done, fun _ h => h, hready.labels, hready.calls⟩
  | @relation op left right a b m₁ _ hleft hright =>
    have hx : Yields (Lowered.toStm (.relation op left right)) s _ _ :=
      yields_toStm_relation.2 ⟨_, gives_label.2 ⟨rfl, rfl⟩, rfl⟩
    -- both outcomes go to the one label behind the comparison
    have hstep : Tree.Step m (.cjump op left right (labelNamed s.labels.next) (labelNamed s.labels.next)) _ m' :=
      .cjump hleft hright
    rw [ite_self] at hstep
    refine ⟨_, _, hx, .goto hstep (List.singleton_append).symm (.next .label .done), fun u hu => ?_,
      (hready.of_spends (toStm_spends _) hx).1, ?_⟩
    · simpa [temps, Stm.temps] using hu
    · simpa [callsApart, Stm.ofList, Stm.callsApart] using hready.calls

theorem Evaluates.toBranch (h : l.Evaluates m w m') (hready : l.Ready s) {ifTrue ifFalse : Label}
    (hifTrue : ifTrue ∉ l.labels) (hifFalse : ifFalse ∉ l.labels) : ∃ st, l.toBranch ifTrue ifFalse = .ok st ∧
      BranchesTo m st.linearize (if w.value = 0 then ifFalse else ifTrue) (SameOn l.temps m') := by
  have hgoal : (if w.value = 0 then ifFalse else ifTrue) ∉ l.labels := by
    split
    · exact hifFalse
    · exact hifTrue
  cases h with
  | @value e _ _ he =>
    have hlabels : (Stm.cjump .ne e (.const 0) ifTrue ifFalse).labels = e.labels := by simp
    have hcalls : (Stm.cjump .ne e (.const 0) ifTrue ifFalse).callsApart = true := by
      simpa [callsApart, Stm.callsApart, Expr.callsApart] using hready.calls
    have hdecides : (if w.value = 0 then ifFalse else ifTrue) =
        if RelOp.ne.holds w.value (Word.narrow 0).value then ifTrue else ifFalse := by
      simp [RelOp.holds, show (Word.narrow 0).value = 0 from rfl]
    have hbranch := Tree.branchesTo_linearize (hlabels ▸ hready.labels) hcalls he .const hdecides (hlabels ▸ hgoal)
    exact ⟨_, rfl, by simpa [temps, Expr.temps] using hbranch⟩
  | @relation op left right a b m₁ _ hleft hright =>
    have hlabels : (Stm.cjump op left right ifTrue ifFalse).labels = left.labels ++ right.labels := by simp
    exact ⟨_, rfl, Tree.branchesTo_linearize (hlabels ▸ hready.labels) hready.calls hleft hright
      (by cases op.holds a.value b.value <;> simp [Word.ofBool, Word.value]) (hlabels ▸ hgoal)⟩

/-! ## Negation -/

theorem combine_minus_ofBool (b : Bool) : Word.combine .minus (.narrow 1) (.ofBool b) = .ofBool !b := by
  cases b <;> decide

/-- The piece negated `k` times over. -/
def negateTimes : (k : Nat) → Lowered → Draw Lowered
  | 0, l => pure l
  | k + 1, l => do
    let l' ← l.negate
    l'.negateTimes k

theorem yields_negateTimes_succ {k : Nat} {l l' : Lowered} : Yields (l.negateTimes (k + 1)) s l' s' ↔
    ∃ l₁ s₁, Yields l.negate s l₁ s₁ ∧ Yields (l₁.negateTimes k) s₁ l' s' := by
  rw [negateTimes, yields_bind]

/-- Evaluating the piece has the truth value `b` and the effects that lead from `m` to `m'`. -/
def Decides (l : Lowered) (s : Supply) (ts : List Temp) (m : Machine) (b : Bool) (m' : Machine) : Prop :=
  l.Ready s ∧ ts ⊆ l.temps ∧ ∃ m'', l.Evaluates m (.ofBool b) m'' ∧ SameOn ts m' m''

theorem Decides.negate {b : Bool} (h : l.Decides s ts m b m') :
    ∃ l' s', Yields l.negate s l' s' ∧ l'.Decides s' ts m (!b) m' := by
  obtain ⟨hready, hts, m₁, heval, hsame⟩ := h
  obtain ⟨e, s', m₂, hx, he, hsame', hle, hready'⟩ := heval.toExpr hready
  refine ⟨_, s', yields_negate.2 ⟨e, hx, rfl⟩, ?_, List.Subset.trans hts hle, m₂, ?_, hsame.trans (hsame'.mono hts)⟩
  · exact ⟨hready'.labels, hready'.calls, hready'.freshTemps, hready'.freshLabels⟩
  · rw [← combine_minus_ofBool]
    exact .value (.binOp .const he)

theorem Decides.negateTimes {b : Bool} (h : l.Decides s ts m b m') (k : Nat) : ∃ l' s',
    Yields (l.negateTimes k) s l' s' ∧ l'.Decides s' ts m (if Even k then b else !b) m' := by
  induction k generalizing l s b with
  | zero => exact ⟨l, s, yields_pure.2 ⟨rfl, rfl⟩, by simpa using h⟩
  | succ k ih =>
    obtain ⟨l₁, s₁, hnegate, h₁⟩ := h.negate
    obtain ⟨l', s', hrest, h'⟩ := ih h₁
    refine ⟨l', s', yields_negateTimes_succ.2 ⟨l₁, s₁, hnegate, hrest⟩, ?_⟩
    have hparity : (if Even (k + 1) then b else !b) = if Even k then !b else !!b := by
      by_cases hk : Even k <;> simp [Nat.even_add_one, hk]
    rwa [hparity]

/-! ## Agreement -/

/-- Each coercion of the piece succeeds, and the linear code it gives leads from `m` to `m'` as far as memory,
calls and the temps in `ts` go. As an expression it puts `w` where it is wanted, and as a branch it goes
to the first label exactly if `w` is not zero. -/
structure Agreement (l : Lowered) (s : Supply) (ts : List Temp) (m : Machine) (w : Word) (m' : Machine) : Prop where
  toExpr : ∃ e s', Yields l.toExpr s e s' ∧ ∀ r ∉ ts,
    Finishes m (Stm.move (.temp r) e).linearize fun M => M.temps[r]? = some w ∧ SameOn ts m' M
  toStm : ∃ st s', Yields l.toStm s st s' ∧ Finishes m st.linearize (SameOn ts m')
  toBranch : ∀ ifTrue ifFalse, ifTrue ∉ l.labels → ifFalse ∉ l.labels →
    ∃ st, l.toBranch ifTrue ifFalse = .ok st ∧
      BranchesTo m st.linearize (if w.value = 0 then ifFalse else ifTrue) (SameOn ts m')

theorem Evaluates.agreement {m'' : Machine} (h : l.Evaluates m w m'') (hready : l.Ready s) (hts : ts ⊆ l.temps)
    (hsame : SameOn ts m' m'') : l.Agreement s ts m w m' := by
  constructor
  · obtain ⟨e, s', m₁, hx, he, hsame', hle, hready'⟩ := h.toExpr hready
    refine ⟨e, s', hx, fun r hr => ?_⟩
    have hends : (Stm.move (.temp r) e).Ends m (m₁.withTemp r w) := .next (.move (.temp he)) .done
    have hlabels : (Stm.move (.temp r) e).labels.Nodup := by simpa [labels] using hready'.labels
    have hcalls : (Stm.move (.temp r) e).callsApart = true := by
      simpa [Stm.callsApart, Expr.addressHasCall, Expr.callsApart, callsApart] using hready'.calls
    refine (Stm.finishes_linearize _ hlabels hcalls hends).mono fun M hM => ⟨?_, ?_⟩
    · rw [hM.temps r (by simp [Stm.temps, Expr.temps]), Machine.temps_withTemp_self]
    · have hstart := (hsame.trans (hsame'.mono hts)).withTemp (w := w) hr
      exact hstart.trans (hM.mono fun t ht => List.mem_append_right _ (hle (hts ht)))
  · obtain ⟨st, s', hx, hends, hle, hlabels, hcalls⟩ := h.toStm hready
    refine ⟨st, s', hx, (st.finishes_linearize hlabels hcalls hends).mono fun M hM => ?_⟩
    exact hsame.trans (hM.mono (List.Subset.trans hts hle))
  · intro ifTrue ifFalse hifTrue hifFalse
    obtain ⟨st, hx, hbranch⟩ := h.toBranch hready hifTrue hifFalse
    exact ⟨st, hx, hbranch.mono fun M hM => hsame.trans (hM.mono hts)⟩

/-- The three coercions of a value or a comparison agree. Those of a comparison that is negated any number
of times agree as well, and its truth value is the first one or its negation. -/
theorem coercions_agree (l : Lowered) (s : Supply) (m m' : Machine) (w : Word) (hready : l.Ready s)
    (h : l.Evaluates m w m') : l.Agreement s l.temps m w m' ∧
      ∀ op left right, l = .relation op left right → ∃ a m₁ b, Eval m left a m₁ ∧ Eval m₁ right b m' ∧
        w = .ofBool (op.holds a.value b.value) ∧ ∀ k, ∃ l' s', Yields (l.negateTimes k) s l' s' ∧
          l'.Agreement s' l.temps m (.ofBool (if Even k then op.holds a.value b.value
            else !op.holds a.value b.value)) m' := by
  refine ⟨h.agreement hready (List.Subset.refl _) (.refl m'), ?_⟩
  rintro op left right rfl
  cases h with
  | @relation _ _ _ a b m₁ _ hleft hright =>
    refine ⟨a, m₁, b, hleft, hright, rfl, fun k => ?_⟩
    have hdecides : Decides _ s _ m _ m' := ⟨hready, List.Subset.refl _, m', .relation hleft hright, .refl m'⟩
    obtain ⟨l', s', hx, hready', hts, m'', heval, hsame⟩ := hdecides.negateTimes k
    exact ⟨l', s', hx, heval.agreement hready' hts hsame⟩

/-- Whether a temp is above what it counts down to. -/
def aboveCountdown : Lowered := .relation .gt (.temp ⟨1⟩) (.eseq countdown (.temp ⟨1⟩))

theorem aboveCountdown_ready : aboveCountdown.Ready (Supply.startingAt 2) := by
  refine ⟨by decide +kernel, by decide +kernel, by decide +kernel, fun k _ hmem => ?_⟩
  have hlabels : aboveCountdown.labels = [⟨"again"⟩, ⟨"done"⟩] := by decide +kernel
  have hname : (labelNamed k).name.toList.head? = some 'L' := by simp [labelNamed]
  rw [hlabels] at hmem
  simp only [List.mem_cons, List.not_mem_nil, or_false] at hmem
  rcases hmem with heq | heq <;> rw [heq] at hname <;> revert hname <;> decide

theorem coercions_agree_aboveCountdown : aboveCountdown.Ready (Supply.startingAt 2) ∧
    aboveCountdown.Evaluates (afterSetting [(1, 2)]) (.narrow 1) (afterSetting [(1, 2), (1, 1), (1, 0)]) ∧
    aboveCountdown.Agreement (Supply.startingAt 2) aboveCountdown.temps (afterSetting [(1, 2)]) (.narrow 1)
      (afterSetting [(1, 2), (1, 1), (1, 0)]) ∧
    ∃ l' s', Yields (aboveCountdown.negateTimes 3) (Supply.startingAt 2) l' s' ∧
      l'.Agreement s' aboveCountdown.temps (afterSetting [(1, 2)]) (.narrow 0)
        (afterSetting [(1, 2), (1, 1), (1, 0)]) := by
  have hleft : Eval (afterSetting [(1, 2)]) (.temp ⟨1⟩) (.narrow 2) _ := .temp (by decide +kernel)
  have hright := Eval.eseq Tree.countdown_runs (.temp (t := ⟨1⟩) (w := .narrow 0) (by decide +kernel))
  have heval : aboveCountdown.Evaluates _ (.narrow 1) _ := .relation hleft hright
  obtain ⟨hagree, hnegated⟩ := coercions_agree _ _ _ _ _ aboveCountdown_ready heval
  obtain ⟨a, _, b, -, -, hword, htimes⟩ := hnegated _ _ _ rfl
  have hholds : RelOp.gt.holds a.value b.value = true := by
    cases hb : RelOp.gt.holds a.value b.value with
    | true => rfl
    | false =>
      rw [hb] at hword
      revert hword
      decide
  obtain ⟨l', s', hx, hagree'⟩ := htimes 3
  rw [if_neg (by decide), hholds] at hagree'
  exact ⟨aboveCountdown_ready, heval, hagree, l', s', hx, hagree'⟩

end Lowered

end Lowering
