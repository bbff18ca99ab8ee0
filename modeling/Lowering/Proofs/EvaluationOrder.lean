import Lowering.Proofs.Lowered.Agreement

/-!
# The order of calls

The calls of a tree come from left to right, those of an address before those of the source of the
same move. Linear code makes the same calls in the same order, unless hoisting leaves a call on
both sides of a move. The machine then calls from the source first.
-/

namespace Lowering.Tree

variable {places : Std.ExtTreeMap Label (List Stm)} {n : Nat} {m m₁ m₂ m' M : Machine} {s s' : Supply}
  {a e : Expr} {w address : Word}

/-! ## Moves between quiet trees -/

theorem Computes.shows {h : Hoisted} (hx : Computes places n e.hoist m w m') (hquiet : e.isQuiet = true)
    (hg : Gives e.hoist s h s') (hn : n ≤ s.temps.next) (hM : Agree n m M) : Shows n h.value w m' M := by
  have hlead := hx _ _ _ hg hn
  rw [(e.hoistsNothing _ _ _ hg).2 hquiet] at hlead
  exact hlead.of_nil hM

theorem gives_straighten_move_quiet {code : List Stm} (ha : a.isQuiet = true) (he : e.isQuiet = true)
    (hg : Gives (Stm.move (.mem a) e).straighten s code s') : ∃ left s₁ right, Gives a.hoist s left s₁ ∧
      Gives e.hoist s₁ right s' ∧ code = [.move (.mem left.value) right.value] := by
  obtain ⟨p, hp, rfl⟩ := gives_receive_mem.1 hg
  obtain ⟨left, s₁, right, s₂, left', hleft, hright, hsave, rfl⟩ := Hoisted.gives_pair.1 hp
  have hnone := (e.hoistsNothing _ _ _ hright).2 he
  obtain ⟨rfl, rfl⟩ : left' = left ∧ s' = s₂ := by simpa [hnone] using Hoisted.gives_saveFrom.1 hsave
  refine ⟨left', s₁, right, hleft, hright, ?_⟩
  rw [(a.hoistsNothing _ _ _ hleft).2 ha, hnone, List.append_nil, List.nil_append]

/-- Where hoisting takes nothing out of either side, the source is evaluated on the machine as it
is, and the address on what that leaves. -/
theorem performs_move_quiet (ha : a.isQuiet = true) (he : e.isQuiet = true)
    (hn : (Stm.move (.mem a) e).tempBound ≤ n) (hsource : Eval m e w m₁) (haddress : Eval m₁ a address m₂) :
    Performs places n (Stm.move (.mem a) e).straighten m
      { m₂ with memory := m₂.memory.insert address.value w } := by
  obtain ⟨hna, hne⟩ := Nat.max_le.1 hn
  have hvalue : Computes places n e.hoist m w m₁ := hsource.computes hne (e.inOrder_of_isQuiet he)
  have hplace : Computes places n a.hoist m₁ address m₂ := haddress.computes hna (a.inOrder_of_isQuiet ha)
  intro s code s' hg hs after M _ hM
  obtain ⟨left, s₁, right, hleft, hright, rfl⟩ := gives_straighten_move_quiet ha he hg
  have hle := a.hoist_advances _ _ _ hleft
  obtain ⟨M₁, hw, hM₁⟩ := hvalue.shows he hright (hs.trans hle) hM
  obtain ⟨M₂, hword, hM₂⟩ := hplace.shows ha hleft hs hM₁
  let M' : Machine := { M₂ with memory := M₂.memory.insert address.value w }
  have hstep : Yields (Exec.step (.move (.mem left.value) right.value)) M none M' :=
    Exec.yields_step_move.2 ⟨w, M₁, hw, (Exec.yields_assign (by simp)).2 ⟨address, M₂, hword, rfl⟩, rfl⟩
  refine ⟨M', .next hstep .refl, .of_temps_eq ?_, hM₂.storeAt address.value w⟩
  exact (Exec.eval_keeps _ hword).1.trans (Exec.eval_keeps _ hw).1

/-! ## Whole statements -/

/-- Linear code makes the calls of the tree in the order of the tree where no source overtakes an
address. Where nothing is taken out of a move, it makes those of the source first. -/
theorem Stm.calls_linearize (st : Stm) (m m' : Machine) (hlabels : st.labels.Nodup) :
    (st.inOrder = true → st.Ends m m' → Finishes m st.linearize (SameOn st.temps m')) ∧
      ∀ a e w address m₁, st = .move (.mem a) e → a.isQuiet = true → e.isQuiet = true →
        Eval m e w m₁ → Eval m₁ a address m' →
        Finishes m st.linearize (SameOn st.temps { m' with memory := m'.memory.insert address.value w }) := by
  refine ⟨st.finishes_of_inOrder hlabels, ?_⟩
  rintro a e w address m₁ rfl ha he hsource haddress
  have hrun := run_linearize_of_performs _ hlabels (performs_move_quiet ha he le_rfl hsource haddress)
  exact Finishes.mono hrun fun _ hM => .of_agree hM fun _ ht => index_lt_tempBound _ ht

/-- Calls `p` with a constant. -/
def printed (v : Int32) : Expr := .call (.name ⟨"p"⟩) [.const v]

theorem eval_printed (v : Int32) (hp : "p" ∈ m.printers) : Eval m (printed v) (.narrow 0)
    { m with output := m.output.push v.toInt64, calls := m.calls.push ⟨"p", [v.toInt64]⟩ } :=
  .call .name (.cons .const .nil) (if_pos hp)

/-- The source sets a temp before it calls, so that the address is saved first. -/
def settingBetween : Stm := .move (.mem (printed 1)) (.eseq (.move (.temp ⟨0⟩) (.const 0)) (printed 2))

/-- Nothing stands between the calls. -/
def printingTwice : Stm := .move (.mem (printed 1)) (printed 2)

def printer : Machine := { printers := ["p"] }

theorem calls_linearize_printing :
    settingBetween.inOrder = true ∧ printingTwice.inOrder = false ∧
      Finishes printer settingBetween.linearize (fun M => M.calls = #[⟨"p", [1]⟩, ⟨"p", [2]⟩]) ∧
      Finishes printer printingTwice.linearize (fun M => M.calls = #[⟨"p", [2]⟩, ⟨"p", [1]⟩]) := by
  refine ⟨rfl, rfl, ?_, ?_⟩
  · have haddress : Eval printer (printed 1) _ _ := eval_printed 1 (by decide)
    have hends : settingBetween.Ends printer _ := .next (.move (.mem haddress
      (.eseq (.next (.move (.temp .const)) .done) (eval_printed 2 (by decide))))) .done
    exact ((settingBetween.calls_linearize _ _ (by decide)).1 rfl hends).mono fun _ hM => hM.calls
  · have hsource : Eval printer (printed 2) _ _ := eval_printed 2 (by decide)
    have haddress := eval_printed (m := { printer with output := #[2], calls := #[⟨"p", [2]⟩] }) 1 (by decide)
    exact ((printingTwice.calls_linearize _ _ (by decide)).2 _ _ _ _ _ rfl rfl rfl hsource haddress).mono fun _ hM =>
      hM.calls

/-- The tree calls from the address first, and its linear code from the source. -/
theorem address_called_last : printingTwice.labels = [] ∧
    (∃ m', printingTwice.Ends printer m' ∧ m'.calls = #[⟨"p", [1]⟩, ⟨"p", [2]⟩]) ∧
    (printer.run printingTwice.linearize).1 = .ok 1 ∧
    (printer.run printingTwice.linearize).2.calls = #[⟨"p", [2]⟩, ⟨"p", [1]⟩] := by
  have haddress : Eval printer (printed 1) _ _ := eval_printed 1 (by decide)
  have hends : printingTwice.Ends printer _ :=
    .next (.move (.mem haddress (eval_printed 2 (by decide)))) .done
  exact ⟨rfl, ⟨_, hends, rfl⟩, rfl, by decide +kernel⟩

end Lowering.Tree
