import Lowering.Proofs.Linear.Marks
import Lowering.Proofs.Machine.Reach

/-!
# Hoisted operands keep their values

A machine that runs linear code differs from one that runs the tree in the temps that hold saved
values, and in nothing else. The operands of a tree come out of hoisting with the values they have
in the tree: an operand that a later statement could change is in a temp that no later statement
writes.
-/

namespace Lowering.Tree

open Lowering.Machine (Reaches Located)
open Lowering.Exec (eval evalAll)

variable {places : Std.ExtTreeMap Label (List Stm)} {n lo mid hi : Nat} {m m' M M' M'' : Machine}

/-! ## Machines that agree -/

/-- `M` is `m` as far as code can see that uses only temps below `n`. -/
structure Agree (n : Nat) (m M : Machine) : Prop where
  temps : ∀ t : Temp, t.index < n → M.temps[t]? = m.temps[t]?
  memory : M.memory = m.memory
  routines : M.routines = m.routines
  cells : M.cells = m.cells
  printers : M.printers = m.printers
  output : M.output = m.output
  calls : M.calls = m.calls

namespace Agree

theorem refl (m : Machine) : Agree n m m := ⟨fun _ _ => rfl, rfl, rfl, rfl, rfl, rfl, rfl⟩

theorem setAbove (h : Agree n m M) {t : Temp} (ht : n ≤ t.index) (w : Word) :
    Agree n m { M with temps := M.temps.insert t w } := by
  refine ⟨fun u hu => ?_, h.memory, h.routines, h.cells, h.printers, h.output, h.calls⟩
  rw [getElem?_insert_ne (by grind), h.temps u hu]

theorem setTemp (h : Agree n m M) (t : Temp) (w : Word) :
    Agree n { m with temps := m.temps.insert t w } { M with temps := M.temps.insert t w } := by
  refine ⟨fun u hu => ?_, h.memory, h.routines, h.cells, h.printers, h.output, h.calls⟩
  simp only [Std.ExtTreeMap.getElem?_insert, h.temps u hu]

theorem storeAt (h : Agree n m M) (address : Int64) (w : Word) :
    Agree n { m with memory := m.memory.insert address w }
      { M with memory := M.memory.insert address w } :=
  ⟨h.temps, by rw [h.memory], h.routines, h.cells, h.printers, h.output, h.calls⟩

theorem loadWord (h : Agree n m M) (address : Int64) : M.loadWord address = m.loadWord address := by
  rw [Machine.loadWord, Machine.loadWord, h.memory]

theorem answer (h : Agree n m M) {name : String} {args : List Int64} {v : Int64}
    (ha : m.answer name args = (.ok v, m')) :
    ∃ M', M.answer name args = (.ok v, M') ∧ Agree n m' M' := by
  obtain ⟨cells, output, calls, rfl, hsame⟩ := Machine.answer_ok ha
  exact ⟨_, hsame M h.printers h.routines h.cells h.output h.calls, h.temps, h.memory, h.routines, rfl, h.printers, rfl,
    rfl⟩

theorem withLimit (h : Agree n m M) (limit : Nat) : Agree n m (M.withLimit limit) :=
  ⟨h.temps, h.memory, h.routines, h.cells, h.printers, h.output, h.calls⟩

end Agree

/-- Of the temps from `n` on, only those from `lo` up to `hi` may have changed. -/
def Spares (n lo hi : Nat) (M M' : Machine) : Prop :=
  ∀ t : Temp, n ≤ t.index → t.index < lo ∨ hi ≤ t.index → M'.temps[t]? = M.temps[t]?

namespace Spares

theorem of_temps_eq (h : M'.temps = M.temps) : Spares n lo hi M M' := fun _ _ _ => by rw [h]

theorem trans (h : Spares n lo mid M M') (h' : Spares n mid hi M' M'') (hlo : lo ≤ mid)
    (hhi : mid ≤ hi) : Spares n lo hi M M'' := by
  intro t ht hout
  rw [h' t ht (by omega), h t ht (by omega)]

theorem widen {lo' hi' : Nat} (h : Spares n lo hi M M') (hlo : lo' ≤ lo) (hhi : hi ≤ hi') :
    Spares n lo' hi' M M' := fun t ht hout => h t ht (by omega)

theorem trans_same (h : Spares n lo hi M M') (h' : Spares n lo hi M' M'') : Spares n lo hi M M'' := by
  intro t ht hout
  rw [h' t ht hout, h t ht hout]

end Spares

/-! ## Code that leads on -/

/-- From a machine that agrees with `m`, the code leads to its end on a machine where `Q` holds. Of
the temps from `n` on, it writes only those from `lo` up to `hi`. -/
def Leads (places : Std.ExtTreeMap Label (List Stm)) (n lo hi : Nat) (code : List Stm) (m : Machine)
    (Q : Machine → Prop) : Prop :=
  ∀ after M, Located places code after → Agree n m M →
    ∃ M', Reaches places (code ++ after) M after M' ∧ Spares n lo hi M M' ∧ Q M'

/-- The expression has the value `w`, and what it leaves agrees with `m'`. -/
def Shows (n : Nat) (e : Expr) (w : Word) (m' M : Machine) : Prop :=
  ∃ M', Yields (eval e) M w M' ∧ Agree n m' M'

/-- The expressions have the values `values`, and what they leave agrees with `m'`. -/
def ShowsAll (n : Nat) (es : List Expr) (values : List Int64) (m' M : Machine) : Prop :=
  ∃ M', Yields (evalAll es) M values M' ∧ Agree n m' M'

/-- The left expression has the value `a` and then the right one the value `b`. -/
def ShowsBoth (n : Nat) (l r : Expr) (a b : Word) (m' M : Machine) : Prop :=
  ∃ M', Yields (eval l) M a M' ∧ Shows n r b m' M'

namespace Leads

variable {code code' later : List Stm} {P Q : Machine → Prop} {m₁ m₂ : Machine}

theorem nil (hQ : ∀ M, Agree n m M → Q M) : Leads places n lo hi [] m Q := by
  intro after M _ hM
  exact ⟨M, .refl, .of_temps_eq rfl, hQ M hM⟩

theorem of_nil (h : Leads places n lo hi [] m Q) (hM : Agree n m M) : Q M := by
  obtain ⟨M', hreach, -, hQ⟩ := h [] M .nil hM
  rwa [hreach.eq_of_nil.2] at hQ

theorem mono (h : Leads places n lo hi code m P) (hQ : ∀ M, P M → Q M) :
    Leads places n lo hi code m Q := by
  intro after M hplace hM
  obtain ⟨M', hreach, hspares, hP⟩ := h after M hplace hM
  exact ⟨M', hreach, hspares, hQ M' hP⟩

theorem append (h : Leads places n lo mid code m (Agree n m₁))
    (h' : Leads places n mid hi code' m₁ Q) (hlo : lo ≤ mid) (hhi : mid ≤ hi) :
    Leads places n lo hi (code ++ code') m Q := by
  intro after M hplace hM
  obtain ⟨M₁, hreach, hspares, hM₁⟩ := h (code' ++ after) M hplace.left hM
  obtain ⟨M₂, hreach', hspares', hQ⟩ := h' after M₁ hplace.right hM₁
  rw [List.append_assoc]
  exact ⟨M₂, hreach.trans hreach', hspares.trans hspares' hlo hhi, hQ⟩

theorem then_step {s : Stm} (h : Leads places n lo hi code m P)
    (hstep : ∀ M, P M → ∃ M', Yields (Exec.step s) M none M' ∧ Spares n lo hi M M' ∧ Q M') :
    Leads places n lo hi (code ++ [s]) m Q := by
  intro after M hplace hM
  obtain ⟨M₁, hreach, hspares, hP⟩ := h ([s] ++ after) M hplace.left hM
  obtain ⟨M₂, hs, hspares', hQ⟩ := hstep M₁ hP
  rw [List.append_assoc]
  exact ⟨M₂, hreach.trans (.next hs .refl), hspares.trans_same hspares', hQ⟩

end Leads

/-! ## Saved operands -/

theorem yields_of_isSteady {e : Expr} {w : Word} (hsteady : e.isSteady = true)
    (h : Yields (eval e) M w M') : M' = M ∧ ∀ M, Yields (eval e) M w M := by
  cases e with
  | const v =>
    obtain ⟨rfl, rfl⟩ := Exec.yields_const.1 h
    exact ⟨rfl, fun _ => Exec.yields_const.2 ⟨rfl, rfl⟩⟩
  | longConst v =>
    obtain ⟨rfl, rfl⟩ := Exec.yields_longConst.1 h
    exact ⟨rfl, fun _ => Exec.yields_longConst.2 ⟨rfl, rfl⟩⟩
  | name l => exact absurd h Exec.not_yields_name
  | _ => simp [Expr.isSteady] at hsteady

/-- An operand keeps its value while the statements of later operands run. -/
theorem Leads.save {h h' : Hoisted} {s s' : Supply} {later : List Stm} {w : Word} {m₁ : Machine}
    {Q : Machine → Prop} (hsave : Gives (h.saveFrom later) s h' s')
    (hvalue : Leads places n lo mid h.before m (Shows n h.value w m₁))
    (hlater : Leads places n mid s.temps.next later m₁ Q)
    (hn : n ≤ lo) (hlo : lo ≤ mid) (hhi : mid ≤ s.temps.next) :
    Leads places n lo s'.temps.next (h'.before ++ later) m
      (fun M => ∃ M', Yields (eval h'.value) M w M' ∧ Q M') := by
  intro after M hplace hM
  rcases Hoisted.gives_saveFrom.1 hsave with ⟨rfl | hsteady, rfl, rfl⟩ | ⟨-, -, rfl, rfl⟩
  · -- nothing runs in between, so the value is used where it was computed
    rw [List.append_nil] at hplace ⊢
    obtain ⟨M₁, hreach, hspares, M₂, hw, hM₂⟩ := hvalue after M hplace hM
    exact ⟨M₁, hreach, hspares.trans (.of_temps_eq rfl) hlo hhi, M₂, hw, hlater.of_nil hM₂⟩
  · obtain ⟨M₁, hreach, hspares, M₂, hw, hM₂⟩ := hvalue (later ++ after) M hplace.left hM
    obtain ⟨rfl, hsame⟩ := yields_of_isSteady hsteady hw
    obtain ⟨M₃, hreach', hspares', hQ⟩ := hlater after M₂ hplace.right hM₂
    rw [List.append_assoc]
    exact ⟨M₃, hreach.trans hreach', hspares.trans hspares' hlo hhi, M₃, hsame M₃, hQ⟩
  · -- the temp of the value comes after all that the later statements write
    have hplace' := hplace.left
    rw [Hoisted.savedIn] at hplace' ⊢
    obtain ⟨M₁, hreach, hspares, M₂, hw, hM₂⟩ := hvalue _ M hplace'.left hM
    let M₃ : Machine := { M₂ with temps := M₂.temps.insert (nextTemp s) w }
    have hmove : Yields (Exec.step (.move (.temp (nextTemp s)) h.value)) M₁ none M₃ :=
      Exec.yields_step_move.2 ⟨w, M₂, hw, Exec.yields_assign_temp.2 rfl, rfl⟩
    have hM₃ : Agree n m₁ M₃ := hM₂.setAbove (t := nextTemp s) (by grind) w
    obtain ⟨M₄, hreach', hspares', hQ⟩ := hlater after M₃ hplace.right hM₃
    have hsaved : M₄.temps[nextTemp s]? = some w := by
      rw [hspares' _ (by grind) (.inr le_rfl)]
      exact Std.ExtTreeMap.getElem?_insert_self
    refine ⟨M₄, ?_, ?_, M₄, Exec.yields_temp.2 ⟨hsaved, rfl⟩, hQ⟩
    · simpa using hreach.trans (.next hmove hreach')
    · intro t ht hout
      have hother : nextTemp s ≠ t := by grind
      rw [hspares' t ht (by grind), getElem?_insert_ne hother, (Exec.eval_keeps _ hw).1,
        hspares t ht (by grind)]

/-! ## Operands -/

section

variable {s s' : Supply} {a b w : Word} {m₁ m₂ : Machine} {x l r : Fresh Hoisted}

/-- Hoisting gives code and an expression that has the value `w` after it. -/
def Computes (places : Std.ExtTreeMap Label (List Stm)) (n : Nat) (x : Fresh Hoisted) (m : Machine)
    (w : Word) (m' : Machine) : Prop :=
  ∀ s h s', Gives x s h s' → n ≤ s.temps.next →
    Leads places n s.temps.next s'.temps.next h.before m (Shows n h.value w m')

theorem computes_pure {e : Expr} (h : ∀ M, Agree n m M → Yields (eval e) M w M) :
    Computes places n (pure ⟨[], e⟩) m w m := by
  intro s hd s' hg _
  obtain ⟨rfl, rfl⟩ := gives_pure.1 hg
  exact .nil fun M hM => ⟨M, h M hM, hM⟩

theorem Computes.pair {p : Hoisted.Pair} (hl : Computes places n l m a m₁) (hlup : Advances l)
    (hr : Computes places n r m₁ b m₂) (hrup : Advances r) (hg : Gives (Hoisted.pair l r) s p s')
    (hn : n ≤ s.temps.next) :
    Leads places n s.temps.next s'.temps.next p.before m (ShowsBoth n p.left p.right a b m₂) := by
  obtain ⟨h₁, s₁, h₂, s₂, h₁', hg₁, hg₂, hsave, rfl⟩ := Hoisted.gives_pair.1 hg
  have hle₁ := hlup _ _ _ hg₁
  have hle₂ := hrup _ _ _ hg₂
  exact .save hsave (hl _ _ _ hg₁ hn) (hr _ _ _ hg₂ (hn.trans hle₁)) hn hle₁ hle₂

theorem Computes.binOp {op : BinOp} (hl : Computes places n l m a m₁) (hlup : Advances l)
    (hr : Computes places n r m₁ b m₂) (hrup : Advances r) :
    Computes places n (Hoisted.binOp op l r) m (Word.combine op a b) m₂ := by
  intro s h s' hg hn
  obtain ⟨p, hp, rfl⟩ := Hoisted.gives_binOp.1 hg
  refine (hl.pair hlup hr hrup hp hn).mono fun M => ?_
  rintro ⟨M₁, hleft, M₂, hright, hM₂⟩
  exact ⟨M₂, Exec.yields_binOp.2 ⟨a, M₁, b, hleft, hright, rfl⟩, hM₂⟩

theorem Computes.cjump {op : RelOp} {left right : Expr} {ifTrue ifFalse : Label} {code : List Stm}
    (hl : Computes places n left.hoist m a m₁) (hr : Computes places n right.hoist m₁ b m₂)
    (hg : Gives (Stm.cjump op left right ifTrue ifFalse).straighten s code s') (hn : n ≤ s.temps.next) :
    ∃ before last, code = before ++ [last] ∧
      Leads places n s.temps.next s'.temps.next before m fun M => ∃ M',
        Yields (Exec.step last) M (some (if op.holds a.value b.value then ifTrue else ifFalse)) M' ∧
          M'.temps = M.temps ∧ Agree n m₂ M' := by
  obtain ⟨p, hp, rfl⟩ := gives_straighten_cjump.1 hg
  refine ⟨p.before, _, rfl, (hl.pair left.hoist_advances hr right.hoist_advances hp hn).mono fun M => ?_⟩
  rintro ⟨M₁, ha, M₂, hb, hM₂⟩
  have htemps : M₂.temps = M.temps := (Exec.eval_keeps _ hb).1.trans (Exec.eval_keeps _ ha).1
  exact ⟨M₂, Exec.yields_step_cjump.2 ⟨a, M₁, b, ha, hb, rfl⟩, htemps, hM₂⟩

end

/-! ## Stores -/

/-- The machine evaluates the source of a move before the address. Where at most one of them holds
a call, the order makes no difference. -/
theorem ShowsBoth.move {d source : Expr} {place w : Word} (hplace : ∀ t, d ≠ .temp t)
    (h : ShowsBoth n (Exec.addressOf d) source place w m' M)
    (hcall : (Exec.addressOf d).hasCall = false ∨ source.hasCall = false) :
    ∃ M', Yields (Exec.step (.move d source)) M none M' ∧ M'.temps = M.temps ∧
      Agree n { m' with memory := m'.memory.insert place.value w } M' := by
  obtain ⟨M₁, haddress, M₂, hsource, hM₂⟩ := h
  obtain ⟨htemps₁, hmemory₁⟩ := Exec.eval_keeps _ haddress
  obtain ⟨htemps₂, hmemory₂⟩ := Exec.eval_keeps _ hsource
  refine ⟨{ M₂ with memory := M₂.memory.insert place.value w }, ?_, htemps₂.trans htemps₁,
    hM₂.storeAt place.value w⟩
  rw [Exec.yields_step_move]
  rcases hcall with hcall | hcall
  · obtain ⟨rfl, hanywhere⟩ := Exec.eval_of_no_call _ hcall haddress
    refine ⟨w, M₂, hsource, (Exec.yields_assign hplace).2 ⟨place, M₂, ?_, rfl⟩, rfl⟩
    exact hanywhere M₂ htemps₂ hmemory₂
  · obtain ⟨rfl, hanywhere⟩ := Exec.eval_of_no_call _ hcall hsource
    refine ⟨w, M, hanywhere M htemps₁.symm hmemory₁.symm, ?_, rfl⟩
    exact (Exec.yields_assign hplace).2 ⟨place, M₂, haddress, rfl⟩

end Lowering.Tree
