import Lowering.Proofs.Linear.Meaning
import Lowering.Proofs.Lowered.Evaluation
import Lowering.Proofs.Lowered.Statement

/-!
# Stores into array elements

An array assignment moves its value to the sum of a base and an index, and the machine takes the
sum as an address. Linear code saves the sum in a temp when statements of the value run after it,
and then the move goes to that temp. So the value reaches the element exactly if nothing in it is
compared.
-/

namespace Lowering

open Lowering.Tree
open Lowering.Machine (Reaches Located)

variable {place : String → Option Tree.Expr} {fresh : Temp → Prop} {e : Source.Expr} {c : Tree.Expr}

/-! ## Values that need no statements -/

/-- A comparison stands in the expression. -/
def Source.Expr.compares : Source.Expr → Bool
  | .binary op l r => op.isRelational || l.compares || r.compares
  | .not e => e.compares
  | _ => false

theorem Source.Expr.compares_arithmetic {op : Source.Op} {o : BinOp} {l r : Source.Expr}
    (h : Lower.meaning op = .arithmetic o) :
    (Source.Expr.binary op l r).compares = (l.compares || r.compares) := by
  cases op <;> simp_all [Lower.meaning, compares, Source.Op.isRelational]

theorem Source.Expr.compares_comparison {op : Source.Op} {o : RelOp} {l r : Source.Expr}
    (h : Lower.meaning op = .comparison o) : (Source.Expr.binary op l r).compares = true := by
  cases op <;> simp_all [Lower.meaning, compares, Source.Op.isRelational]

theorem IsPlace.isQuiet (h : IsPlace c) : c.isQuiet = true := by
  obtain ⟨fp, offset | t, rfl⟩ := h <;> rfl

theorem ValueCode.isQuiet (h : ValueCode place fresh e c)
    (hplace : ∀ x c, place x = some c → IsPlace c) : c.isQuiet = !e.compares := by
  induction h with
  | @literal _ w _ => cases w <;> rfl
  | bool => rfl
  | ident h => exact (hplace _ _ h).isQuiet
  | arithmetic h _ _ hl hr =>
    rw [Source.Expr.compares_arithmetic h, Bool.not_or, Expr.isQuiet, hl, hr]
  | comparison h _ _ _ _ _ _ =>
    rw [Source.Expr.compares_comparison h]
    rfl
  | not _ h => exact h

theorem ValueCode.hoistsNothing (h : ValueCode place fresh e c)
    (hplace : ∀ x c, place x = some c → IsPlace c) : HoistsNothing c.hoist (!e.compares) :=
  h.isQuiet hplace ▸ c.hoistsNothing

/-! ## Moves to a computed address -/

section

variable {places : Std.ExtTreeMap Label (List Stm)} {n : Nat} {m m₁ m₂ : Machine} {a w : Word}

/-- The store reaches memory if the source needs no statements. Otherwise it is lost: the address
is in a temp by then, and the temp is written. -/
theorem Computes.store {op : BinOp} {l r : Tree.Expr} {source : Fresh Hoisted} {ms : List Mark}
    {nothing : Bool} (haddress : Computes places n (Expr.hoist (.binOp op l r)) m a m₁)
    (hsource : Computes places n source m₁ w m₂) (hup : Advances source)
    (hkeeps : Hoisted.Keeps source ms) (hcall : ms.any Mark.isCall = false)
    (hnothing : HoistsNothing source nothing) :
    Performs places n (Expr.receive (.binOp op l r) source) m
      { m₂ with memory := if nothing then m₂.memory.insert a.value w else m₂.memory } := by
  intro s code s' hg hn
  obtain ⟨p, hp, rfl⟩ := Hoisted.gives_store.1 hg
  have hboth := haddress.pair (Expr.hoist_advances (.binOp op l r)) hsource hup hp hn
  have hright := (Hoisted.pair_hasCall (Expr.hoist_marks (.binOp op l r)) hkeeps hp).2 hcall
  refine hboth.then_step fun M hM => ?_
  obtain ⟨h₁, s₁, h₂, s₂, h₁', hg₁, hg₂, hsave, rfl⟩ := Hoisted.gives_pair.1 hp
  obtain ⟨q, -, rfl⟩ := Hoisted.gives_binOp.1 hg₁
  have hle₁ := Expr.hoist_advances (.binOp op l r) _ _ _ hg₁
  have hle₂ := hup _ _ _ hg₂
  rcases Hoisted.gives_saveFrom.1 hsave with ⟨hkeep, rfl, rfl⟩ | ⟨hlater, -, rfl, rfl⟩
  · have hnil : h₂.before = [] := by simpa [Expr.isSteady] using hkeep
    obtain ⟨M', hstep, htemps, hM'⟩ := ShowsBoth.move (d := .binOp op q.left q.right) (by simp) hM
      (.inr hright)
    refine ⟨M', hstep, .of_temps_eq htemps, ?_⟩
    rwa [if_pos ((hnothing _ _ _ hg₂).1 hnil)]
  · obtain ⟨M₁, haddr, M₂, hw, hM₂⟩ := hM
    obtain rfl := (Exec.yields_temp.1 haddr).2
    refine ⟨_, Exec.yields_step_move.2 ⟨w, M₂, hw, Exec.yields_assign_temp.2 rfl, rfl⟩, ?_, ?_⟩
    · intro t ht hout
      rw [getElem?_insert_ne (by grind), (Exec.eval_keeps _ hw).1]
    · rw [if_neg (mt (hnothing _ _ _ hg₂).2 hlater)]
      exact hM₂.setAbove (t := nextTemp s₂) (by grind) w

end

/-! ## Array assignments -/

/-- An array assignment stores its value in the element if nothing in the value is compared, and
otherwise it stores nothing. -/
theorem run_linearize_assignAt (env : Surroundings) (work work' : Work) (site : Source.Site)
    (x : String) (index value : Source.Expr) (base i v : Tree.Expr) (m m₁ m₂ m₃ : Machine)
    (b j w : Word)
    (hlower : Yields (Lower.lowerStmt env (.assignAt site x index value)) work
      (.effect (.move (.binOp .plus base i) v)) work')
    (hbase : Eval m base b m₁) (hindex : Eval m₁ i j m₂) (hvalue : Eval m₂ v w m₃) :
    ∃ enough, ∀ limit, enough ≤ limit → ∃ steps M,
      (m.withLimit limit).run (Stm.move (.binOp .plus base i) v).linearize = (.ok steps, M) ∧
        M.memory = if value.compares then m.memory
          else m.memory.insert (Word.combine .plus b j).value w := by
  obtain ⟨base, i, w₁, v, w₂, hplace, hi, hv, heq, -⟩ | ⟨k, heq, -⟩ := Lower.yields_assignAt hlower
  swap
  · cases heq
  cases heq
  obtain ⟨hdraws, hcodei, hcodev⟩ :=
    (Lower.lowerExpr_lowers index).both (Lower.lowerExpr_lowers value) hi hv
  have hplaces : ∀ x c, Lower.placeIn work x = some c → IsPlace c := fun _ _ => Lower.isPlace_placeIn
  have hisplace := hplaces _ _ hplace
  have hlabels : (Stm.move (.binOp .plus base i) v).labels.Nodup := by
    have hnodup := hdraws.labels.nodup_iff.2 (Supply.nodup_labelsBetween _ _)
    simpa [Lower.labels_placeIn hplace] using hnodup
  have haddress : Eval m (.binOp .plus base i) (Word.combine .plus b j) m₂ := .binOp hbase hindex
  have hfitb : base.Fits (Stm.move (.binOp .plus base i) v).tempBound :=
    Expr.fits_of_hasCall hisplace.hasCall (by simp [Stm.tempBound, Expr.tempBound])
  have hfiti : i.Fits (Stm.move (.binOp .plus base i) v).tempBound :=
    Expr.fits_of_hasCall (hcodei.hasCall hplaces) (by simp [Stm.tempBound, Expr.tempBound])
  have hfitv : v.Fits (Stm.move (.binOp .plus base i) v).tempBound :=
    Expr.fits_of_hasCall (hcodev.hasCall hplaces) (by simp [Stm.tempBound])
  obtain ⟨enough, hrun⟩ := Stm.run_linearize_of_performs (.move (.binOp .plus base i) v) hlabels
    (Computes.store (haddress.hoisted (Expr.fits_binOp.2 ⟨hfitb, hfiti⟩)) (hvalue.hoisted hfitv)
      v.hoist_advances v.hoist_marks (hcodev.hasCall hplaces) (hcodev.hoistsNothing hplaces))
  refine ⟨enough, fun limit hlimit => ?_⟩
  obtain ⟨steps, M, hsteps, hM⟩ := hrun limit hlimit
  have hmemory : m₃.memory = m.memory := by
    rw [hcodev.memory_eq hplaces hvalue, hcodei.memory_eq hplaces hindex, hisplace.memory_eq hbase]
  refine ⟨steps, M, hsteps, hM.memory.trans ?_⟩
  cases value.compares <;> simp [hmemory]

/-- Work in a block that declares the array `a`, kept in the temp 2. -/
def arrayWork : Work where
  method := {
    name := "run", returns := none, site := {}
    locals := [{ name := "a", type := .intArray, site := {}, index := 1, block := some ⟨0⟩,
                 access := some (.inReg ⟨2⟩) }]
    blocks := [⟨0⟩], nextBlock := ⟨1⟩ }
  frame := { name := ⟨"A$run"⟩, formals := [], locals := [.inReg ⟨2⟩], slots := 1, fp := ⟨0⟩, rv := ⟨1⟩ }
  supply := .startingAt 3
  journal := #[]

def arraySurroundings : Surroundings := { isField := fun _ => false, println := "print", storage := {} }

/-- The array `a` starts at the address 1000. -/
def arrayMachine : Machine := ({} : Machine).setTemp ⟨2⟩ 1000

/-- The comparison of one and two. -/
def oneLessTwo : Source.Expr := .binary .less (.literal "1") (.literal "2")

/-- What it lowers to. -/
def oneLessTwoCode : Tree.Expr := Lowered.verdict .lt (.const 1) (.const 2) ⟨3⟩ ⟨"L0"⟩ ⟨"L1"⟩

theorem eval_oneLessTwo : ∃ m', Eval arrayMachine oneLessTwoCode (.narrow 1) m' := by
  obtain ⟨m', heval, -⟩ := @eval_verdict .lt (.const 1) (.const 2) ⟨3⟩ ⟨"L0"⟩ ⟨"L1"⟩ arrayMachine _ _ _ _
    .const .const Std.ExtTreeMap.getElem?_insert_self
  exact ⟨m', heval⟩

theorem run_linearize_assignAt_compared_index : ∃ work' m',
    Yields (Lower.lowerStmt arraySurroundings (.assignAt {} "a" oneLessTwo (.literal "7"))) arrayWork
      (.effect (.move (.binOp .plus (.temp ⟨2⟩) oneLessTwoCode) (.const 7))) work' ∧
    Eval arrayMachine (.temp ⟨2⟩) (.narrow 1000) arrayMachine ∧
    Eval arrayMachine oneLessTwoCode (.narrow 1) m' ∧ Eval m' (.const 7) (.narrow 7) m' ∧
    ∃ enough, ∀ limit, enough ≤ limit → ∃ steps M,
      (arrayMachine.withLimit limit).run
        (Stm.move (.binOp .plus (.temp ⟨2⟩) oneLessTwoCode) (.const 7)).linearize = (.ok steps, M) ∧
      M.memory = arrayMachine.memory.insert 1001 (.narrow 7) := by
  obtain ⟨m', hindex⟩ := eval_oneLessTwo
  have hbase : Eval arrayMachine (.temp ⟨2⟩) (.narrow 1000) arrayMachine := .temp (by decide +kernel)
  refine ⟨_, m', rfl, hbase, hindex, .const, ?_⟩
  exact run_linearize_assignAt arraySurroundings arrayWork _ {} "a" oneLessTwo (.literal "7") _ _ _ _ _ _ _ _ _ _
    rfl hbase hindex .const

/-- The store of `a[0] = 1 < 2` is lost: the value is one, and the element stays zero. -/
theorem comparison_not_stored : ∃ work' m',
    Yields (Lower.lowerStmt arraySurroundings (.assignAt {} "a" (.literal "0") oneLessTwo)) arrayWork
      (.effect (.move (.binOp .plus (.temp ⟨2⟩) (.const 0)) oneLessTwoCode)) work' ∧
    Eval arrayMachine (.temp ⟨2⟩) (.narrow 1000) arrayMachine ∧
    Eval arrayMachine (.const 0) (.narrow 0) arrayMachine ∧
    Eval arrayMachine oneLessTwoCode (.narrow 1) m' ∧
    (arrayMachine.run
      (Stm.move (.binOp .plus (.temp ⟨2⟩) (.const 0)) oneLessTwoCode).linearize).1 = .ok 5 ∧
    (arrayMachine.run
      (Stm.move (.binOp .plus (.temp ⟨2⟩) (.const 0)) oneLessTwoCode).linearize).2.load 1000 = 0 := by
  obtain ⟨m', hvalue⟩ := eval_oneLessTwo
  exact ⟨_, m', rfl, .temp (by decide +kernel), .const, hvalue, rfl, by decide +kernel⟩

end Lowering
