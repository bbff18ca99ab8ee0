import Lowering.Proofs.Table.Filling

/-!
# Lowering twice

Lowering leaves storage in the table, also where it stops with an error. The main statement says that
to lower a program again, on the table of the first time, comes to the same: every variable that is read
was bound before in the same run, or else the run stops there, and then the variable has no storage in
the table that is left either.

The second run is compared with the first at every step. Its table is that of the first run with the
storage that the first run will have left filled in.
-/

namespace Lowering

open Lowering.Source (VarDecl Program)

/-! ## Work that does not look -/

section

variable {ε σ α β : Type} {φ : σ → σ}

/-- To change the state by `φ` makes no difference to the work. If it stops with an error, this is asked
only where `φ` does not change the state that is left. -/
def Blind (φ : σ → σ) (x : ExceptT ε (StateM σ) α) : Prop :=
  ∀ s, (∀ e, (x.run.run s).1 = .error e → φ (x.run.run s).2 = (x.run.run s).2) →
    x.run.run (φ s) = ((x.run.run s).1, φ (x.run.run s).2)

theorem Blind.bind {x : ExceptT ε (StateM σ) α} {f : α → ExceptT ε (StateM σ) β} (hx : Blind φ x)
    (hf : ∀ a, Blind φ (f a)) : Blind φ (x >>= f) := by
  intro s hfix
  have hfirst := hx s
  rcases hrun : x.run.run s with ⟨e | a, s'⟩ <;> rw [hrun] at hfirst
  · rw [run_bind_error hrun] at hfix ⊢
    exact run_bind_error (hfirst fun _ _ => hfix e rfl)
  · rw [run_bind_ok hrun] at hfix ⊢
    rw [run_bind_ok (hfirst fun e he => by cases he)]
    exact hf a s' hfix

end

/-! ## Inside a procedure -/

def Work.fill (f : Nat → Option Access) (w : Work) : Work := { w with method := w.method.fill f }

theorem Work.fill_eq {f : Nat → Option Access} {w : Work} (h : w.method.fill f = w.method) : w.fill f = w := by
  rw [fill, h]

namespace Lower

variable {env : Surroundings} {f : Nat → Option Access} {α : Type} {x : Lower α}

theorem blind_inBlock (hx : Blind (Work.fill f) x) : Blind (Work.fill f) (inBlock x) := by
  intro w hfix
  have hinside := hx w.entering
  rw [run_inBlock] at hfix ⊢
  rw [run_inBlock, show (w.fill f).entering = w.entering.fill f from rfl]
  rcases hrun : x.run.run w.entering with ⟨result, w'⟩
  rw [hrun] at hfix hinside
  have hleft := w'.method.leave_fill f
  have hback : w'.method.leave.2.fill f = w'.method.leave.2 → w'.method.fill f = w'.method := Method.fill_of_leave
  rcases hleave : w'.method.leave with ⟨_ | _, method⟩
  all_goals
    simp only [hleave] at hfix hback
    rw [hleave] at hleft
    -- If the contents fail, so does the block, with the method that was left behind.
    have hdone := hinside fun e he => by
      have hfixed : method.fill f = method := congrArg Work.method (hfix e (by cases he; rfl))
      exact Work.fill_eq (hback hfixed)
    simp only [hdone, show (w'.fill f).method = w'.method.fill f from rfl, hleft]
    rfl

theorem blind_lowerLocal (d : VarDecl) : Blind (Work.fill f) (lowerLocal env d) := by
  intro w _
  have hbind := w.method.bindLocal?_fill f d.name.val (allocated env w).1
  cases hm : w.method.bindLocal? d.name.val (allocated env w).1 with
  | none =>
    rw [hm] at hbind
    rw [run_lowerLocal_unknown hm]
    exact run_lowerLocal_unknown (w := w.fill f) hbind
  | some m =>
    rw [hm] at hbind
    rw [run_lowerLocal_bound hm]
    exact run_lowerLocal_bound (w := w.fill f) hbind

theorem blind_lowerFormal (d : VarDecl) : Blind (Work.fill f) (lowerFormal env d) := by
  intro w hfix
  have hfind := w.method.parameter?_fill f d.name.val
  cases hv : w.method.parameter? d.name.val with
  | none =>
    rw [hv] at hfind
    rw [run_lowerFormal_unknown hv]
    exact run_lowerFormal_unknown (w := w.fill f) hfind
  | some v =>
    cases ha : v.access with
    | none =>
      -- The run stops here, and the method it leaves has nothing to be filled in.
      rw [run_lowerFormal_unbound hv ha] at hfix ⊢
      have hfixed : w.method.fill f = w.method := congrArg Work.method (hfix _ rfl)
      rw [Work.fill_eq hfixed, run_lowerFormal_unbound hv ha, hfix _ rfl]
    | some a =>
      have hm : w.method.bindParameter? d.name.val (allocated env w).1 = some _ := congrArg (Option.map _) hv
      have hbind := w.method.bindParameter?_fill f d.name.val (allocated env w).1
      have hkept : (v.fill f).access = some a := by rw [Variable.fill, ha]; rfl
      rw [hm] at hbind
      rw [hv] at hfind
      rw [run_lowerFormal_bound hv ha hm]
      exact run_lowerFormal_bound (w := w.fill f) hfind hkept hbind

theorem blind_resolve (x : String) : Blind (Work.fill f) (resolve env x) := by
  intro w hfix
  have hfind : ((w.fill f).method.local? x).or ((w.fill f).method.parameter? x) =
      ((w.method.local? x).or (w.method.parameter? x)).map (Variable.fill f) := by
    rw [Option.map_or, ← Method.local?_fill, ← Method.parameter?_fill]
    rfl
  cases hv : (w.method.local? x).or (w.method.parameter? x) with
  | none =>
    rw [hv] at hfind
    rw [run_resolve_unknown hv]
    exact run_resolve_unknown (w := w.fill f) hfind
  | some v =>
    cases ha : v.access with
    | none =>
      -- The run stops here as well.
      rw [run_resolve_unbound hv ha] at hfix ⊢
      rw [hfix _ rfl, run_resolve_unbound hv ha]
    | some a =>
      have hkept : (v.fill f).access = some a := by rw [Variable.fill, ha]; rfl
      rw [hv] at hfind
      rw [run_resolve_bound hv ha]
      exact run_resolve_bound (w := w.fill f) hfind hkept

theorem Woven.blind (h : Woven env x) : Blind (Work.fill f) x := by
  induction h with
  | pure | throw | draw | note => exact fun _ _ => rfl
  | bind _ _ hx hf => exact hx.bind hf
  | inBlock _ hx => exact blind_inBlock hx
  | frame g _ hg => exact fun w hfix => hg w.frame w hfix
  | lowerLocal d => exact blind_lowerLocal d
  | lowerFormal d => exact blind_lowerFormal d
  | resolve x => exact blind_resolve x
  | checkBalanced =>
    intro w _
    rw [run_checkBalanced, run_checkBalanced]
    rfl

end Lower

/-! ## Inside a unit -/

def UnitWork.fill (f : Nat → Nat → Nat → Option Access) (u : UnitWork) : UnitWork := { u with table := u.table.fill f }

namespace LowerUnit

def Place.fill (f : Nat → Nat → Nat → Option Access) (p : Place) : Place :=
  { p with cls := p.cls.fill (f p.classId.index), method := p.method.fill (f p.classId.index p.methodId.index) }

variable {options : Options} {storage : Storage} {f : Nat → Nat → Nat → Option Access}

theorem findPlace_fill (t : Table) (cls method : String) :
    findPlace (t.fill f) cls method = (findPlace t cls method).map (Place.fill f) := by
  unfold findPlace
  rw [Table.find?_fill]
  cases t.find? cls with
  | none => rfl
  | some found =>
    simp only [Option.map_some, Class.find?_fill]
    cases found.2.find? method <;> rfl

theorem startIn_fill (storage : Storage) (p : Place) (u : UnitWork) :
    startIn storage (p.fill f) (u.fill f) = (startIn storage p u).fill (f p.classId.index p.methodId.index) := by
  have hlength : (p.fill f).method.parameters.length = p.method.parameters.length := List.length_map _
  unfold startIn Work.fill Method.fill
  dsimp only
  rw [hlength, ← Method.bindParameters_fill]
  rfl

theorem surroundingsIn_fill (options : Options) (storage : Storage) (p : Place) (u : UnitWork) :
    surroundingsIn options storage (p.fill f) (u.fill f) = surroundingsIn options storage p u := by
  unfold surroundingsIn
  congr 1
  funext name
  rw [← Table.field?_fill (f := f) u.table]
  rfl

theorem closing_fill (p : Place) (t : Table) (result : Except LowerError Tree.Stm) (w : Work) :
    closing (p.fill f) (t.fill f) (result, w.fill (f p.classId.index p.methodId.index)) =
      ((closing p t (result, w)).1, (closing p t (result, w)).2.fill f) := by
  simp only [closing, UnitWork.fill, Table.fill_setMethod]
  rfl

theorem blind_lowerAt (cls method : String) (e : Event) (b : Lower.Body) :
    Blind (UnitWork.fill f) (lowerAt options storage cls method e b) := by
  intro u hfix
  have hplace := findPlace_fill (f := f) u.table cls method
  cases hp : findPlace u.table cls method with
  | error err =>
    rw [hp] at hplace
    rw [run_lowerAt_error hp]
    exact run_lowerAt_error (u := u.fill f) hplace
  | ok p =>
    rw [hp] at hplace
    have hat : u.table.at? p.classId p.methodId = some p.method := by
      obtain ⟨hcls, hmethod⟩ := findPlace_eq_ok hp
      exact Option.bind_eq_some_iff.2 ⟨p.cls, (findNamed_eq_some hcls).1, (findNamed_eq_some hmethod).1⟩
    have hblind := (Lower.woven_lowerProcedure (surroundingsIn options storage p (u.noting e)) b).blind
      (f := f p.classId.index p.methodId.index) (startIn storage p (u.noting e))
    rw [run_lowerAt_ok hp] at hfix ⊢
    rw [run_lowerAt_ok (u := u.fill f) hplace]
    dsimp only at hfix ⊢
    rw [show (u.fill f).noting e = (u.noting e).fill f from rfl, startIn_fill, surroundingsIn_fill]
    rcases hdone : (Lower.lowerProcedure (surroundingsIn options storage p (u.noting e)) b).run.run
      (startIn storage p (u.noting e)) with ⟨result, w⟩
    rw [hdone] at hblind hfix
    rw [hblind fun err herr => ?_]
    · exact closing_fill p u.table result w
    -- A procedure that stops leaves its method in the table as it is in the work.
    · have htable : ((closing p u.table (result, w)).2.table).fill f = (closing p u.table (result, w)).2.table :=
        congrArg UnitWork.table (hfix err (by cases herr; rfl))
      have hmethod := congrArg (Table.at? · p.classId p.methodId) htable
      simp only [closing, Table.at?_fill, Table.at?_setMethod hat, Option.map_some] at hmethod
      exact Work.fill_eq (Option.some.inj hmethod)

theorem Woven.blind {α : Type} {x : LowerUnit α} (h : Woven options storage x) : Blind (UnitWork.fill f) x := by
  induction h with
  | pure | noted => exact fun _ _ => rfl
  | bind _ _ hx hf => exact hx.bind hf
  | lowerAt cls method e b => exact blind_lowerAt cls method e b

end LowerUnit

/-! ## The second run -/

/-- Storage that is there at the end makes no difference at the start. -/
theorem lower_fill {q : Program} {t : Table} {options : Options} {storage : Storage}
    {f : Nat → Nat → Nat → Option Access}
    (hfix : (lower q t options storage).2.table.fill f = (lower q t options storage).2.table) :
    lower q (t.fill f) options storage = lower q t options storage := by
  have hend : (lower q t options storage).2.fill f = (lower q t options storage).2 := by rw [UnitWork.fill, hfix]
  have hagain : lower q (t.fill f) options storage =
      ((lower q t options storage).1, (lower q t options storage).2.fill f) :=
    (LowerUnit.woven_lowerProgram options storage q).blind { table := t } fun _ _ => hend
  rw [hagain, hend]

/-- A program comes to the same on the table that lowering it has left, whether that ended with fragments
or with an error. -/
theorem lower_repeats (p q : Program) (options : Options) (storage : Storage) :
    lower q (lower q (declare p).1 options storage).2.table options storage =
      lower q (declare p).1 options storage := by
  have hmade := declare_made p
  have hbare := bare_lower (hmade.imp fun _ => Method.Made.rested) q options storage
  have hunbound := Table.bare_of_unbound (hmade.imp fun _ hm => hm.numbered.unbound)
  have hapart := (hmade.imp fun _ hm => hm.numbered.apart).of_bare Method.Apart.of_bare hbare
  have hleft := Table.fill_bare hapart
  rw [hbare, hunbound] at hleft
  have hfix := Table.fill_fill (lower q (declare p).1 options storage).2.table.storage (declare p).1
  have hagain := lower_fill (by rwa [hleft] at hfix)
  rwa [hleft] at hagain

end Lowering
