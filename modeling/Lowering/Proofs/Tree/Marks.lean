import Mathlib
import Lowering.Tree.Basic

/-!
# What stands in a tree

The marks of a tree are its labels, jumps and calls, in the order in which a walk meets them that
visits operands before the node, from left to right. Its temps are listed in the same order.
-/

namespace Lowering.Tree

/-! ## Marks -/

inductive Mark where
  | label (l : Label)
  /-- A run goes to `target`. The list beside it is only noted. -/
  | jump (target : Option Label) (noted : List Label)
  | branch (op : RelOp) (ifTrue ifFalse : Label)
  | call (arity : Nat)
  deriving DecidableEq, Repr

namespace Mark

def label? : Mark → Option Label
  | .label l => some l
  | _ => none

def isCall : Mark → Bool
  | .call _ => true
  | _ => false

/-- Where control may go from there. -/
def targets : Mark → List Label
  | .jump target noted => target.toList ++ noted
  | .branch _ ifTrue ifFalse => [ifTrue, ifFalse]
  | _ => []

end Mark

/-- Every target of a jump in `ms` is a label in `all`. -/
def ClosedIn (all ms : List Mark) : Prop := ∀ m ∈ ms, ∀ l ∈ m.targets, .label l ∈ all

/-- No jump leaves the code. -/
def Closed (ms : List Mark) : Prop := ClosedIn ms ms

@[simp] theorem closedIn_nil {all : List Mark} : ClosedIn all [] := nofun

@[simp] theorem closedIn_cons {all ms : List Mark} {m : Mark} :
    ClosedIn all (m :: ms) ↔ (∀ l ∈ m.targets, .label l ∈ all) ∧ ClosedIn all ms := List.forall_mem_cons

@[simp] theorem closedIn_append {all ms ns : List Mark} :
    ClosedIn all (ms ++ ns) ↔ ClosedIn all ms ∧ ClosedIn all ns := List.forall_mem_append

theorem ClosedIn.mono {all all' ms : List Mark} (h : ClosedIn all ms) (hle : all ⊆ all') : ClosedIn all' ms :=
  fun m hm l hl => hle (h m hm l hl)

theorem Closed.append {ms ns : List Mark} (hm : Closed ms) (hn : Closed ns) : Closed (ms ++ ns) :=
  closedIn_append.2 ⟨hm.mono (List.subset_append_left _ _), hn.mono (List.subset_append_right _ _)⟩

/-- The label that is named once the statements in front of it have run. -/
def Expr.target? : Expr → Option Label
  | .name l => some l
  | .eseq _ e => e.target?
  | _ => none

mutual
def Expr.marks : Expr → List Mark
  | .const _ | .longConst _ | .name _ | .temp _ => []
  | .binOp _ l r => l.marks ++ r.marks
  | .mem a => a.marks
  | .call f args => f.marks ++ Expr.marksAll args ++ [.call args.length]
  | .eseq s e => s.marks ++ e.marks

def Expr.marksAll : List Expr → List Mark
  | [] => []
  | e :: rest => e.marks ++ Expr.marksAll rest

def Stm.marks : Stm → List Mark
  | .move d s => d.marks ++ s.marks
  | .exp e => e.marks
  | .jump e labels => e.marks ++ [.jump e.target? labels]
  | .cjump op l r t f => l.marks ++ r.marks ++ [.branch op t f]
  | .seq a b => a.marks ++ b.marks
  | .label l => [.label l]
end

/-- The marks of a piece of code. -/
def marksOf (code : List Stm) : List Mark := code.flatMap Stm.marks

@[simp] theorem marksOf_nil : marksOf [] = [] := rfl

@[simp] theorem marksOf_cons (s : Stm) (code : List Stm) : marksOf (s :: code) = s.marks ++ marksOf code := rfl

@[simp] theorem marksOf_append (a b : List Stm) : marksOf (a ++ b) = marksOf a ++ marksOf b :=
  List.flatMap_append

/-- The labels that stand in an expression. -/
def Expr.labels (e : Expr) : List Label := e.marks.filterMap Mark.label?

@[inherit_doc Expr.labels]
def Stm.labels (s : Stm) : List Label := s.marks.filterMap Mark.label?

section

variable (e l r target source : Expr) (x y : Stm)

@[simp] theorem Expr.labels_const (v : Int32) : (Expr.const v).labels = [] := rfl

@[simp] theorem Expr.labels_longConst (v : Int64) : (Expr.longConst v).labels = [] := rfl

@[simp] theorem Expr.labels_temp (t : Temp) : (Expr.temp t).labels = [] := rfl

@[simp] theorem Expr.labels_binOp (op : BinOp) : (Expr.binOp op l r).labels = l.labels ++ r.labels := by
  simp [labels, marks]

@[simp] theorem Expr.labels_mem : (Expr.mem e).labels = e.labels := rfl

@[simp] theorem Expr.labels_eseq : (Expr.eseq x e).labels = x.labels ++ e.labels := by
  simp [labels, Stm.labels, marks]

@[simp] theorem Stm.labels_move : (Stm.move target source).labels = target.labels ++ source.labels := by
  simp [labels, Expr.labels, marks]

@[simp] theorem Stm.labels_exp : (Stm.exp e).labels = e.labels := rfl

@[simp] theorem Stm.labels_jumpTo (l : Label) : (Stm.jumpTo l).labels = [] := rfl

@[simp] theorem Stm.labels_cjump (op : RelOp) (t f : Label) :
    (Stm.cjump op l r t f).labels = l.labels ++ r.labels := by
  simp [labels, Expr.labels, marks, Mark.label?]

@[simp] theorem Stm.labels_seq : (Stm.seq x y).labels = x.labels ++ y.labels := by
  simp [labels, marks]

@[simp] theorem Stm.labels_label (l : Label) : (Stm.label l).labels = [l] := rfl

end

/-- The labels that stand in a piece of code. -/
def labelsOf (code : List Stm) : List Label := (marksOf code).filterMap Mark.label?

@[simp] theorem labelsOf_nil : labelsOf [] = [] := rfl

@[simp] theorem labelsOf_cons (s : Stm) (code : List Stm) : labelsOf (s :: code) = s.labels ++ labelsOf code := by
  simp [labelsOf, Stm.labels]

@[simp] theorem labelsOf_append (a b : List Stm) : labelsOf (a ++ b) = labelsOf a ++ labelsOf b := by
  simp [labelsOf]

@[simp] theorem Stm.marks_ofList (cs : List Stm) : (Stm.ofList cs).marks = marksOf cs := by
  fun_induction Stm.ofList cs with
  | case1 => rfl
  | case2 => simp
  | case3 c rest _ ih => simp [Stm.marks, ih]

@[simp] theorem Stm.labels_ofList (cs : List Stm) : (Stm.ofList cs).labels = labelsOf cs := by
  rw [Stm.labels, Stm.marks_ofList, labelsOf]

theorem mem_labelsOf {l : Label} {code : List Stm} (h : .label l ∈ code) : l ∈ labelsOf code := by
  obtain ⟨before, after, rfl⟩ := List.append_of_mem h
  simp

/-! ## Calls -/

def Expr.hasCall (e : Expr) : Bool := e.marks.any Mark.isCall

def Stm.hasCall (s : Stm) : Bool := s.marks.any Mark.isCall

/-- Whether a destination takes its address from a call. -/
def Expr.addressHasCall : Expr → Bool
  | .mem a => a.hasCall
  | .eseq _ target => target.addressHasCall
  | _ => false

mutual
/-- No move has a call in its address and another in its source. -/
def Expr.callsApart : Expr → Bool
  | .const _ | .longConst _ | .name _ | .temp _ => true
  | .binOp _ l r => l.callsApart && r.callsApart
  | .mem a => a.callsApart
  | .call f args => f.callsApart && Expr.callsApartAll args
  | .eseq s e => s.callsApart && e.callsApart

def Expr.callsApartAll : List Expr → Bool
  | [] => true
  | e :: rest => e.callsApart && Expr.callsApartAll rest

@[inherit_doc Expr.callsApart]
def Stm.callsApart : Stm → Bool
  | .move d s => !(d.addressHasCall && s.hasCall) && d.callsApart && s.callsApart
  | .exp e | .jump e _ => e.callsApart
  | .cjump _ l r _ _ => l.callsApart && r.callsApart
  | .seq a b => a.callsApart && b.callsApart
  | .label _ => true
end

mutual
theorem Expr.callsApart_of_hasCall (e : Expr) (h : e.hasCall = false) : e.callsApart = true := by
  cases e with
  | const _ | longConst _ | name _ | temp _ => rfl
  | binOp _ l r =>
    obtain ⟨hl, hr⟩ : l.hasCall = false ∧ r.hasCall = false := by simpa [Expr.hasCall, Expr.marks] using h
    simp [Expr.callsApart, l.callsApart_of_hasCall hl, r.callsApart_of_hasCall hr]
  | mem a => exact a.callsApart_of_hasCall h
  | call f args => simp [Expr.hasCall, Expr.marks, Mark.isCall] at h
  | eseq s e =>
    obtain ⟨hs, he⟩ : s.hasCall = false ∧ e.hasCall = false := by
      simpa [Expr.hasCall, Stm.hasCall, Expr.marks] using h
    simp [Expr.callsApart, s.callsApart_of_hasCall hs, e.callsApart_of_hasCall he]

theorem Stm.callsApart_of_hasCall (s : Stm) (h : s.hasCall = false) : s.callsApart = true := by
  cases s with
  | move d e =>
    obtain ⟨hd, he⟩ : d.hasCall = false ∧ e.hasCall = false := by
      simpa [Expr.hasCall, Stm.hasCall, Stm.marks] using h
    simp [Stm.callsApart, he, d.callsApart_of_hasCall hd, e.callsApart_of_hasCall he]
  | exp e => exact e.callsApart_of_hasCall h
  | jump e _ =>
    have he : e.hasCall = false := by simpa [Expr.hasCall, Stm.hasCall, Stm.marks, Mark.isCall] using h
    exact e.callsApart_of_hasCall he
  | cjump _ l r _ _ =>
    obtain ⟨hl, hr⟩ : l.hasCall = false ∧ r.hasCall = false := by
      simpa [Expr.hasCall, Stm.hasCall, Stm.marks, Mark.isCall] using h
    simp [Stm.callsApart, l.callsApart_of_hasCall hl, r.callsApart_of_hasCall hr]
  | seq a b =>
    obtain ⟨ha, hb⟩ : a.hasCall = false ∧ b.hasCall = false := by simpa [Stm.hasCall, Stm.marks] using h
    simp [Stm.callsApart, a.callsApart_of_hasCall ha, b.callsApart_of_hasCall hb]
  | label _ => rfl
end

/-! ## Temps -/

mutual
def Expr.temps : Expr → List Temp
  | .const _ | .longConst _ | .name _ => []
  | .temp t => [t]
  | .binOp _ l r => l.temps ++ r.temps
  | .mem a => a.temps
  | .call f args => f.temps ++ Expr.tempsAll args
  | .eseq s e => s.temps ++ e.temps

def Expr.tempsAll : List Expr → List Temp
  | [] => []
  | e :: rest => e.temps ++ Expr.tempsAll rest

def Stm.temps : Stm → List Temp
  | .move d s => d.temps ++ s.temps
  | .exp e | .jump e _ => e.temps
  | .cjump _ l r _ _ => l.temps ++ r.temps
  | .seq a b => a.temps ++ b.temps
  | .label _ => []
end

@[simp] theorem Stm.temps_ofList (cs : List Stm) : (Stm.ofList cs).temps = cs.flatMap Stm.temps := by
  fun_induction Stm.ofList cs with
  | case1 => rfl
  | case2 => simp
  | case3 c rest _ ih => simp [Stm.temps, ih]

mutual
/-- The temps that moves inside the expression go to. -/
def Expr.written : Expr → List Temp
  | .const _ | .longConst _ | .name _ | .temp _ => []
  | .binOp _ l r => l.written ++ r.written
  | .mem a => a.written
  | .call f args => f.written ++ Expr.writtenAll args
  | .eseq s e => s.written ++ e.written

def Expr.writtenAll : List Expr → List Temp
  | [] => []
  | e :: rest => e.written ++ Expr.writtenAll rest

@[inherit_doc Expr.written]
def Stm.written : Stm → List Temp
  | .move (.temp t) s => t :: s.written
  | .move d s => d.written ++ s.written
  | .exp e | .jump e _ => e.written
  | .cjump _ l r _ _ => l.written ++ r.written
  | .seq a b => a.written ++ b.written
  | .label _ => []
end

mutual
theorem Expr.index_lt_tempBound (e : Expr) {t : Temp} (h : t ∈ e.temps) : t.index < e.tempBound := by
  cases e with
  | const _ | longConst _ | name _ => simp [Expr.temps] at h
  | temp u =>
    obtain rfl : t = u := by simpa [Expr.temps] using h
    simp [Expr.tempBound]
  | binOp _ l r =>
    rcases List.mem_append.1 h with h | h
    · exact lt_max_of_lt_left (l.index_lt_tempBound h)
    · exact lt_max_of_lt_right (r.index_lt_tempBound h)
  | mem a => exact a.index_lt_tempBound h
  | call f args =>
    rcases List.mem_append.1 h with h | h
    · exact lt_max_of_lt_left (f.index_lt_tempBound h)
    · exact lt_max_of_lt_right (Expr.index_lt_tempBoundAll args h)
  | eseq s e =>
    rcases List.mem_append.1 h with h | h
    · exact lt_max_of_lt_left (s.index_lt_tempBound h)
    · exact lt_max_of_lt_right (e.index_lt_tempBound h)

theorem Expr.index_lt_tempBoundAll (es : List Expr) {t : Temp} (h : t ∈ Expr.tempsAll es) :
    t.index < Expr.tempBoundAll es := by
  cases es with
  | nil => simp [Expr.tempsAll] at h
  | cons e rest =>
    rcases List.mem_append.1 h with h | h
    · exact lt_max_of_lt_left (e.index_lt_tempBound h)
    · exact lt_max_of_lt_right (Expr.index_lt_tempBoundAll rest h)

theorem Stm.index_lt_tempBound (s : Stm) {t : Temp} (h : t ∈ s.temps) : t.index < s.tempBound := by
  cases s with
  | move d e =>
    rcases List.mem_append.1 h with h | h
    · exact lt_max_of_lt_left (d.index_lt_tempBound h)
    · exact lt_max_of_lt_right (e.index_lt_tempBound h)
  | exp e => exact e.index_lt_tempBound h
  | jump e _ => exact e.index_lt_tempBound h
  | cjump _ l r _ _ =>
    rcases List.mem_append.1 h with h | h
    · exact lt_max_of_lt_left (l.index_lt_tempBound h)
    · exact lt_max_of_lt_right (r.index_lt_tempBound h)
  | seq a b =>
    rcases List.mem_append.1 h with h | h
    · exact lt_max_of_lt_left (a.index_lt_tempBound h)
    · exact lt_max_of_lt_right (b.index_lt_tempBound h)
  | label _ => simp [Stm.temps] at h
end

end Lowering.Tree
