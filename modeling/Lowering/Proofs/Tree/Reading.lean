import Lowering.Proofs.Letters
import Lowering.Tree.Text

/-!
# Reading a tree back

A text that starts with a tree starts with one tree only, whatever comes after it. So each part of a node
ends where the next one starts, and two trees with one text are the same tree.
-/

namespace Lowering

theorem BinOp.text_injective {op op' : BinOp} (h : op.text = op'.text) : op = op' := by
  cases op <;> cases op' <;> simp_all [BinOp.text]

theorem BinOp.isUnmarked_text (op : BinOp) : isUnmarked op.text = true := by
  cases op <;> decide

theorem RelOp.text_injective {op op' : RelOp} (h : op.text = op'.text) : op = op' := by
  cases op <;> cases op' <;> simp_all [RelOp.text]

theorem RelOp.isUnmarked_text (op : RelOp) : isUnmarked op.text = true := by
  cases op <;> decide

namespace Tree

theorem Temp.isUnmarked_text (t : Temp) : isUnmarked t.text = true := by
  rw [Temp.text, isUnmarked_append, Nat.toString_eq_repr, isUnmarked_repr]
  rfl

theorem Temp.text_injective {t t' : Temp} (h : t.text = t'.text) : t = t' := by
  have hletters := congrArg String.toList h
  simp only [Temp.text, String.toList_append, List.append_cancel_left_eq, String.toList_inj,
    Nat.toString_eq_repr, Nat.repr_inj] at hletters
  cases t
  cases t'
  exact congrArg Temp.mk hletters

theorem Label.name_inj {l l' : Label} (h : l.name = l'.name) : l = l' := by
  cases l
  cases l'
  exact congrArg Label.mk h

/-! ## Plain trees -/

mutual
/-- Labels hold no marks, and a jump has the label that it shows as its only target. -/
def Expr.isPlain : Expr → Bool
  | .const _ | .longConst _ | .temp _ => true
  | .name l => isUnmarked l.name
  | .binOp _ l r => l.isPlain && r.isPlain
  | .mem a => a.isPlain
  | .call f args => f.isPlain && Expr.arePlain args
  | .eseq s e => s.isPlain && e.isPlain

def Expr.arePlain : List Expr → Bool
  | [] => true
  | e :: rest => e.isPlain && Expr.arePlain rest

@[inherit_doc Expr.isPlain]
def Stm.isPlain : Stm → Bool
  | .move d s => d.isPlain && s.isPlain
  | .exp e => e.isPlain
  | .jump (.name l) labels => isUnmarked l.name && labels == [l]
  | .jump .. => false
  | .cjump _ l r t f => l.isPlain && r.isPlain && isUnmarked t.name && isUnmarked f.name
  | .seq a b => a.isPlain && b.isPlain
  | .label l => isUnmarked l.name
end

theorem Stm.exists_label_of_isPlain {target : Expr} {labels : List Label}
    (h : (Stm.jump target labels).isPlain = true) : ∃ l : Label, target = .name l ∧ labels = [l] := by
  cases target with
  | name l => exact ⟨l, rfl, eq_of_beq (Bool.and_eq_true_iff.1 h).2⟩
  | _ => cases h

theorem Stm.target_isPlain {target : Expr} {labels : List Label} (h : (Stm.jump target labels).isPlain = true) :
    target.isPlain = true := by
  obtain ⟨l, rfl, -⟩ := exists_label_of_isPlain h
  exact (Bool.and_eq_true_iff.1 h).1

/-! ## Nodes -/

namespace Expr

/-- The word in front of the parenthesis. -/
def kind : Expr → String
  | .const _ => "CONST"
  | .longConst _ => "LCONST"
  | .name _ => "NAME"
  | .temp _ => "TEMP"
  | .binOp .. => "BINOP"
  | .mem _ => "MEM"
  | .call .. => "CALL"
  | .eseq .. => "ESEQ"

/-- What follows the parenthesis in a text that goes on with `x`. -/
def inside (x : List Char) : Expr → List Char
  | .const v => v.toInt.repr.toList ++ (closing ++ x)
  | .longConst v => v.toInt.repr.toList ++ (closing ++ x)
  | .name l => l.name.toList ++ (closing ++ x)
  | .temp t => t.text.toList ++ (closing ++ x)
  | .binOp op l r =>
    op.text.toList ++ (comma ++ (l.text.toList ++ (comma ++ (r.text.toList ++ (closing ++ x)))))
  | .mem a => a.text.toList ++ (closing ++ x)
  | .call f args => f.text.toList ++ ((textAll args).toList ++ (closing ++ x))
  | .eseq s e => s.text.toList ++ (comma ++ (e.text.toList ++ (closing ++ x)))

theorem text_append (e : Expr) (x : List Char) : e.text.toList ++ x = e.kind.toList ++ '(' :: e.inside x := by
  cases e <;> simp [text, kind, inside, comma, closing]

theorem isUnmarked_kind (e : Expr) : isUnmarked e.kind = true := by
  cases e <;> simp [kind, isUnmarked, isMark]

end Expr

namespace Stm

@[inherit_doc Expr.kind]
def kind : Stm → String
  | .move .. => "MOVE"
  | .exp _ => "EXP"
  | .jump .. => "JUMP"
  | .cjump .. => "CJUMP"
  | .seq .. => "SEQ"
  | .label _ => "LABEL"

@[inherit_doc Expr.inside]
def inside (x : List Char) : Stm → List Char
  | .move d s => d.text.toList ++ (comma ++ (s.text.toList ++ (closing ++ x)))
  | .exp e => e.text.toList ++ (closing ++ x)
  | .jump e _ => e.text.toList ++ (closing ++ x)
  | .cjump op l r t f =>
    op.text.toList ++ (comma ++ (l.text.toList ++ (comma ++ (r.text.toList ++ (comma ++
      (t.name.toList ++ (comma ++ (f.name.toList ++ (closing ++ x)))))))))
  | .seq a b => a.text.toList ++ (comma ++ (b.text.toList ++ (closing ++ x)))
  | .label l => l.name.toList ++ (closing ++ x)

theorem text_append (s : Stm) (x : List Char) : s.text.toList ++ x = s.kind.toList ++ '(' :: s.inside x := by
  cases s with
  | move d e =>
    change ("MOVE(" ++ d.text ++ ", " ++ e.text ++ ")").toList ++ x = _
    simp [kind, inside, comma, closing]
  | exp e =>
    change ("EXP(" ++ e.text ++ ")").toList ++ x = _
    simp [kind, inside, closing]
  | jump e labels =>
    change ("JUMP(" ++ e.text ++ ")").toList ++ x = _
    simp [kind, inside, closing]
  | cjump op l r t f =>
    change ("CJUMP(" ++ op.text ++ ", " ++ l.text ++ ", " ++ r.text ++ ", " ++ t.name ++ ", " ++ f.name ++
      ")").toList ++ x = _
    simp [kind, inside, comma, closing]
  | seq a b =>
    change ("SEQ(" ++ a.text ++ ", " ++ b.text ++ ")").toList ++ x = _
    simp [kind, inside, comma, closing]
  | label l =>
    change ("LABEL(" ++ l.name ++ ")").toList ++ x = _
    simp [kind, inside, closing]

theorem isUnmarked_kind (s : Stm) : isUnmarked s.kind = true := by
  cases s <;> simp [kind, isUnmarked, isMark]

end Stm

/-! ## One tree only -/

mutual
theorem Expr.text_append_inj (a b : Expr) {x y : List Char} (ha : a.isPlain = true) (hb : b.isPlain = true)
    (h : a.text.toList ++ x = b.text.toList ++ y) : a = b ∧ x = y := by
  -- The letters behind the trees stay free, since a part is followed by the rest of its node.
  rw [a.text_append, b.text_append] at h
  obtain ⟨hkind, hinside⟩ := open_inj a.isUnmarked_kind b.isUnmarked_kind h
  cases a with
  | const v =>
    cases b with
    | const v' =>
      obtain ⟨hv, hrest⟩ := closing_inj (isUnmarked_repr_int _) (isUnmarked_repr_int _) hinside
      rw [Int.repr_inj, Int32.toInt_inj] at hv
      exact ⟨by rw [hv], hrest⟩
    | _ => simp [Expr.kind] at hkind
  | longConst v =>
    cases b with
    | longConst v' =>
      obtain ⟨hv, hrest⟩ := closing_inj (isUnmarked_repr_int _) (isUnmarked_repr_int _) hinside
      rw [Int.repr_inj, Int64.toInt_inj] at hv
      exact ⟨by rw [hv], hrest⟩
    | _ => simp [Expr.kind] at hkind
  | name l =>
    cases b with
    | name l' =>
      obtain ⟨hl, hrest⟩ := closing_inj ha hb hinside
      exact ⟨by rw [Label.name_inj hl], hrest⟩
    | _ => simp [Expr.kind] at hkind
  | temp t =>
    cases b with
    | temp t' =>
      obtain ⟨ht, hrest⟩ := closing_inj t.isUnmarked_text t'.isUnmarked_text hinside
      exact ⟨by rw [Temp.text_injective ht], hrest⟩
    | _ => simp [Expr.kind] at hkind
  | binOp op l r =>
    cases b with
    | binOp op' l' r' =>
      obtain ⟨hl, hr⟩ := Bool.and_eq_true_iff.1 ha
      obtain ⟨hl', hr'⟩ := Bool.and_eq_true_iff.1 hb
      obtain ⟨hop, hleft⟩ := comma_inj op.isUnmarked_text op'.isUnmarked_text hinside
      obtain ⟨rfl, hright⟩ := l.text_append_inj l' hl hl' hleft
      obtain ⟨rfl, hrest⟩ := r.text_append_inj r' hr hr' (List.append_cancel_left hright)
      exact ⟨by rw [BinOp.text_injective hop], List.append_cancel_left hrest⟩
    | _ => simp [Expr.kind] at hkind
  | mem e =>
    cases b with
    | mem e' =>
      obtain ⟨rfl, hrest⟩ := e.text_append_inj e' ha hb hinside
      exact ⟨rfl, List.append_cancel_left hrest⟩
    | _ => simp [Expr.kind] at hkind
  | call f args =>
    cases b with
    | call f' args' =>
      obtain ⟨hf, hargs⟩ := Bool.and_eq_true_iff.1 ha
      obtain ⟨hf', hargs'⟩ := Bool.and_eq_true_iff.1 hb
      obtain ⟨rfl, hlist⟩ := f.text_append_inj f' hf hf' hinside
      obtain ⟨rfl, hrest⟩ := Expr.textAll_append_inj args args' hargs hargs' hlist
      exact ⟨rfl, hrest⟩
    | _ => simp [Expr.kind] at hkind
  | eseq s e =>
    cases b with
    | eseq s' e' =>
      obtain ⟨hs, he⟩ := Bool.and_eq_true_iff.1 ha
      obtain ⟨hs', he'⟩ := Bool.and_eq_true_iff.1 hb
      obtain ⟨rfl, hvalue⟩ := s.text_append_inj s' hs hs' hinside
      obtain ⟨rfl, hrest⟩ := e.text_append_inj e' he he' (List.append_cancel_left hvalue)
      exact ⟨rfl, List.append_cancel_left hrest⟩
    | _ => simp [Expr.kind] at hkind

theorem Expr.textAll_append_inj (as bs : List Expr) {x y : List Char} (has : Expr.arePlain as = true)
    (hbs : Expr.arePlain bs = true)
    (h : (Expr.textAll as).toList ++ (closing ++ x) = (Expr.textAll bs).toList ++ (closing ++ y)) :
    as = bs ∧ x = y := by
  cases as with
  | nil =>
    cases bs with
    | nil => exact ⟨rfl, List.append_cancel_left (List.append_cancel_left h)⟩
    | cons b bs => simp [Expr.textAll, closing] at h
  | cons a as =>
    cases bs with
    | nil => simp [Expr.textAll, closing] at h
    | cons b bs =>
      obtain ⟨ha, has⟩ := Bool.and_eq_true_iff.1 has
      obtain ⟨hb, hbs⟩ := Bool.and_eq_true_iff.1 hbs
      simp only [Expr.textAll, String.toList_append, List.append_assoc, List.append_cancel_left_eq] at h
      obtain ⟨hfirst, hlist⟩ := a.text_append_inj b ha hb h
      obtain ⟨hothers, hrest⟩ := Expr.textAll_append_inj as bs has hbs hlist
      exact ⟨by rw [hfirst, hothers], hrest⟩

theorem Stm.text_append_inj (s t : Stm) {x y : List Char} (hs : s.isPlain = true) (ht : t.isPlain = true)
    (h : s.text.toList ++ x = t.text.toList ++ y) : s = t ∧ x = y := by
  rw [s.text_append, t.text_append] at h
  obtain ⟨hkind, hinside⟩ := open_inj s.isUnmarked_kind t.isUnmarked_kind h
  cases s with
  | move d e =>
    cases t with
    | move d' e' =>
      obtain ⟨hd, he⟩ := Bool.and_eq_true_iff.1 hs
      obtain ⟨hd', he'⟩ := Bool.and_eq_true_iff.1 ht
      obtain ⟨rfl, hsource⟩ := d.text_append_inj d' hd hd' hinside
      obtain ⟨rfl, hrest⟩ := e.text_append_inj e' he he' (List.append_cancel_left hsource)
      exact ⟨rfl, List.append_cancel_left hrest⟩
    | _ => simp [Stm.kind] at hkind
  | exp e =>
    cases t with
    | exp e' =>
      obtain ⟨rfl, hrest⟩ := e.text_append_inj e' hs ht hinside
      exact ⟨rfl, List.append_cancel_left hrest⟩
    | _ => simp [Stm.kind] at hkind
  | jump target labels =>
    cases t with
    | jump target' labels' =>
      obtain ⟨rfl, hrest⟩ :=
        target.text_append_inj target' (Stm.target_isPlain hs) (Stm.target_isPlain ht) hinside
      -- the labels are not in the text, but a plain jump has no others than its target
      obtain ⟨l, rfl, rfl⟩ := Stm.exists_label_of_isPlain hs
      obtain ⟨l', hl, rfl⟩ := Stm.exists_label_of_isPlain ht
      cases hl
      exact ⟨rfl, List.append_cancel_left hrest⟩
    | _ => simp [Stm.kind] at hkind
  | cjump op l r ifTrue ifFalse =>
    cases t with
    | cjump op' l' r' ifTrue' ifFalse' =>
      simp only [Stm.isPlain, Bool.and_eq_true] at hs ht
      obtain ⟨⟨⟨hl, hr⟩, htrue⟩, hfalse⟩ := hs
      obtain ⟨⟨⟨hl', hr'⟩, htrue'⟩, hfalse'⟩ := ht
      obtain ⟨hop, hleft⟩ := comma_inj op.isUnmarked_text op'.isUnmarked_text hinside
      obtain ⟨rfl, hright⟩ := l.text_append_inj l' hl hl' hleft
      obtain ⟨rfl, hlabels⟩ := r.text_append_inj r' hr hr' (List.append_cancel_left hright)
      obtain ⟨hname, hlast⟩ := comma_inj htrue htrue' (List.append_cancel_left hlabels)
      obtain ⟨hname', hrest⟩ := closing_inj hfalse hfalse' hlast
      exact ⟨by rw [RelOp.text_injective hop, Label.name_inj hname, Label.name_inj hname'], hrest⟩
    | _ => simp [Stm.kind] at hkind
  | seq first rest =>
    cases t with
    | seq first' rest' =>
      obtain ⟨hfirst, hlater⟩ := Bool.and_eq_true_iff.1 hs
      obtain ⟨hfirst', hlater'⟩ := Bool.and_eq_true_iff.1 ht
      obtain ⟨rfl, hsecond⟩ := first.text_append_inj first' hfirst hfirst' hinside
      obtain ⟨rfl, hrest⟩ := rest.text_append_inj rest' hlater hlater' (List.append_cancel_left hsecond)
      exact ⟨rfl, List.append_cancel_left hrest⟩
    | _ => simp [Stm.kind] at hkind
  | label l =>
    cases t with
    | label l' =>
      obtain ⟨hl, hrest⟩ := closing_inj hs ht hinside
      exact ⟨by rw [Label.name_inj hl], hrest⟩
    | _ => simp [Stm.kind] at hkind
end

/-! ## Equal texts -/

/-- Two statements with one text are the same statement, and two expressions with one text are the same
expression, as long as the labels hold no marks and each jump goes to the label that it shows. -/
theorem text_determines_tree :
    (∀ s t : Stm, s.isPlain = true → t.isPlain = true → s.text = t.text → s = t) ∧
      (∀ a b : Expr, a.isPlain = true → b.isPlain = true → a.text = b.text → a = b) := by
  refine ⟨fun s t hs ht h => ?_, fun a b ha hb h => ?_⟩
  · have hletters : s.text.toList ++ [] = t.text.toList ++ [] := by rw [h]
    exact (s.text_append_inj t hs ht hletters).1
  · have hletters : a.text.toList ++ [] = b.text.toList ++ [] := by rw [h]
    exact (a.text_append_inj b ha hb hletters).1

/-- Calls `f` without end, with two arguments of one value and two widths. -/
def retrying : Stm :=
  .ofList [.label ⟨"try again"⟩, .exp (.call (.name ⟨"f"⟩) [.const (-1), .longConst (-1)]), .jumpTo ⟨"try again"⟩]

def retryingSpelledOut : Stm :=
  .seq (.label ⟨"try again"⟩) (.seq (.exp (.call (.name ⟨"f"⟩) [.const (-1), .longConst (-1)]))
    (.jump (.name ⟨"try again"⟩) [⟨"try again"⟩]))

theorem text_determines_tree_retrying :
    retrying.isPlain = true ∧ retryingSpelledOut.isPlain = true ∧ retrying.text = retryingSpelledOut.text ∧
      retrying = retryingSpelledOut ∧
      Expr.eseq retrying (.temp ⟨10⟩) = Expr.eseq retryingSpelledOut (.temp ⟨10⟩) := by
  have hplain : retrying.isPlain = true := by decide
  have hplain' : retryingSpelledOut.isPlain = true := by decide
  have htext : retrying.text = retryingSpelledOut.text := by decide
  refine ⟨hplain, hplain', htext, text_determines_tree.1 _ _ hplain hplain' htext, ?_⟩
  exact text_determines_tree.2 _ _ (by decide) (by decide) (by decide)

-- Where a label may hold marks, two arguments can look like one.
example :
    (Expr.call (.name ⟨"f"⟩) [.name ⟨"a), NAME(b"⟩]).text =
      (Expr.call (.name ⟨"f"⟩) [.name ⟨"a"⟩, .name ⟨"b"⟩]).text := by
  decide

end Tree

end Lowering
