import Lowering.Proofs.Declaration.SourceOrder
import Lowering.Proofs.Letters
import Lowering.Proofs.Table.Ancestors

/-!
# Reading a descriptor back

The types in a descriptor stand next to each other with nothing in between. A class name may hold any
letter that starts another type, and the parentheses too, but it goes on to its semicolon. So no type
is spelled like the start of another one, and a descriptor can be read in one way only.
-/

namespace Lowering

open Lowering.Source (Program Site)

/-! ## The names of the classes -/

namespace Table

variable {t : Table} {c d id : ClassId}

/-- Classes keep the names that they were added with, so no two share one. All else in a class may change. -/
inductive Built : Table → Prop
  | empty : Built {}
  | addClass {t t' : Table} {name : String} {site : Site} {id : ClassId} : Built t →
      t.addClass name site = .ok (id, t') → Built t'
  | setClass {t : Table} {id : ClassId} {k b : Class} : Built t → t.class? id = some k → b.name = k.name →
      Built (t.setClass id b)

theorem Built.nodup (h : t.Built) : t.classNames.Nodup := by
  induction h with
  | empty => exact List.nodup_nil
  | addClass _ hadd ih =>
    obtain ⟨hnew, -, rfl⟩ := addClass_eq_ok.1 hadd
    rw [classNames, List.map_append, List.map_singleton, ← List.concat_eq_append]
    exact ih.concat hnew
  | setClass _ hk hname ih =>
    rw [classNames, Table.setClass, map_set_of_eq hk hname]
    exact ih

/-- Each class is added in its turn and then changed into what it is. -/
theorem built_of_nodup {ks : List Class} (h : (Table.mk ks).classNames.Nodup) : (Table.mk ks).Built := by
  induction ks using List.reverseRecOn with
  | nil => exact .empty
  | append_singleton ks k ih =>
    rw [classNames, List.map_append, List.map_singleton, ← List.concat_eq_append, List.nodup_concat] at h
    have hadd : (Table.mk ks).addClass k.name k.site =
        .ok (⟨ks.length⟩, ⟨ks ++ [{ name := k.name, site := k.site }]⟩) := addClass_eq_ok.2 ⟨h.1, rfl, rfl⟩
    have hlast : (Table.mk (ks ++ [{ name := k.name, site := k.site }])).class? ⟨ks.length⟩ =
        some { name := k.name, site := k.site } := by
      simp [class?]
    have hchanged := ((ih h.2).addClass hadd).setClass (b := k) hlast rfl
    simpa [setClass] using hchanged

theorem built_iff_nodup : t.Built ↔ t.classNames.Nodup := ⟨Built.nodup, built_of_nodup⟩

theorem built_declare (p : Program) : (declare p).1.Built := by
  have hentries := (Reporting.settles_declareProgram p).always []
  have hnames : (declare p).1.outline.map Outline.name = p.accepted.map Prod.fst :=
    List.forall₂_eq_eq_eq ▸ List.forall₂_map_left_iff.2 (List.forall₂_map_right_iff.2
      (hentries.flip.imp fun _ _ h => h.name))
  rw [built_iff_nodup, ← map_name_outline, hnames]
  simpa [Program.accepted, Program.classNames, Program.distinct, Function.comp_def] using p.nodup_classNames_distinct

theorem named_className (hc : t.Has c) : t.Named c (t.hierarchy.className c) := by
  unfold Has at hc
  simp [Named, classNames, Hierarchy.className, hierarchy, hc]

theorem Built.className_inj (h : t.Built) (hc : t.Has c) (hd : t.Has d)
    (hname : t.hierarchy.className c = t.hierarchy.className d) : c = d := by
  have hnamed := named_className hc
  rw [hname] at hnamed
  exact hnamed.injective h.nodup (named_className hd)

end Table

/-! ## Letters -/

/-- The letters of the descriptor of a type. -/
def Ty.letters (h : Hierarchy) : Ty → List Char
  | .int => ['I']
  | .intArray => ['[', 'I']
  | .boolean => ['Z']
  | .cls c => 'L' :: (h.className c).toList ++ [';']
  | .undefined => []

theorem Ty.descriptor?_eq (h : Hierarchy) (τ : Ty) :
    τ.descriptor? h = if τ = .undefined then none else some (.ofList (τ.letters h)) := by
  cases τ with
  | cls c => simp [descriptor?, letters, ← String.toList_inj]
  | _ => rfl

namespace Method

def resultLetters (h : Hierarchy) : Option Ty → List Char
  | none => ['V']
  | some τ => τ.letters h

def letters (m : Method) (h : Hierarchy) : List Char :=
  '(' :: (m.parameters.map (·.type)).flatMap (Ty.letters h) ++ ')' :: resultLetters h m.returns

theorem mapM_descriptor? (h : Hierarchy) (vs : List Variable) :
    vs.mapM (fun v => v.type.descriptor? h) =
      if ∃ v ∈ vs, v.type = .undefined then none else some (vs.map fun v => .ofList (v.type.letters h)) := by
  induction vs with
  | nil => rfl
  | cons v rest ih =>
    rw [List.mapM_cons, ih, Ty.descriptor?_eq]
    by_cases hv : v.type = .undefined <;> by_cases hrest : ∃ v ∈ rest, v.type = .undefined <;>
      simp [hv, hrest]

theorem descriptor?_eq (m : Method) (h : Hierarchy) :
    m.descriptor? h = if m.returns = some .undefined ∨ ∃ v ∈ m.parameters, v.type = .undefined then none
      else some (.ofList (m.letters h)) := by
  unfold descriptor? letters
  rw [mapM_descriptor?]
  by_cases hparameters : ∃ v ∈ m.parameters, v.type = .undefined
  · simp [hparameters]
  · cases m.returns with
    | none => simp [hparameters, resultLetters, ← String.toList_inj, List.flatMap_map]
    | some τ =>
      by_cases hτ : τ = .undefined
      · simp [hparameters, hτ, Ty.descriptor?_eq]
      · simp [hparameters, hτ, Ty.descriptor?_eq, resultLetters, ← String.toList_inj, List.flatMap_map]

end Method

/-! ## Reading them back -/

/-- A class of the type is a class of the table. -/
def Ty.Over (t : Table) : Ty → Prop
  | .cls c => t.Has c
  | _ => True

instance (t : Table) : (τ : Ty) → Decidable (τ.Over t)
  | .cls c => inferInstanceAs (Decidable (t.Has c))
  | .int | .intArray | .boolean | .undefined => .isTrue trivial

def Method.Over (m : Method) (t : Table) : Prop :=
  (∀ v ∈ m.parameters, v.type.Over t) ∧ ∀ τ ∈ m.returns, τ.Over t

instance (m : Method) (t : Table) : Decidable (m.Over t) :=
  inferInstanceAs (Decidable ((∀ v ∈ m.parameters, v.type.Over t) ∧ ∀ τ ∈ m.returns, τ.Over t))

/-- A type that can be spelled and is over the table. -/
def Ty.Known (t : Table) (τ : Ty) : Prop := τ.Over t ∧ τ ≠ .undefined

/-- Neither the end of the parameters nor an empty result can be taken for the start of a type. -/
theorem Ty.Known.letters_eq_cons {t : Table} {τ : Ty} (hτ : τ.Known t) :
    ∃ c rest, τ.letters t.hierarchy = c :: rest ∧ c ≠ ')' ∧ c ≠ 'V' := by
  cases τ with
  | undefined => exact absurd rfl hτ.2
  | _ => exact ⟨_, _, rfl, by decide, by decide⟩

section

variable {t : Table} (ht : t.Built) (hnames : ∀ name ∈ t.classNames, ';' ∉ name.toList)
include ht hnames

theorem Table.Built.className_append_inj {c d : ClassId} {x y : List Char} (hc : t.Has c) (hd : t.Has d)
    (h : (t.hierarchy.className c).toList ++ ';' :: x = (t.hierarchy.className d).toList ++ ';' :: y) :
    c = d ∧ x = y := by
  have hplain : ∀ {c}, t.Has c → ';' ∉ (t.hierarchy.className c).toList := fun hc =>
    hnames _ (List.mem_of_getElem? (named_className hc))
  obtain ⟨hname, hrest⟩ := append_cons_inj (hplain hc) (hplain hd) h
  exact ⟨ht.className_inj hc hd (String.toList_inj.1 hname), hrest⟩

namespace Ty

variable {σ τ : Ty} {σs τs : List Ty} {x y : List Char}

/-- Of two types at the start of the same letters, neither goes on where the other ends. -/
theorem letters_append_inj (hσ : σ.Known t) (hτ : τ.Known t)
    (h : σ.letters t.hierarchy ++ x = τ.letters t.hierarchy ++ y) : σ = τ ∧ x = y := by
  cases σ with
  | undefined => exact absurd rfl hσ.2
  | cls c =>
    cases τ with
    | undefined => exact absurd rfl hτ.2
    | cls d =>
      simp only [letters, List.cons_append, List.append_assoc, List.nil_append, List.cons.injEq, true_and] at h
      obtain ⟨rfl, hrest⟩ := ht.className_append_inj hnames hσ.1 hτ.1 h
      exact ⟨rfl, hrest⟩
    | _ => simp [letters] at h
  | _ =>
    cases τ with
    | undefined => exact absurd rfl hτ.2
    -- the first letters tell these types apart
    | _ => simp_all [letters]

theorem flatMap_letters_inj (hσs : ∀ σ ∈ σs, σ.Known t) (hτs : ∀ τ ∈ τs, τ.Known t)
    (h : σs.flatMap (letters t.hierarchy) ++ ')' :: x = τs.flatMap (letters t.hierarchy) ++ ')' :: y) :
    σs = τs ∧ x = y := by
  induction σs generalizing τs with
  | nil =>
    cases τs with
    | nil => simpa using h
    | cons τ τs =>
      -- the parameters would be over where a type starts
      obtain ⟨c, rest, hτ, hend, -⟩ := (hτs τ List.mem_cons_self).letters_eq_cons
      rw [List.flatMap_cons, hτ] at h
      exact absurd (List.cons.inj h).1.symm hend
  | cons σ σs ih =>
    obtain ⟨hσ, hσs⟩ := List.forall_mem_cons.1 hσs
    cases τs with
    | nil =>
      obtain ⟨c, rest, hσ, hend, -⟩ := hσ.letters_eq_cons
      rw [List.flatMap_cons, hσ] at h
      exact absurd (List.cons.inj h).1 hend
    | cons τ τs' =>
      obtain ⟨hτ, hτs'⟩ := List.forall_mem_cons.1 hτs
      rw [List.flatMap_cons, List.flatMap_cons, List.append_assoc, List.append_assoc] at h
      obtain ⟨hhead, htail⟩ := letters_append_inj ht hnames hσ hτ h
      obtain ⟨hrest, hxy⟩ := ih hσs hτs' htail
      exact ⟨by rw [hhead, hrest], hxy⟩

end Ty

theorem Method.resultLetters_inj {σ? τ? : Option Ty} (hσ : ∀ σ ∈ σ?, σ.Known t) (hτ : ∀ τ ∈ τ?, τ.Known t)
    (h : resultLetters t.hierarchy σ? = resultLetters t.hierarchy τ?) : σ? = τ? := by
  cases σ? with
  | none =>
    cases τ? with
    | none => rfl
    | some τ =>
      obtain ⟨c, rest, hletters, -, hvoid⟩ := (hτ τ rfl).letters_eq_cons
      exact absurd (List.cons.inj (h.trans hletters)).1.symm hvoid
  | some σ =>
    cases τ? with
    | none =>
      obtain ⟨c, rest, hletters, -, hvoid⟩ := (hσ σ rfl).letters_eq_cons
      exact absurd (List.cons.inj (hletters.symm.trans h)).1 hvoid
    | some τ =>
      obtain ⟨hsame, -⟩ := Ty.letters_append_inj ht hnames (hσ σ rfl) (hτ τ rfl) (congrArg (· ++ []) h)
      rw [hsame]

end

namespace Method

theorem of_descriptor?_eq_some {m : Method} {t : Table} {text : String} (hm : m.Over t)
    (h : m.descriptor? t.hierarchy = some text) :
    (∀ τ ∈ m.parameters.map (·.type), τ.Known t) ∧ (∀ τ ∈ m.returns, τ.Known t) ∧
      text.toList = m.letters t.hierarchy := by
  rw [descriptor?_eq] at h
  split at h
  next => cases h
  next hdefined =>
    cases h
    rw [not_or, not_exists] at hdefined
    refine ⟨List.forall_mem_map.2 fun v hv => ⟨hm.1 v hv, fun hτ => hdefined.2 v ⟨hv, hτ⟩⟩,
      fun τ hτ => ⟨hm.2 τ hτ, ?_⟩, String.toList_ofList⟩
    rintro rfl
    exact hdefined.1 hτ

/-- Equal descriptors come from equal types, whatever the classes are called. Only an undefined type keeps a
method from having a descriptor. -/
theorem descriptor_determines_types (t : Table) (ht : t.Built) (hnames : ∀ name ∈ t.classNames, ';' ∉ name.toList)
    (m m' : Method) (hm : m.Over t) (hm' : m'.Over t) :
    (∀ text, m.descriptor? t.hierarchy = some text → m'.descriptor? t.hierarchy = some text →
      m.parameters.map (·.type) = m'.parameters.map (·.type) ∧ m.returns = m'.returns) ∧
    (m.descriptor? t.hierarchy = none ↔
      m.returns = some .undefined ∨ ∃ v ∈ m.parameters, v.type = .undefined) := by
  constructor
  · intro text htext htext'
    obtain ⟨hparameters, hreturns, hletters⟩ := of_descriptor?_eq_some hm htext
    obtain ⟨hparameters', hreturns', hletters'⟩ := of_descriptor?_eq_some hm' htext'
    obtain ⟨-, hsame⟩ := List.cons.inj (hletters.symm.trans hletters')
    obtain ⟨htypes, hresult⟩ := Ty.flatMap_letters_inj ht hnames hparameters hparameters' hsame
    exact ⟨htypes, resultLetters_inj ht hnames hreturns hreturns' hresult⟩
  · rw [descriptor?_eq]
    split <;> simp_all

end Method

/-- Classes with names that look like the rest of a descriptor. -/
def oddlyNamed : Program where
  main := { name := { val := "Main" }, method := { val := "main" }, args := { val := "a" }, locals := [], body := [] }
  classes := ["I", "[ILI", ")V"].map fun name =>
    { name := { val := name }, extends? := none, fields := [], methods := [] }

/-- A method that takes an `I` and an array and returns a `)V`. -/
def Method.oddlyTyped (name first second : String) : Method where
  name := name
  returns := some (.cls ⟨3⟩)
  site := {}
  parameters := [
    { name := first, type := .cls ⟨1⟩, site := {}, index := 1, block := none },
    { name := second, type := .intArray, site := {}, index := 2, block := none }]

theorem Method.descriptor_determines_types_oddlyNamed :
    (∀ name ∈ (declare oddlyNamed).1.classNames, ';' ∉ name.toList) ∧
    (oddlyTyped "f" "x" "y").Over (declare oddlyNamed).1 ∧ (oddlyTyped "g" "y" "x").Over (declare oddlyNamed).1 ∧
    (oddlyTyped "f" "x" "y").descriptor? (declare oddlyNamed).1.hierarchy = some "(LI;[I)L)V;" ∧
    (oddlyTyped "g" "y" "x").descriptor? (declare oddlyNamed).1.hierarchy = some "(LI;[I)L)V;" ∧
    (oddlyTyped "f" "x" "y").parameters.map (·.type) = (oddlyTyped "g" "y" "x").parameters.map (·.type) ∧
    (oddlyTyped "f" "x" "y").returns = (oddlyTyped "g" "y" "x").returns := by
  have hnames : ∀ name ∈ (declare oddlyNamed).1.classNames, ';' ∉ name.toList := by decide +kernel
  have hf : (oddlyTyped "f" "x" "y").Over (declare oddlyNamed).1 := by decide +kernel
  have hg : (oddlyTyped "g" "y" "x").Over (declare oddlyNamed).1 := by decide +kernel
  have htext : (oddlyTyped "f" "x" "y").descriptor? (declare oddlyNamed).1.hierarchy = some "(LI;[I)L)V;" := by
    decide +kernel
  have htext' : (oddlyTyped "g" "y" "x").descriptor? (declare oddlyNamed).1.hierarchy = some "(LI;[I)L)V;" := by
    decide +kernel
  obtain ⟨hsame, -⟩ := descriptor_determines_types _ (Table.built_declare oddlyNamed) hnames _ _ hf hg
  exact ⟨hnames, hf, hg, htext, htext', hsame _ htext htext'⟩

end Lowering
