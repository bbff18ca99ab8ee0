import Lowering.Proofs.Machine.Evaluation
import Lowering.Proofs.Tree.Meaning

/-!
# Temps that do not stand in a tree

They play no part in it: a run of the tree goes the same way whatever they hold, and it leaves them
as they were.
-/

namespace Lowering

open Lowering.Tree (Temp Label Expr Stm)

/-- The same machine with another word in the temp. -/
def Machine.withTemp (m : Machine) (t : Temp) (w : Word) : Machine := { m with temps := m.temps.insert t w }

namespace Machine

variable {m m' : Machine} {t u : Temp} {v w : Word}

theorem temps_withTemp_self : (m.withTemp t w).temps[t]? = some w := Std.ExtTreeMap.getElem?_insert_self

theorem temps_withTemp_ne (h : t ≠ u) : (m.withTemp t w).temps[u]? = m.temps[u]? := getElem?_insert_ne h _ _

theorem withTemp_comm (h : t ≠ u) : (m.withTemp t v).withTemp u w = (m.withTemp u w).withTemp t v := by
  have htemps : (m.temps.insert t v).insert u w = (m.temps.insert u w).insert t v := by
    apply Std.ExtTreeMap.ext_getElem?
    intro k
    simp only [Std.ExtTreeMap.getElem?_insert, Std.LawfulEqOrd.compare_eq_iff_eq]
    grind
  unfold withTemp
  simp only [htemps]

theorem answer_withTemp {name : String} {args : List Int64} {r : Int64} (h : m.answer name args = (.ok r, m')) :
    (m.withTemp t v).answer name args = (.ok r, m'.withTemp t v) := by
  obtain ⟨cells, output, calls, rfl, hsame⟩ := answer_ok h
  exact hsame (m.withTemp t v) rfl rfl rfl rfl rfl

end Machine

namespace Tree

variable {t : Temp} {v : Word}

theorem notMem_append {xs ys : List Temp} : t ∉ xs ++ ys ↔ t ∉ xs ∧ t ∉ ys := by
  rw [List.mem_append, not_or]

theorem Stm.notMem_temps_parts (st : Stm) (ht : t ∉ st.temps) : ∀ p ∈ st.parts, t ∉ p.temps := by
  cases st with
  | seq a b =>
    obtain ⟨hta, htb⟩ := notMem_append.1 ht
    exact List.forall_mem_append.2 ⟨a.notMem_temps_parts hta, b.notMem_temps_parts htb⟩
  | _ => exact List.forall_mem_singleton.2 ht

mutual
theorem Eval.withTemp : ∀ {m : Machine} {e : Expr} {w : Word} {m' : Machine}, Eval m e w m' → t ∉ e.temps →
    Eval (m.withTemp t v) e w (m'.withTemp t v)
  | _, _, _, _, .const, _ => .const
  | _, _, _, _, .longConst, _ => .longConst
  | _, _, _, _, @Eval.temp m u w hu, ht => by
    have hne : t ≠ u := fun heq => ht (List.mem_singleton.2 heq)
    exact .temp ((Machine.temps_withTemp_ne hne).trans hu)
  | _, _, _, _, .binOp hl hr, ht => by
    obtain ⟨htl, htr⟩ := notMem_append.1 ht
    exact .binOp (hl.withTemp htl) (hr.withTemp htr)
  | _, _, _, _, .mem ha, ht => .mem (ha.withTemp ht)
  | _, _, _, _, .call hf hargs hanswer, ht => by
    obtain ⟨htf, htargs⟩ := notMem_append.1 ht
    exact .call (hf.withTemp htf) (hargs.withTemp htargs) (Machine.answer_withTemp hanswer)
  | _, _, _, _, @Eval.eseq _ _ _ st e _ hruns he, ht => by
    obtain ⟨hts, hte⟩ := notMem_append.1 ht
    have hparts := st.notMem_temps_parts hts
    exact .eseq (hruns.withTemp hparts hparts) (he.withTemp hte)

theorem EvalAll.withTemp : ∀ {m : Machine} {es : List Expr} {ws : List Int64} {m' : Machine}, EvalAll m es ws m' →
    t ∉ Expr.tempsAll es → EvalAll (m.withTemp t v) es ws (m'.withTemp t v)
  | _, _, _, _, .nil, _ => .nil
  | _, _, _, _, .cons he hrest, ht => by
    obtain ⟨hte, htrest⟩ := notMem_append.1 ht
    exact .cons (he.withTemp hte) (hrest.withTemp htrest)

theorem Target.withTemp : ∀ {m : Machine} {e : Expr} {l : Label} {m' : Machine}, Target m e l m' → t ∉ e.temps →
    Target (m.withTemp t v) e l (m'.withTemp t v)
  | _, _, _, _, .name, _ => .name
  | _, _, _, _, @Target.eseq _ _ _ st e _ hruns he, ht => by
    obtain ⟨hts, hte⟩ := notMem_append.1 ht
    have hparts := st.notMem_temps_parts hts
    exact .eseq (hruns.withTemp hparts hparts) (he.withTemp hte)

theorem Assigns.withTemp : ∀ {m : Machine} {target source : Expr} {m' : Machine}, Assigns m target source m' →
    t ∉ target.temps → t ∉ source.temps → Assigns (m.withTemp t v) target source (m'.withTemp t v)
  | _, _, _, _, @Assigns.temp _ m₁ u _ w hs, htt, hts => by
    have hne : t ≠ u := fun heq => htt (List.mem_singleton.2 heq)
    have hmove : Assigns _ _ _ ((m₁.withTemp t v).withTemp u w) := .temp (hs.withTemp hts)
    rwa [Machine.withTemp_comm hne] at hmove
  | _, _, _, _, .mem ha hs, htt, hts => .mem (ha.withTemp htt) (hs.withTemp hts)
  | _, _, _, _, @Assigns.eseq _ _ _ st target _ hruns ht, htt, hts => by
    obtain ⟨htst, htt⟩ := notMem_append.1 htt
    have hparts := st.notMem_temps_parts htst
    exact .eseq (hruns.withTemp hparts hparts) (ht.withTemp htt hts)

theorem Step.withTemp : ∀ {m : Machine} {st : Stm} {next : Option Label} {m' : Machine}, Step m st next m' →
    t ∉ st.temps → Step (m.withTemp t v) st next (m'.withTemp t v)
  | _, _, _, _, .label, _ => .label
  | _, _, _, _, .move ha, ht => by
    obtain ⟨htt, hts⟩ := notMem_append.1 ht
    exact .move (ha.withTemp htt hts)
  | _, _, _, _, .exp he, ht => .exp (he.withTemp ht)
  | _, _, _, _, .jump htarget, ht => .jump (htarget.withTemp ht)
  | _, _, _, _, .cjump hl hr, ht => by
    obtain ⟨htl, htr⟩ := notMem_append.1 ht
    exact .cjump (hl.withTemp htl) (hr.withTemp htr)

theorem Runs.withTemp : ∀ {parts rest : List Stm} {m m' : Machine}, Runs parts rest m m' →
    (∀ p ∈ parts, t ∉ p.temps) → (∀ p ∈ rest, t ∉ p.temps) → Runs parts rest (m.withTemp t v) (m'.withTemp t v)
  | _, _, _, _, .done, _, _ => .done
  | _, _, _, _, .next hstep hruns, hparts, hrest => by
    obtain ⟨hfirst, hrest⟩ := List.forall_mem_cons.1 hrest
    exact .next (hstep.withTemp hfirst) (hruns.withTemp hparts hrest)
  | _, _, _, _, .goto hstep hlabel hruns, hparts, hrest => by
    obtain ⟨hfirst, -⟩ := List.forall_mem_cons.1 hrest
    have hafter := hparts
    rw [hlabel] at hafter
    exact .goto (hstep.withTemp hfirst) hlabel (hruns.withTemp hparts (List.forall_mem_append.1 hafter).2)
end

end Tree

end Lowering
