import Mathlib
import Lowering.Procedure
import Lowering.Proofs.Outcome

/-!
# Literals and numerals

A numeral is a literal with its parts apart, so it says what is spelled and which number that is without
a reader. Reading a literal accepts the numerals that fit into their words and refuses everything else.
-/

namespace Lowering.Source.Literal

/-! ## Numerals -/

inductive Sign where
  | plus
  | minus
  deriving DecidableEq, Repr

inductive Suffix where
  | small
  | capital
  deriving DecidableEq, Repr

/-- A sign, one or more digits and a suffix. Neither sign nor suffix has to be there. -/
structure Numeral where
  sign : Option Sign
  digits : List (Fin 10)
  suffix : Option Suffix
  digits_ne_nil : digits ≠ []

def Sign.letter : Sign → Char
  | .plus => '+'
  | .minus => '-'

def Suffix.letter : Suffix → Char
  | .small => 'l'
  | .capital => 'L'

def digitLetters (ds : List (Fin 10)) : List Char := ds.map fun d : Fin 10 => Nat.digitChar d

/-- The number of the digits, the last of which counts the ones. -/
def magnitude (ds : List (Fin 10)) : Nat := Nat.ofDigits 10 (ds.reverse.map Fin.val)

def signed : Option Sign → Nat → Int
  | some .minus, n => -n
  | _, n => n

namespace Numeral

def spelling (n : Numeral) : String :=
  .ofList ((n.sign.map Sign.letter).toList ++ digitLetters n.digits ++ (n.suffix.map Suffix.letter).toList)

def value (n : Numeral) : Int := signed n.sign (magnitude n.digits)

example : spelling ⟨some .minus, [0, 4, 2], some .small, by decide⟩ = "-042l" := by decide

example : value ⟨some .minus, [0, 4, 2], some .small, by decide⟩ = -42 := by decide

/-- With a suffix the value has to fit into 64 bits, without one into 32. -/
def Fits (n : Numeral) : Prop :=
  if n.suffix.isSome then -2 ^ 63 ≤ n.value ∧ n.value < 2 ^ 63 else -2 ^ 31 ≤ n.value ∧ n.value < 2 ^ 31

/-- The constant for the numeral has its value and the width that the suffix asks for. -/
inductive Denotes (n : Numeral) : Tree.Expr → Prop
  | const {v : Int32} : n.suffix = none → v.toInt = n.value → Denotes n (.const v)
  | longConst {v : Int64} : n.suffix.isSome → v.toInt = n.value → Denotes n (.longConst v)

end Numeral

/-! ## Digits -/

theorem isDigit_digitLetters (ds : List (Fin 10)) : ∀ c ∈ digitLetters ds, c.isDigit = true := by
  unfold digitLetters
  rw [List.forall_mem_map]
  intro d _
  rw [Nat.isDigit_digitChar, decide_eq_true d.isLt]

theorem exists_digitChar {c : Char} (h : c.isDigit = true) : ∃ d : Fin 10, Nat.digitChar d = c := by
  obtain ⟨hlow, hhigh⟩ := Char.isDigit_iff_toNat.1 h
  rw [show '0'.toNat = 48 from rfl] at hlow
  rw [show '9'.toNat = 57 from rfl] at hhigh
  refine ⟨⟨c.toNat - 48, by omega⟩, Char.toNat_inj.1 ?_⟩
  rw [Nat.toNat_digitChar_of_lt_ten (Fin.isLt _)]
  exact Nat.add_sub_cancel' hlow

theorem exists_digitLetters {cs : List Char} (h : ∀ c ∈ cs, c.isDigit = true) : ∃ ds, digitLetters ds = cs := by
  induction cs with
  | nil => exact ⟨[], rfl⟩
  | cons c cs ih =>
    obtain ⟨hc, hcs⟩ := List.forall_mem_cons.1 h
    obtain ⟨d, rfl⟩ := exists_digitChar hc
    obtain ⟨ds, rfl⟩ := ih hcs
    exact ⟨d :: ds, rfl⟩

theorem digitsValue_digitLetters (seen : Nat) (ds : List (Fin 10)) :
    digitsValue seen (digitLetters ds) = magnitude ds + 10 ^ ds.length * seen := by
  induction ds generalizing seen with
  | nil => simp [digitsValue, digitLetters, magnitude]
  | cons d ds ih =>
    have hstep : digitsValue seen (digitLetters (d :: ds)) = digitsValue (10 * seen + d) (digitLetters ds) := by
      simp [digitsValue, digitLetters, Nat.toNat_digitChar_of_lt_ten d.isLt]
    have hplace : magnitude (d :: ds) = magnitude ds + 10 ^ ds.length * d := by
      simp [magnitude, Nat.ofDigits_append]
    rw [hstep, ih, hplace, List.length_cons]
    ring

theorem natural?_eq_some_iff {cs : List Char} {k : Nat} :
    natural? cs = some k ↔ ∃ ds, ds ≠ [] ∧ digitLetters ds = cs ∧ magnitude ds = k := by
  unfold natural?
  constructor
  · intro h
    split at h
    next hdigits =>
      simp only [Bool.and_eq_true, Bool.not_eq_true', List.isEmpty_eq_false_iff, List.all_eq_true] at hdigits
      obtain ⟨ds, rfl⟩ := exists_digitLetters hdigits.2
      refine ⟨ds, fun hnil => hdigits.1 (by simp [hnil, digitLetters]), rfl, ?_⟩
      rw [digitsValue_digitLetters] at h
      simpa using h
    next => cases h
  · rintro ⟨ds, hne, rfl, rfl⟩
    have hdigits : (!(digitLetters ds).isEmpty && (digitLetters ds).all Char.isDigit) = true := by
      simp only [Bool.and_eq_true, List.all_eq_true]
      exact ⟨by simp [digitLetters, hne], isDigit_digitLetters ds⟩
    rw [if_pos hdigits, digitsValue_digitLetters]
    simp

theorem natural?_toDigits (n : Nat) : natural? (Nat.toDigits 10 n) = some n := by
  have hdigits : (!(Nat.toDigits 10 n).isEmpty && (Nat.toDigits 10 n).all Char.isDigit) = true := by
    simp only [Bool.and_eq_true, List.all_eq_true]
    exact ⟨by simp [Nat.toDigits_ne_nil], fun c hc => Nat.isDigit_of_mem_toDigits (by decide) (by decide) hc⟩
  rw [natural?, if_pos hdigits, digitsValue, ← Nat.ofDigitChars_eq_foldl, Nat.ofDigitChars_ten_toDigits]

/-! ## Signs -/

theorem integer?_of_digits {cs : List Char} (h : ∀ c ∈ cs, c.isDigit = true) :
    integer? cs = (natural? cs).map Int.ofNat := by
  unfold integer?
  split
  next => exact absurd (h '+' List.mem_cons_self) (by decide)
  next => exact absurd (h '-' List.mem_cons_self) (by decide)
  next => rfl

theorem integer?_cases {cs : List Char} {k : Int} (h : integer? cs = some k) :
    ∃ (sign : Option Sign) (rest : List Char) (n : Nat), (sign.map Sign.letter).toList ++ rest = cs ∧
      natural? rest = some n ∧ signed sign n = k := by
  unfold integer? at h
  split at h
  next rest =>
    obtain ⟨n, hn, hk⟩ := Option.map_eq_some_iff.1 h
    exact ⟨some .plus, rest, n, rfl, hn, hk⟩
  next rest =>
    obtain ⟨n, hn, hk⟩ : ∃ n : Nat, natural? rest = some n ∧ -(n : Int) = k := by
      simpa [Option.bind_eq_some_iff] using h
    exact ⟨some .minus, rest, n, rfl, hn, hk⟩
  next =>
    obtain ⟨n, hn, hk⟩ := Option.map_eq_some_iff.1 h
    exact ⟨none, cs, n, rfl, hn, hk⟩

theorem integer?_eq_some_iff {cs : List Char} {k : Int} : integer? cs = some k ↔
    ∃ (sign : Option Sign) (ds : List (Fin 10)), ds ≠ [] ∧ (sign.map Sign.letter).toList ++ digitLetters ds = cs ∧
      signed sign (magnitude ds) = k := by
  constructor
  · intro h
    obtain ⟨sign, rest, n, rfl, hn, rfl⟩ := integer?_cases h
    obtain ⟨ds, hne, rfl, rfl⟩ := natural?_eq_some_iff.1 hn
    exact ⟨sign, ds, hne, rfl, rfl⟩
  · rintro ⟨sign, ds, hne, rfl, rfl⟩
    have hnatural : natural? (digitLetters ds) = some (magnitude ds) := natural?_eq_some_iff.2 ⟨ds, hne, rfl, rfl⟩
    match sign with
    | some .plus | some .minus => simp [integer?, Sign.letter, signed, hnatural]
    | none =>
      have hinteger := integer?_of_digits (isDigit_digitLetters ds)
      rw [hnatural] at hinteger
      exact hinteger

theorem integer?_toString (k : Int) : integer? (toString k).toList = some k := by
  rw [Int.toString_eq_repr, Int.repr_eq_if]
  split
  next hk =>
    have hdigits : ∀ c ∈ Nat.toDigits 10 k.toNat, c.isDigit = true :=
      fun c hc => Nat.isDigit_of_mem_toDigits (by decide) (by decide) hc
    rw [Nat.toList_repr, integer?_of_digits hdigits, natural?_toDigits]
    simpa using hk
  next hk =>
    have hnatural := natural?_toDigits (-k).toNat
    simp [integer?, hnatural]
    omega

/-! ## Words -/

theorem narrow?_eq_some_iff {k : Int} {w : Word} : narrow? k = some w ↔ ∃ v : Int32, v.toInt = k ∧ .narrow v = w := by
  unfold narrow?
  constructor
  · intro h
    split at h
    next hrange =>
      have hvalue : (Int32.ofInt k).toInt = k :=
        Int32.toInt_ofInt_of_le hrange.1 (Int.lt_of_le_of_lt hrange.2 (by decide))
      exact ⟨.ofInt k, hvalue, Option.some.inj h⟩
    next => cases h
  · rintro ⟨v, rfl, rfl⟩
    rw [if_pos ⟨v.minValue_le_toInt, v.toInt_le⟩, Int32.ofInt_toInt]

theorem wide?_eq_some_iff {k : Int} {w : Word} : wide? k = some w ↔ ∃ v : Int64, v.toInt = k ∧ .wide v = w := by
  unfold wide?
  constructor
  · intro h
    split at h
    next hrange =>
      have hvalue : (Int64.ofInt k).toInt = k :=
        Int64.toInt_ofInt_of_le hrange.1 (Int.lt_of_le_of_lt hrange.2 (by decide))
      exact ⟨.ofInt k, hvalue, Option.some.inj h⟩
    next => cases h
  · rintro ⟨v, rfl, rfl⟩
    rw [if_pos ⟨v.minValue_le_toInt, v.toInt_le⟩, Int64.ofInt_toInt]

/-! ## Whole literals -/

theorem exists_suffix {c : Char} (h : isSuffix c = true) : ∃ suffix : Suffix, suffix.letter = c := by
  simp only [isSuffix, Bool.or_eq_true, beq_iff_eq] at h
  rcases h with rfl | rfl
  · exact ⟨.small, rfl⟩
  · exact ⟨.capital, rfl⟩

theorem isSuffix_letter (suffix : Suffix) : isSuffix suffix.letter = true := by
  cases suffix <;> rfl

theorem isSuffix_of_isDigit {c : Char} (h : c.isDigit = true) : isSuffix c = false := by
  by_contra hsuffix
  obtain ⟨suffix, rfl⟩ := exists_suffix (Bool.eq_true_of_not_eq_false hsuffix)
  cases suffix <;> cases h

namespace Numeral

theorem toList_spelling (n : Numeral) : n.spelling.toList =
    (n.sign.map Sign.letter).toList ++ digitLetters n.digits ++ (n.suffix.map Suffix.letter).toList :=
  String.toList_ofList

theorem Denotes.exists_word {n : Numeral} {e : Tree.Expr} (h : n.Denotes e) : ∃ w, e = .ofWord w := by
  cases h with
  | @const v _ _ => exact ⟨.narrow v, rfl⟩
  | @longConst v _ _ => exact ⟨.wide v, rfl⟩

theorem fits_iff (n : Numeral) : n.Fits ↔ ∃ e, n.Denotes e := by
  unfold Fits
  constructor
  · intro h
    split at h
    next hsuffix => exact ⟨_, .longConst hsuffix (Int64.toInt_ofInt_of_le h.1 h.2)⟩
    next hsuffix => exact ⟨_, .const (by simpa using hsuffix) (Int32.toInt_ofInt_of_le h.1 h.2)⟩
  · rintro ⟨e, hdenotes⟩
    cases hdenotes with
    | @const v hsuffix hvalue =>
      rw [← hvalue]
      simpa [hsuffix] using ⟨v.le_toInt, v.toInt_lt⟩
    | @longConst v hsuffix hvalue =>
      rw [← hvalue, if_pos hsuffix]
      exact ⟨v.le_toInt, v.toInt_lt⟩

end Numeral

theorem parse?_of_suffix {cs : List Char} {c : Char} {spelling : String} (hc : isSuffix c = true)
    (h : spelling.toList = cs ++ [c]) : parse? spelling = (integer? cs).bind wide? := by
  simp [parse?, h, hc]

theorem parse?_of_not_suffix {spelling : String} (h : ∀ c ∈ spelling.toList.getLast?, isSuffix c = false) :
    parse? spelling = (integer? spelling.toList).bind narrow? := by
  unfold parse?
  apply if_neg
  rw [Option.any_eq_true]
  rintro ⟨c, hlast, hc⟩
  rw [h c hlast] at hc
  cases hc

theorem Numeral.Denotes.parse? {n : Numeral} {w : Word} (h : n.Denotes (.ofWord w)) :
    parse? n.spelling = some w := by
  have hvalue : integer? ((n.sign.map Sign.letter).toList ++ digitLetters n.digits) = some n.value :=
    integer?_eq_some_iff.2 ⟨n.sign, n.digits, n.digits_ne_nil, rfl, rfl⟩
  cases w with
  | narrow v =>
    cases h with
    | const hsuffix hv =>
      have hletters : n.spelling.toList = (n.sign.map Sign.letter).toList ++ digitLetters n.digits := by
        simp [n.toList_spelling, hsuffix]
      have hlast : ∀ c ∈ n.spelling.toList.getLast?, isSuffix c = false := by
        intro c hc
        have hne : digitLetters n.digits ≠ [] := by simp [digitLetters, n.digits_ne_nil]
        rw [hletters, List.getLast?_append_of_ne_nil _ hne] at hc
        exact isSuffix_of_isDigit (isDigit_digitLetters _ c (List.mem_of_getLast? hc))
      rw [parse?_of_not_suffix hlast, hletters, hvalue]
      exact narrow?_eq_some_iff.2 ⟨v, hv, rfl⟩
  | wide v =>
    cases h with
    | longConst hsuffix hv =>
      obtain ⟨suffix, hsuffix⟩ := Option.isSome_iff_exists.1 hsuffix
      have hletters : n.spelling.toList =
          (n.sign.map Sign.letter).toList ++ digitLetters n.digits ++ [suffix.letter] := by
        simp [n.toList_spelling, hsuffix]
      rw [parse?_of_suffix (isSuffix_letter suffix) hletters, hvalue]
      exact wide?_eq_some_iff.2 ⟨v, hv, rfl⟩

theorem exists_numeral_of_parse? {spelling : String} {w : Word} (h : parse? spelling = some w) :
    ∃ n : Numeral, n.spelling = spelling ∧ n.Denotes (.ofWord w) := by
  by_cases hlast : ∃ c ∈ spelling.toList.getLast?, isSuffix c = true
  · obtain ⟨c, hlast, hc⟩ := hlast
    have hletters := (List.dropLast_append_getLast? c hlast).symm
    rw [parse?_of_suffix hc hletters] at h
    obtain ⟨k, hk, hw⟩ := Option.bind_eq_some_iff.1 h
    obtain ⟨sign, ds, hne, hcs, rfl⟩ := integer?_eq_some_iff.1 hk
    obtain ⟨v, hv, rfl⟩ := wide?_eq_some_iff.1 hw
    obtain ⟨suffix, rfl⟩ := exists_suffix hc
    refine ⟨⟨sign, ds, some suffix, hne⟩, ?_, .longConst rfl hv⟩
    rw [← String.toList_inj, Numeral.toList_spelling, hletters, ← hcs]
    rfl
  · have hlast : ∀ c ∈ spelling.toList.getLast?, isSuffix c = false := by
      intro c hc
      exact Bool.eq_false_iff.2 fun hsuffix => hlast ⟨c, hc, hsuffix⟩
    rw [parse?_of_not_suffix hlast] at h
    obtain ⟨k, hk, hw⟩ := Option.bind_eq_some_iff.1 h
    obtain ⟨sign, ds, hne, hcs, rfl⟩ := integer?_eq_some_iff.1 hk
    obtain ⟨v, hv, rfl⟩ := narrow?_eq_some_iff.1 hw
    refine ⟨⟨sign, ds, none, hne⟩, ?_, .const rfl hv⟩
    rw [← String.toList_inj, Numeral.toList_spelling, ← hcs]
    simp

theorem exists_numeral (k : Int) (suffix : Option Suffix) : ∃ n : Numeral,
    n.spelling = toString k ++ .ofList (suffix.map Suffix.letter).toList ∧ n.suffix = suffix ∧ n.value = k := by
  obtain ⟨sign, ds, hne, hcs, hk⟩ := integer?_eq_some_iff.1 (integer?_toString k)
  refine ⟨⟨sign, ds, suffix, hne⟩, ?_, rfl, hk⟩
  rw [← String.toList_inj, Numeral.toList_spelling, String.toList_append, String.toList_ofList, ← hcs]

end Lowering.Source.Literal

namespace Lowering.Lower

open Lowering.Source.Literal (Numeral parse? exists_numeral exists_numeral_of_parse?)

theorem lowerExpr_literal_of_some {spelling : String} {word : Word} (h : parse? spelling = some word)
    (env : Surroundings) (w : Work) :
    (lowerExpr env (.literal spelling)).run.run w = (.ok (.value (.ofWord word)), w) := by
  unfold lowerExpr
  rw [h]
  rfl

theorem lowerExpr_literal_of_none {spelling : String} (h : parse? spelling = none) (env : Surroundings) (w : Work) :
    (lowerExpr env (.literal spelling)).run.run w = (.error (.invalidLiteral spelling), w) := by
  unfold lowerExpr
  rw [h]
  rfl

theorem lowerExpr_literal_iff_denotes (env : Surroundings) (w : Work) (spelling : String) (e : Tree.Expr) :
    (lowerExpr env (.literal spelling)).run.run w = (.ok (.value e), w) ↔
      ∃ n : Numeral, n.spelling = spelling ∧ n.Denotes e := by
  constructor
  · intro h
    cases hparse : parse? spelling with
    | none =>
      rw [lowerExpr_literal_of_none hparse] at h
      cases h
    | some word =>
      rw [lowerExpr_literal_of_some hparse] at h
      cases h
      exact exists_numeral_of_parse? hparse
  · rintro ⟨n, rfl, hdenotes⟩
    obtain ⟨word, rfl⟩ := hdenotes.exists_word
    exact lowerExpr_literal_of_some hdenotes.parse? env w

theorem lowerExpr_literal_iff_fits (env : Surroundings) (w : Work) (spelling : String) :
    (∃ e, (lowerExpr env (.literal spelling)).run.run w = (.ok (.value e), w)) ↔
      ∃ n : Numeral, n.spelling = spelling ∧ n.Fits := by
  simp only [lowerExpr_literal_iff_denotes, Numeral.fits_iff]
  constructor
  · rintro ⟨e, n, hspelling, hdenotes⟩
    exact ⟨n, hspelling, e, hdenotes⟩
  · rintro ⟨n, hspelling, e, hdenotes⟩
    exact ⟨e, n, hspelling, hdenotes⟩

theorem lowerExpr_literal_refused_iff (env : Surroundings) (w : Work) (spelling : String) :
    (lowerExpr env (.literal spelling)).run.run w = (.error (.invalidLiteral spelling), w) ↔
      ¬ ∃ n : Numeral, n.spelling = spelling ∧ n.Fits := by
  rw [← lowerExpr_literal_iff_fits env w]
  cases hparse : parse? spelling with
  | none =>
    refine iff_of_true (lowerExpr_literal_of_none hparse env w) ?_
    rintro ⟨e, he⟩
    rw [lowerExpr_literal_of_none hparse] at he
    cases he
  | some word =>
    refine iff_of_false ?_ (not_not_intro ⟨_, lowerExpr_literal_of_some hparse env w⟩)
    rw [lowerExpr_literal_of_some hparse]
    intro he
    cases he

/-- A literal lowers to a constant if and only if it is a numeral that fits, and the constant is then the one that
the numeral denotes. Every other literal is refused. -/
theorem literal_lowers_iff_numeral (env : Surroundings) (w : Work) :
    (∀ spelling e, (lowerExpr env (.literal spelling)).run.run w = (.ok (.value e), w) ↔
      ∃ n : Numeral, n.spelling = spelling ∧ n.Denotes e) ∧
    (∀ spelling, (∃ e, (lowerExpr env (.literal spelling)).run.run w = (.ok (.value e), w)) ↔
      ∃ n : Numeral, n.spelling = spelling ∧ n.Fits) ∧
    (∀ spelling, (lowerExpr env (.literal spelling)).run.run w = (.error (.invalidLiteral spelling), w) ↔
      ¬ ∃ n : Numeral, n.spelling = spelling ∧ n.Fits) ∧
    (∀ v : Int32, (lowerExpr env (.literal (toString v.toInt))).run.run w = (.ok (.value (.const v)), w)) ∧
    (∀ v : Int64, (lowerExpr env (.literal (toString v.toInt ++ "L"))).run.run w =
      (.ok (.value (.longConst v)), w)) := by
  refine ⟨lowerExpr_literal_iff_denotes env w, lowerExpr_literal_iff_fits env w,
    lowerExpr_literal_refused_iff env w, fun v => ?_, fun v => ?_⟩
  · obtain ⟨n, hspelling, hsuffix, hvalue⟩ := exists_numeral v.toInt none
    refine (lowerExpr_literal_iff_denotes ..).2 ⟨n, ?_, .const hsuffix hvalue.symm⟩
    simpa using hspelling
  · obtain ⟨n, hspelling, hsuffix, hvalue⟩ := exists_numeral v.toInt (some .capital)
    refine (lowerExpr_literal_iff_denotes ..).2 ⟨n, ?_, .longConst (by simp [hsuffix]) hvalue.symm⟩
    exact hspelling

end Lowering.Lower
