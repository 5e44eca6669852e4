import Mathlib
import PageCompiler.Number.Numeral
import PageCompiler.Text.Word
import PageCompiler.Proofs.WholeNumbers
import PageCompiler.Island.Formula.Token

/-!
The digits of a whole number are read as that number: as an integer by a template expression, and
as a 64-bit number by a formula.
-/

namespace PageCompiler

theorem Text.hexDigitValue?_of_isDigit {c : Char} (h : c.isDigit) :
    hexDigitValue? c = some (c.toNat - '0'.toNat) := by
  rw [hexDigitValue?, if_pos h]

theorem Text.valueInBase_of_isDigit {cs : List Char} (h : ∀ c ∈ cs, c.isDigit) :
    valueInBase 10 cs = Nat.ofDigitChars 10 cs 0 := by
  have hfold (m : Nat) : cs.foldl (fun n c => 10 * n + (hexDigitValue? c).getD 0) m =
      Nat.ofDigitChars 10 cs m := by
    induction cs generalizing m with
    | nil => rfl
    | cons c cs ih =>
      rw [List.forall_mem_cons] at h
      rw [List.foldl_cons, ih h.2, Nat.ofDigitChars_cons, hexDigitValue?_of_isDigit h.1]
      rfl
  exact hfold 0

theorem Text.valueInBase_toDigits (n : Nat) : valueInBase 10 (Nat.toDigits 10 n) = n := by
  have hdigits (c : Char) (h : c ∈ Nat.toDigits 10 n) : c.isDigit :=
    Nat.isDigit_of_mem_toDigits (by decide) (by decide) h
  rw [valueInBase_of_isDigit hdigits, Nat.ofDigitChars_ten_toDigits]

namespace Decimal

theorem all_isDigit_toDigits (n : Nat) : (Nat.toDigits 10 n).all Char.isDigit := by
  rw [List.all_eq_true]
  intro c hc
  exact Nat.isDigit_of_mem_toDigits (by decide) (by decide) hc

theorem continuesIdentifier_of_mem_toDigits {n : Nat} {c : Char} (h : c ∈ Nat.toDigits 10 n) :
    Text.continuesIdentifier c := by
  have hdigit : c.isDigit := List.all_eq_true.1 (all_isDigit_toDigits n) c h
  simp [Text.continuesIdentifier, Char.isAlphanum, hdigit]

theorem natural?_toDigits (n : Nat) : natural? (Nat.toDigits 10 n) = some n := by
  simp [natural?, all_isDigit_toDigits, Nat.toDigits_ne_nil, Text.valueInBase_toDigits]

theorem exists_toDigits (n : Nat) :
    ∃ c cs, Nat.toDigits 10 n = c :: cs ∧ c.isDigit ∧ cs.all Char.isDigit := by
  have hne : Nat.toDigits 10 n ≠ [] := Nat.toDigits_ne_nil
  obtain ⟨c, cs, h⟩ := List.exists_cons_of_ne_nil hne
  have hall := all_isDigit_toDigits n
  rw [h, List.all_cons, Bool.and_eq_true] at hall
  exact ⟨c, cs, h, hall⟩

theorem splitSign_toDigits (n : Nat) :
    splitSign (Nat.toDigits 10 n) = (false, Nat.toDigits 10 n) := by
  obtain ⟨c, cs, h, hc, -⟩ := exists_toDigits n
  rw [h]
  unfold splitSign
  split <;> simp_all

theorem integer?_integerText (n : Int) : integer? (Json.Number.integerText n) = some n := by
  rw [Json.Number.integerText]
  split
  · next hn =>
    have habs : -(n.natAbs : Int) = n := by omega
    simp only [integer?, splitSign, natural?_toDigits, signed, Option.map_some, if_true, habs]
  · next hn =>
    have habs : (n.natAbs : Int) = n := by omega
    simp only [integer?, splitSign_toDigits, natural?_toDigits, signed, Option.map_some,
      Bool.false_eq_true, if_false, habs]

theorem read?_toDigits (n : Nat) : read? (Nat.toDigits 10 n) = some ⟨n, 0⟩ := by
  have hall := all_isDigit_toDigits n
  simp [read?, List.takeWhile_eq_self_iff.2 (List.all_eq_true.1 hall), natural?_toDigits, power?,
    List.dropWhile_eq_nil_iff.2 (List.all_eq_true.1 hall)]

theorem toDouble?_ofNat {n : Nat} (h : n < 2 ^ 53) :
    toDouble? ⟨n, 0⟩ = some (.ofScientific n false 0) := by
  obtain rfl | hn := n.eq_zero_or_pos
  · rfl
  have hlength : (Nat.toDigits 10 n).length ≤ 16 :=
    (Nat.length_toDigits_le_iff (by decide) (by decide)).2 (by omega)
  have hfinite := Double.isFinite_normal (Double.toModel_ofScientific hn h)
  have hpoint : pointPosition ⟨n, 0⟩ = (Nat.toDigits 10 n).length := by
    simp [pointPosition, digitChars]
  have hdigits : (⟨n, 0⟩ : Decimal).digits = n := rfl
  rw [toDouble?, hpoint, hdigits, if_neg (by omega), if_neg (by omega)]
  show (if (Float.ofScientific n false 0).isFinite then some (Float.ofScientific n false 0)
    else none) = _
  rw [if_pos hfinite]

end Decimal

/-- An integer of 64 bits with a sign is read from its text. -/
theorem Json.Number.ofLiteral?_integerText {n : Int} (hl : leastInteger ≤ n)
    (hg : n ≤ greatestSigned) : ofLiteral? (integerText n) = some (.integer n) := by
  simp [ofLiteral?, ofIntegerText?, Decimal.integer?_integerText, Option.filter, hl, hg]

theorem Json.Number.lineFeed_notMem_integerText (n : Int) : '\n' ∉ integerText n := by
  have hdigits : '\n' ∉ Nat.toDigits 10 n.natAbs := fun hmem =>
    absurd (Nat.isDigit_of_mem_toDigits (by decide) (by decide) hmem) (by decide)
  rw [integerText]
  split <;> simp [hdigits]

theorem Island.Formula.Token.number?_toDigits {n : Nat} (h : n < 9000000000000000) :
    number? (Nat.toDigits 10 n) = some (.number (.integer n)) := by
  have hdouble : Decimal.toDouble? ⟨n, 0⟩ = _ := Decimal.toDouble?_ofNat (by omega)
  simp [number?, Decimal.read?_toDigits, hdouble, ofResult_ofNat h]

end PageCompiler
