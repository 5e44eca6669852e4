import PageCompiler.Proofs.Blanks
import PageCompiler.Proofs.Comparisons
import PageCompiler.Proofs.Numerals
import PageCompiler.Props.Type

/-!
Integers as values of props. Main statement: an integer of a document is kept if it has 64 bits with
a sign, and every greater one becomes the greatest of these; a text is read as the integer that is
written there, and refused if there is none or if it is not one of these.
-/

namespace PageCompiler

namespace Double

open Float.Model (UnpackedFloat)
open Float.Model.UnpackedFloat (ExtendedMantissa Sign)
open Json.Number (leastInteger greatestSigned)

/-- The bits that are shifted out of a number that stands for an integer are zeros. -/
theorem Normal.StandsFor.roundToInt_eq {x : Normal} {v : Nat} (h : x.StandsFor v) (s : Sign) :
    UnpackedFloat.roundToInt s x.significand x.exponent = s.apply v := by
  obtain ⟨hleast, hv⟩ := h
  suffices hmantissa : ((⟨x.significand <<< x.exponent.toNat, false, false⟩ : ExtendedMantissa) >>>
      (0 - (x.exponent - (x.exponent.toNat : Int))).toNat).mantissa = v by
    simp only [UnpackedFloat.roundToInt, UnpackedFloat.decreaseExponent, Int.sub_zero,
      UnpackedFloat.shiftToExponent, ExtendedMantissa.ofMantissaAndAccuracy, hmantissa]
  obtain ⟨k, hk | hk⟩ := x.exponent.eq_nat_or_neg
  · have hup : x.exponent.toNat = k := by omega
    have hdown : (0 - (x.exponent - (x.exponent.toNat : Int))).toNat = 0 := by omega
    have hexponent : (x.exponent + 52).toNat = k + 52 := by omega
    rw [hexponent, Nat.pow_add, ← Nat.mul_assoc] at hv
    rw [hdown, hup, Nat.shiftLeft_eq, Nat.eq_of_mul_eq_mul_right (Nat.two_pow_pos 52) hv]
    rfl
  · have hup : x.exponent.toNat = 0 := by omega
    have hdown : (0 - (x.exponent - (x.exponent.toNat : Int))).toNat = k := by omega
    have hpow : 2 ^ 52 = 2 ^ k * 2 ^ (x.exponent + 52).toNat := by
      rw [← Nat.pow_add]
      congr 1
      omega
    rw [hpow, ← Nat.mul_assoc] at hv
    rw [hdown, hup, Nat.shiftLeft_zero, Nat.eq_of_mul_eq_mul_right (Nat.two_pow_pos _) hv,
      Normal.shiftRight_exact]

theorem toInt_ofIntClamp (i : Int) :
    (Int64.ofIntClamp i).toInt = max leastInteger (min i greatestSigned) := by
  have hmin : Int64.minValue.toInt = -9223372036854775808 := rfl
  have hmax : Int64.maxValue.toInt = 9223372036854775807 := rfl
  rw [Int64.ofIntClamp, leastInteger, greatestSigned]
  split
  · split
    · rw [Int64.toInt_ofIntLE]
      omega
    · omega
  · omega

theorem StandsFor.toInt_eq {a : UnpackedFloat} {i : Int} (h : StandsFor a i)
    (least greatest : Int) : UnpackedFloat.toInt least greatest a = i := by
  cases h with
  | zero s => rfl
  | positive hx => exact hx.roundToInt_eq .positive
  | negative hx => exact hx.roundToInt_eq .negative

/-- A number that stands for an integer is cut to the range of the signed ones. -/
theorem toInt_of_standsFor {x : Float} {i : Int} (h : StandsFor x.toModel.unpack i) :
    toInt x = max leastInteger (min i greatestSigned) := by
  rw [toInt, Float.Model.toInt64, UnpackedFloat.toInt64, h.toInt_eq, toInt_ofIntClamp]

end Double

namespace Decimal

/-- At least one character, and nothing but digits. -/
def IsDigits (cs : List Char) : Prop := cs ≠ [] ∧ ∀ c ∈ cs, c.isDigit

/-- How integers are written: in digits, with or without a sign in front of them. -/
inductive Denotes : List Char → Int → Prop
  | unsigned : IsDigits cs → Denotes cs (Nat.ofDigitChars 10 cs 0)
  | plus : IsDigits cs → Denotes ('+' :: cs) (Nat.ofDigitChars 10 cs 0)
  | minus : IsDigits cs → Denotes ('-' :: cs) (-Nat.ofDigitChars 10 cs 0)

variable {cs : List Char} {n : Int}

theorem natural?_eq_some_iff {m : Nat} :
    natural? cs = some m ↔ IsDigits cs ∧ Nat.ofDigitChars 10 cs 0 = m := by
  have hdigits : (cs.isEmpty || !cs.all Char.isDigit) = false ↔ IsDigits cs := by
    simp [IsDigits]
  rw [natural?]
  split
  · next h =>
    apply iff_of_false (Option.some_ne_none m).symm
    intro hcs
    rw [hdigits.2 hcs.1] at h
    cases h
  · next h =>
    rw [Bool.not_eq_true, hdigits] at h
    rw [Option.some_inj, Text.valueInBase_of_isDigit h.2]
    exact (and_iff_right h).symm

theorem splitSign_cases (cs : List Char) :
    (∃ ds, cs = '-' :: ds) ∨ (∃ ds, cs = '+' :: ds) ∨ splitSign cs = (false, cs) := by
  unfold splitSign
  split
  · exact .inl ⟨_, rfl⟩
  · exact .inr (.inl ⟨_, rfl⟩)
  · exact .inr (.inr rfl)

theorem splitSign_of_isDigits (h : IsDigits cs) : splitSign cs = (false, cs) := by
  obtain ⟨ds, rfl⟩ | ⟨ds, rfl⟩ | hs := splitSign_cases cs
  · cases h.2 '-' List.mem_cons_self
  · cases h.2 '+' List.mem_cons_self
  · exact hs

theorem integer?_eq_some_iff : integer? cs = some n ↔ Denotes cs n := by
  have read {negative : Bool} {ds : List Char} : (natural? ds).map (signed negative) = some n ↔
      IsDigits ds ∧ signed negative (Nat.ofDigitChars 10 ds 0) = n := by
    simp only [Option.map_eq_some_iff, natural?_eq_some_iff]
    constructor
    · rintro ⟨m, ⟨hdigits, rfl⟩, hn⟩
      exact ⟨hdigits, hn⟩
    · rintro ⟨hdigits, hn⟩
      exact ⟨_, ⟨hdigits, rfl⟩, hn⟩
  constructor
  · intro h
    rw [integer?] at h
    obtain ⟨ds, rfl⟩ | ⟨ds, rfl⟩ | hs := splitSign_cases cs
    · obtain ⟨hdigits, rfl⟩ := read.1 h
      exact .minus hdigits
    · obtain ⟨hdigits, rfl⟩ := read.1 h
      exact .plus hdigits
    · rw [hs] at h
      obtain ⟨hdigits, rfl⟩ := read.1 h
      exact .unsigned hdigits
  · intro h
    cases h with
    | unsigned hdigits =>
      rw [integer?, splitSign_of_isDigits hdigits]
      exact read.2 ⟨hdigits, rfl⟩
    | plus hdigits => exact read.2 ⟨hdigits, rfl⟩
    | minus hdigits => exact read.2 ⟨hdigits, rfl⟩

theorem Denotes.not_isBlank (h : Denotes cs n) : ∀ c ∈ cs, Text.isBlank c = false := by
  have digits {ds : List Char} (h : IsDigits ds) : ∀ c ∈ ds, Text.isBlank c = false := by
    intro c hc
    apply Text.isBlank_of_isAlphanum
    rw [Char.isAlphanum, h.2 c hc, Bool.or_true]
  cases h with
  | unsigned hdigits => exact digits hdigits
  | plus hdigits => exact List.forall_mem_cons.2 ⟨rfl, digits hdigits⟩
  | minus hdigits => exact List.forall_mem_cons.2 ⟨rfl, digits hdigits⟩

end Decimal

/-- The text is an integer, written between blanks. -/
def Text.IsInteger (text : String) (n : Int) : Prop :=
  ∃ p cs q, text.toList = p ++ (cs ++ q) ∧ (∀ c ∈ p, isBlank c) ∧ (∀ c ∈ q, isBlank c) ∧
    Decimal.Denotes cs n

theorem Text.isInteger_iff {text : String} {n : Int} :
    IsInteger text n ↔ Decimal.integer? (trimmed text).toList = some n := by
  rw [trimmed, String.toList_ofList]
  constructor
  · rintro ⟨p, cs, q, htext, hp, hq, hcs⟩
    have hfirst : cs.head?.all (!isBlank ·) := by
      rw [Option.all_eq_true]
      intro c hc
      rw [hcs.not_isBlank c (List.mem_of_mem_head? hc)]
      rfl
    have hlast : cs.getLast?.all (!isBlank ·) := by
      rw [Option.all_eq_true]
      intro c hc
      rw [hcs.not_isBlank c (List.mem_of_mem_getLast? hc)]
      rfl
    rw [htext, trim_append hp hq hfirst hlast, Decimal.integer?_eq_some_iff]
    exact hcs
  · intro h
    obtain ⟨p, q, htext, hp, hq, -⟩ := exists_trim text.toList
    exact ⟨p, _, q, htext, hp, hq, Decimal.integer?_eq_some_iff.1 h⟩

theorem Text.IsInteger.eq {text : String} {m n : Int} (hm : IsInteger text m)
    (hn : IsInteger text n) : m = n :=
  Option.some.inj ((isInteger_iff.1 hm).symm.trans (isInteger_iff.1 hn))

/-- The integer has 64 bits with a sign. -/
def Json.Number.IsSigned (n : Int) : Prop := leastInteger ≤ n ∧ n ≤ greatestSigned

namespace PropType

open Json (Value Number)
open Json.Number (InRange IsSigned leastInteger greatestSigned)

variable {text : String} {n : Int}

/-- An integer above the signed ones is made a 64-bit number, which is cut to their range. -/
theorem integerOf_integer (h : InRange n) :
    integerOf (.integer n) = .ok (min n greatestSigned) := by
  rw [integerOf]
  split
  · next hsigned => rw [Int.min_eq_left hsigned.2]
  · next hsigned =>
    have hgreat : greatestSigned + 1 ≤ n := by
      have := h.1
      omega
    have hnearest : Double.nearest (greatestSigned + 1) = greatestSigned + 1 := by decide +kernel
    have hle : greatestSigned + 1 ≤ Double.nearest n := hnearest ▸ Double.nearest_mono hgreat
    have hleast : leastInteger ≤ greatestSigned := by decide
    rw [Double.toInt_of_standsFor (Double.ofInt_standsFor h.log2_le)]
    congr 1
    omega

theorem ofText_int_of_isSigned (h : Text.IsInteger text n) (hs : IsSigned n) :
    int.ofText text = .ok (.number (.integer n)) := by
  have hread : Number.ofIntegerText? (Text.trimmed text).toList = some n := by
    rw [Number.ofIntegerText?, Text.isInteger_iff.1 h, Option.filter_some, if_pos]
    exact decide_eq_true (p := leastInteger ≤ n ∧ n ≤ greatestSigned) hs
  simp only [ofText.eq_def, hread]

theorem ofText_int_of_not_isSigned (h : ∀ n, Text.IsInteger text n → ¬IsSigned n) :
    int.ofText text = .error (.notInteger (Text.trimmed text)) := by
  have hread : Number.ofIntegerText? (Text.trimmed text).toList = none := by
    rw [Number.ofIntegerText?, Option.filter_eq_none_iff]
    intro n hn hs
    have hsigned : leastInteger ≤ n ∧ n ≤ greatestSigned := of_decide_eq_true hs
    exact h n (Text.isInteger_iff.2 hn) hsigned
  simp only [ofText.eq_def, hread]

theorem ofValue_int (h : InRange n) :
    int.ofValue (.number (.integer n)) = .ok (.number (.integer (min n greatestSigned))) := by
  rw [ofValue, integerOf_integer h]
  rfl

theorem ofValue_int_changes_iff (h : InRange n) :
    (∃ m ≠ n, int.ofValue (.number (.integer n)) = .ok (.number (.integer m))) ↔ ¬IsSigned n := by
  have hmin : min n greatestSigned ≠ n ↔ ¬IsSigned n := by
    have hleast := h.1
    rw [IsSigned]
    omega
  rw [← hmin, ofValue_int h]
  constructor
  · rintro ⟨m, hm, hok⟩
    cases hok
    exact hm
  · intro hne
    exact ⟨_, hne, rfl⟩

theorem ofText_int_cases (text : String) :
    (∃ m, Text.IsInteger text m ∧ IsSigned m ∧ int.ofText text = .ok (.number (.integer m))) ∨
      (∀ m, Text.IsInteger text m → ¬IsSigned m) ∧
        int.ofText text = .error (.notInteger (Text.trimmed text)) := by
  by_cases h : ∃ m, Text.IsInteger text m ∧ IsSigned m
  · obtain ⟨m, hm, hs⟩ := h
    exact .inl ⟨m, hm, hs, ofText_int_of_isSigned hm hs⟩
  · have hnone : ∀ m, Text.IsInteger text m → ¬IsSigned m := fun m hm hs => h ⟨m, hm, hs⟩
    exact .inr ⟨hnone, ofText_int_of_not_isSigned hnone⟩

/-- As the value of an integer prop, an integer of a document stays what it is if it has 64 bits with
a sign, and else becomes the greatest of these. Text, also as a value, is read as the integer that it
is, and refused where it is none or not one of these. -/
theorem int_keeps_signed (h : InRange n) (text : String) :
    int.ofValue (.number (.integer n)) = .ok (.number (.integer (min n greatestSigned))) ∧
      ((∃ m ≠ n, int.ofValue (.number (.integer n)) = .ok (.number (.integer m))) ↔
        ¬IsSigned n) ∧
      ((∃ m, Text.IsInteger text m ∧ IsSigned m ∧ int.ofText text = .ok (.number (.integer m))) ∨
        (∀ m, Text.IsInteger text m → ¬IsSigned m) ∧
          int.ofText text = .error (.notInteger (Text.trimmed text))) ∧
      (∀ l m, Text.IsInteger text l → Text.IsInteger text m → l = m) ∧
      int.ofValue (.string text) = int.ofText text :=
  ⟨ofValue_int h, ofValue_int_changes_iff h, ofText_int_cases text, fun _ _ => Text.IsInteger.eq,
    rfl⟩

/-- The greatest integer of a document, and the least one. -/
theorem int_keeps_signed_bounds :
    InRange 0xffffffffffffffff ∧ InRange (-0x8000000000000000) ∧
      int.ofValue (.number (.integer 0xffffffffffffffff)) =
        .ok (.number (.integer 0x7fffffffffffffff)) ∧
      int.ofValue (.number (.integer (-0x8000000000000000))) =
        .ok (.number (.integer (-0x8000000000000000))) := by
  have hgreat : InRange 0xffffffffffffffff := ⟨by decide, by decide⟩
  have hleast : InRange (-0x8000000000000000) := ⟨by decide, by decide⟩
  exact ⟨hgreat, hleast, (int_keeps_signed hgreat "").1, (int_keeps_signed hleast "").1⟩

/-- The first integer that has no place among the signed ones is made another one, where its text is
refused. -/
theorem int_changes_unsigned :
    InRange 9223372036854775808 ∧
      int.ofValue (.number (.integer 9223372036854775808)) =
        .ok (.number (.integer 9223372036854775807)) ∧
      int.ofText "9223372036854775808" = .error (.notInteger "9223372036854775808") := by
  have hcut : Double.toInt (Double.ofInt 9223372036854775808) = 9223372036854775807 := by
    decide +kernel
  refine ⟨⟨by decide, by decide⟩, ?_, by rfl⟩
  rw [ofValue, integerOf, if_neg (by decide), hcut]
  rfl

end PropType

end PageCompiler
