import Mathlib
import PageCompiler.Island.Formula.Basic

/-!
Whole numbers as 64-bit numbers. Main statement: a whole number below `9 · 10 ^ 15` is exact, and as
the result of a calculation it is that integer again.
-/

namespace PageCompiler.Double

open Float.Model (Format totalExponent UnpackedFloat)
open Float.Model.UnpackedFloat (ExtendedMantissa Sign)

theorem log2_mul_two_pow {n : Nat} (hn : n ≠ 0) (k : Nat) : (n * 2 ^ k).log2 = n.log2 + k := by
  have hk := Nat.two_pow_pos k
  rw [Nat.log2_eq_iff (Nat.mul_ne_zero hn hk.ne'), Nat.pow_add, Nat.add_right_comm, Nat.pow_add]
  exact ⟨Nat.mul_le_mul_right _ (Nat.log2_self_le hn),
    Nat.mul_lt_mul_of_pos_right Nat.lt_log2_self hk⟩

/-- A significand that fills its 53 bits, and an exponent that leaves room below and above. -/
structure Normal where
  significand : Nat
  exponent : Int
  least : 2 ^ 52 ≤ significand
  greatest : significand < 2 ^ 53
  least_exponent : -1074 ≤ exponent
  greatest_exponent : exponent ≤ 971

namespace Normal

variable (x : Normal)

theorem significand_pos : 0 < x.significand := Nat.lt_of_lt_of_le (by decide) x.least

def unpacked (s : Sign) : UnpackedFloat := .finite s x.significand x.exponent x.significand_pos

theorem log2_significand : x.significand.log2 = 52 :=
  (Nat.log2_eq_iff x.significand_pos.ne').2 ⟨x.least, x.greatest⟩

/-- The exponent that is stored. -/
def biased : Nat := (x.exponent + 1075).toNat

theorem biased_pos : 0 < x.biased := by
  have := x.least_exponent
  rw [biased]
  omega

theorem biased_lt : x.biased < 2047 := by
  have := x.greatest_exponent
  rw [biased]
  omega

theorem pack_eq (s : Sign) : UnpackedFloat.pack .binary64 (x.unpacked s) =
    UnpackedFloat.packComponents .binary64 s (.ofNat 11 x.biased) (.ofNat 52 x.significand) := by
  have hb : (x.exponent + Format.binary64.exponentBias + (52 : Nat)).toNat = x.biased := by
    show (x.exponent + 1023 + 52).toNat = _
    rw [biased]
    omega
  have hlt := x.biased_lt
  simp only [unpacked, UnpackedFloat.pack, hb, x.log2_significand]
  rw [if_neg (by omega), if_pos (show 52 + 1 = Format.binary64.mantissaBits from rfl)]

theorem unpack_pack (s : Sign) :
    UnpackedFloat.unpack .binary64 (UnpackedFloat.pack .binary64 (x.unpacked s)) =
      x.unpacked s := by
  have hlt := x.biased_lt
  have hpos := x.biased_pos
  have hbiased : (BitVec.ofNat 11 x.biased).toNat = x.biased :=
    Nat.mod_eq_of_lt (by omega)
  have hinfinite : BitVec.ofNat 11 x.biased ≠ -1#11 := fun h => by
    have := hbiased.symm.trans (congrArg BitVec.toNat h)
    simp at this
    omega
  have hzero : BitVec.ofNat 11 x.biased ≠ 0#11 := fun h => by
    have := hbiased.symm.trans (congrArg BitVec.toNat h)
    simp at this
    omega
  have hsignificand : (1#1 ++ BitVec.ofNat 52 x.significand).toNat = x.significand := by
    have hl := x.least
    have hg := x.greatest
    rw [BitVec.toNat_append, ← Nat.shiftLeft_add_eq_or_of_lt (BitVec.isLt _), Nat.shiftLeft_eq]
    simp only [BitVec.toNat_ofNat]
    omega
  have hexponent : (x.biased : Int) - (Format.binary64.exponentBias + (52 : Nat)) = x.exponent := by
    have := x.least_exponent
    show (x.biased : Int) - (1023 + 52) = _
    rw [biased]
    omega
  rw [pack_eq, UnpackedFloat.unpack]
  simp only [UnpackedFloat.unpackExponent_packComponents,
    UnpackedFloat.unpackMantissa_packComponents, UnpackedFloat.unpackSign_packComponents,
    if_neg hinfinite, if_neg hzero, hsignificand, hbiased, hexponent, Sign.ofBitVec_toBitVec,
    unpacked]

theorem unpack_pack' (s : Sign) : (Float.Model.pack (x.unpacked s)).unpack = x.unpacked s :=
  x.unpack_pack s

theorem targetExponent_eq (k : Nat) :
    Format.binary64.targetExponent (totalExponent (x.significand * 2 ^ k) (x.exponent - k)) =
      x.exponent := by
  have hlog : (x.significand * 2 ^ k).log2 = 52 + k := by
    rw [log2_mul_two_pow x.significand_pos.ne', log2_significand]
  have := x.least_exponent
  rw [totalExponent, hlog, Format.targetExponent]
  show max (((52 + k : Nat) : Int) + 1 + (x.exponent - k) - 53) (-1074) = _
  push_cast
  omega

theorem shiftRight_exact (m k : Nat) :
    (⟨m * 2 ^ k, false, false⟩ : ExtendedMantissa) >>> k = ⟨m, false, false⟩ := by
  show Nat.repeat ExtendedMantissa.shiftRightOne k _ = _
  induction k generalizing m with
  | zero => simp [Nat.repeat]
  | succ k ih =>
    rw [Nat.repeat, Nat.pow_succ', ← Nat.mul_assoc, ih]
    simp [ExtendedMantissa.shiftRightOne]

theorem shiftToTargetExponent_eq (k : Nat) :
    UnpackedFloat.shiftToTargetExponent .binary64 (x.significand * 2 ^ k) (x.exponent - k) .exact =
      (⟨x.significand, false, false⟩, x.exponent) := by
  have hk : (x.exponent - (x.exponent - k)).toNat = k := by omega
  rw [UnpackedFloat.shiftToTargetExponent, targetExponent_eq, UnpackedFloat.shiftToExponent, hk,
    ExtendedMantissa.ofMantissaAndAccuracy, shiftRight_exact]
  exact congrArg _ (by omega)

/-- A significand with zeros behind it is rounded to itself. -/
theorem roundWithAccuracy_eq (s : Sign) (k : Nat) :
    UnpackedFloat.roundWithAccuracy .binary64 s (x.significand * 2 ^ k) (x.exponent - k) .exact =
      x.unpacked s := by
  have hagain := x.shiftToTargetExponent_eq 0
  rw [Nat.pow_zero, Nat.mul_one, Nat.cast_zero, Int.sub_zero] at hagain
  rw [UnpackedFloat.roundWithAccuracy, shiftToTargetExponent_eq]
  simp only [ExtendedMantissa.roundedMantissa, ExtendedMantissa.accuracy,
    UnpackedFloat.Accuracy.roundToNearestEven, hagain]
  rw [dif_neg x.significand_pos.ne', unpacked]

/-- A whole number of at most 53 bits, moved to the left until it fills them. -/
def ofNat (n : Nat) (hn : 0 < n) (h : n < 2 ^ 53) : Normal where
  significand := n * 2 ^ (52 - n.log2)
  exponent := n.log2 - 52
  least := by
    have hl := (Nat.log2_lt hn.ne').2 h
    calc 2 ^ 52 = 2 ^ n.log2 * 2 ^ (52 - n.log2) := by rw [← Nat.pow_add]; congr 1; omega
      _ ≤ n * 2 ^ (52 - n.log2) := Nat.mul_le_mul_right _ (Nat.log2_self_le hn.ne')
  greatest := by
    have hl := (Nat.log2_lt hn.ne').2 h
    calc n * 2 ^ (52 - n.log2) < 2 ^ (n.log2 + 1) * 2 ^ (52 - n.log2) :=
          Nat.mul_lt_mul_of_pos_right Nat.lt_log2_self (Nat.two_pow_pos _)
      _ = 2 ^ 53 := by rw [← Nat.pow_add]; congr 1; omega
  least_exponent := by omega
  greatest_exponent := by
    have hl := (Nat.log2_lt hn.ne').2 h
    omega

variable {n : Nat} (hn : 0 < n) (h : n < 2 ^ 53)

theorem ofInt_eq : UnpackedFloat.ofInt .binary64 n = (ofNat n hn h).unpacked .positive := by
  have hl := (Nat.log2_lt hn.ne').2 h
  have htarget : Format.binary64.targetExponent (totalExponent n 0) = (n.log2 : Int) - 52 := by
    rw [totalExponent, Format.targetExponent]
    show max ((n.log2 : Int) + 1 + 0 - 53) (-1074) = _
    omega
  have hshift : ((0 : Int) - ((n.log2 : Int) - 52)).toNat = 52 - n.log2 := by omega
  have hexponent : (0 : Int) - ((52 - n.log2 : Nat) : Int) = (n.log2 : Int) - 52 := by omega
  have hround := (ofNat n hn h).roundWithAccuracy_eq .positive 0
  rw [Nat.pow_zero, Nat.mul_one, Nat.cast_zero, Int.sub_zero] at hround
  rw [UnpackedFloat.ofInt, UnpackedFloat.normalize, Int.compare_eq_gt.2 (by omega)]
  simp only [Int.toNat_natCast, UnpackedFloat.round, htarget, UnpackedFloat.decreaseExponent,
    hshift, hexponent, Nat.shiftLeft_eq]
  exact hround

end Normal

/-- The number 1, by which the reading of a whole number multiplies it. -/
theorem unpack_one : (Float.Model.ofBits 4607182418800017408).unpack =
    .finite .positive (2 ^ 52) (-52) (by decide) := rfl

theorem toModel_ofScientific {n : Nat} (hn : 0 < n) (h : n < 2 ^ 53) :
    (Float.ofScientific n false 0).toModel = .pack ((Normal.ofNat n hn h).unpacked .positive) := by
  have hword : n.toUInt64.toNat = n := Nat.mod_eq_of_lt (by omega)
  have hmul : (Float.ofScientific n false 0).toModel =
      .mul (.pack (.ofInt .binary64 (n.toUInt64.toNat : Int))) (.ofBits 4607182418800017408) := by
    rw [Float.ofScientific, dif_pos ⟨h, by omega⟩]
    rfl
  rw [hmul, hword, Normal.ofInt_eq hn h, Float.Model.mul, unpack_one, Normal.unpack_pack']
  exact congrArg Float.Model.pack ((Normal.ofNat n hn h).roundWithAccuracy_eq .positive 52)

section Normal

variable {x : Float} {y : Normal} (hx : x.toModel = .pack (y.unpacked .positive))

include hx

theorem parts_normal : parts x = ⟨false, y.significand, y.exponent⟩ := by
  have hl := y.least
  have hg := y.greatest
  have hpos := y.biased_pos
  have hlt := y.biased_lt
  have hbits : x.toBits.toNat = y.biased * 2 ^ 52 + y.significand % 2 ^ 52 := by
    show x.toModel.toBits.toNat = _
    rw [hx]
    show (UnpackedFloat.pack .binary64 (y.unpacked .positive)).toNat = _
    rw [Normal.pack_eq]
    show (0#1 ++ BitVec.ofNat 11 y.biased ++ BitVec.ofNat 52 y.significand).toNat = _
    rw [BitVec.toNat_append, ← Nat.shiftLeft_add_eq_or_of_lt (BitVec.isLt _), BitVec.toNat_append,
      ← Nat.shiftLeft_add_eq_or_of_lt (BitVec.isLt _), Nat.shiftLeft_eq, Nat.shiftLeft_eq]
    simp only [BitVec.toNat_ofNat]
    omega
  have hexponent : (y.biased : Int) - 1075 = y.exponent := by
    have := y.least_exponent
    rw [Normal.biased]
    omega
  have hfraction : x.toBits.toNat % 2 ^ 52 = y.significand - 2 ^ 52 := by omega
  have hbiased : x.toBits.toNat / 2 ^ 52 % 2 ^ 11 = y.biased := by omega
  have hsign : x.toBits.toNat / 2 ^ 63 = 0 := by omega
  rw [parts, partsOfBits]
  simp only [fractionBits, exponentBias, Nat.pow_eq, hfraction, hbiased, hsign, hexponent,
    if_neg hpos.ne']
  simp
  omega

theorem isFinite_normal : x.isFinite := by
  show x.toModel.unpack.isFinite
  rw [hx, Normal.unpack_pack']
  rfl

end Normal

section Whole

variable {n m : Nat} (hn : 0 < n) (h : n < 2 ^ 53)

include hn in
theorem log2_le_of_lt (hm : n < m) : n.log2 ≤ m.log2 := by
  rw [← Nat.lt_succ_iff, Nat.log2_lt hn.ne']
  exact hm.trans Nat.lt_log2_self

theorem compare_ofNat (hnm : n < m) (hm : m < 2 ^ 53) :
    ((Normal.ofNat n hn h).unpacked .positive).compare
      ((Normal.ofNat m (hn.trans hnm) hm).unpacked .positive) = some .lt := by
  show some ((compare ((n.log2 : Int) - 52) ((m.log2 : Int) - 52)).then
    (compare (n * 2 ^ (52 - n.log2)) (m * 2 ^ (52 - m.log2)))) = some .lt
  -- the greater number has the greater exponent, or the same exponent and more in front of it
  obtain hlog | hlog := (log2_le_of_lt hn hnm).lt_or_eq
  · rw [Int.compare_eq_lt.2 (by omega)]
    rfl
  · rw [hlog, Int.compare_eq_eq.2 rfl, Nat.compare_eq_lt.2
      (Nat.mul_lt_mul_of_pos_right hnm (Nat.two_pow_pos _))]
    rfl

include hn h in
theorem isWhole_ofNat : isWhole (.ofScientific n false 0) := by
  have hl := (Nat.log2_lt hn.ne').2 h
  rw [isWhole, parts_normal (toModel_ofScientific hn h), Parts.isWhole, Bool.or_eq_true]
  right
  show decide (n * 2 ^ (52 - n.log2) % Nat.pow 2 ((n.log2 : Int) - 52).natAbs = 0) = true
  rw [show ((n.log2 : Int) - 52).natAbs = 52 - n.log2 by omega]
  exact decide_eq_true (Nat.mul_mod_left ..)

include hn h in
theorem toInt_ofNat : toInt (.ofScientific n false 0) = n := by
  have hl := (Nat.log2_lt hn.ne').2 h
  have hround : UnpackedFloat.roundToInt .positive (n * 2 ^ (52 - n.log2)) ((n.log2 : Int) - 52) =
      n := by
    have hdecrease : ((n.log2 : Int) - 52).toNat = 0 := by omega
    have hshift : (0 - ((n.log2 : Int) - 52)).toNat = 52 - n.log2 := by omega
    simp only [UnpackedFloat.roundToInt, UnpackedFloat.decreaseExponent, Int.sub_zero, hdecrease,
      UnpackedFloat.shiftToExponent, Nat.shiftLeft_zero, Nat.cast_zero, hshift,
      ExtendedMantissa.ofMantissaAndAccuracy, Normal.shiftRight_exact, Sign.apply]
  rw [toInt, toModel_ofScientific hn h, Float.Model.toInt64, Normal.unpack_pack',
    UnpackedFloat.toInt64]
  show (Int64.ofIntClamp (UnpackedFloat.roundToInt .positive (n * 2 ^ (52 - n.log2))
    ((n.log2 : Int) - 52))).toInt = n
  rw [hround, Int64.ofIntClamp, dif_pos, dif_pos, Int64.toInt_ofIntLE]
  · show (n : Int) ≤ 9223372036854775807
    omega
  · show (-9223372036854775808 : Int) ≤ n
    omega

end Whole

theorem lt_of_compare {x y : Float} (h : x.toModel.unpack.compare y.toModel.unpack = some .lt) :
    x < y := by
  have hmodel : x.toModel < y.toModel := by
    show (x.toModel.unpack.compare y.toModel.unpack == some .lt) = true
    rw [h]
    rfl
  show x.lt y = true
  exact decide_eq_true hmodel

end PageCompiler.Double

namespace PageCompiler.Island

open Double

/-- A whole number that a calculation gives is an integer. -/
theorem ofResult_ofNat {n : Nat} (h : n < 9000000000000000) :
    ofResult (.ofScientific n false 0) = .number (.integer n) := by
  obtain rfl | hn := n.eq_zero_or_pos
  · have hwhole : isWhole (.ofScientific 0 false 0) = true := by decide +kernel
    have hlow : ofInt (-9000000000000000) < .ofScientific 0 false 0 := by decide +kernel
    have hhigh : .ofScientific 0 false 0 < ofInt 9000000000000000 := by decide +kernel
    have hint : toInt (.ofScientific 0 false 0) = 0 := by decide +kernel
    simp [ofResult, hwhole, hlow, hhigh, hint]
  · have h53 : n < 2 ^ 53 := by omega
    have hx := toModel_ofScientific hn h53
    have hlow : ofInt (-9000000000000000) < .ofScientific n false 0 := by
      apply lt_of_compare
      rw [hx, Normal.unpack_pack']
      rfl
    have hhigh : .ofScientific n false 0 < ofInt 9000000000000000 := by
      apply lt_of_compare
      have hbound : (ofInt 9000000000000000).toModel = _ :=
        toModel_ofScientific (n := 9000000000000000) (by decide) (by decide)
      rw [hx, hbound, Normal.unpack_pack', Normal.unpack_pack']
      exact compare_ofNat hn h53 h _
    simp [ofResult, isWhole_ofNat hn h53, hlow, hhigh, toInt_ofNat hn h53]

end PageCompiler.Island
