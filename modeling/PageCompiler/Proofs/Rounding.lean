import PageCompiler.Proofs.WholeNumbers

/-!
Integers as 64-bit numbers. An integer with more than 53 bits becomes the multiple of a power of two
that is next to it, and from the middle of two that with the even significand. Main statement: these
numbers are compared as the integers that they stand for.
-/

namespace PageCompiler.Double

open Float.Model (Format totalExponent UnpackedFloat)
open Float.Model.UnpackedFloat (ExtendedMantissa Sign)

/-- `m / 2 ^ s` rounded to an integer, to the even one if it lies in the middle of two. -/
def halfEven (m s : Nat) : Nat :=
  if 2 * (m % 2 ^ s) < 2 ^ s then m / 2 ^ s
  else if 2 ^ s < 2 * (m % 2 ^ s) then m / 2 ^ s + 1
  else m / 2 ^ s + m / 2 ^ s % 2

/-- The number of bits that an integer has besides the 53 of a significand. -/
def excess (n : Nat) : Nat := n.log2 - 52

/-- What is left of an integer if its last bits are rounded away. -/
def nearestNat (n : Nat) : Nat := halfEven n (excess n) * 2 ^ excess n

/-- The integer that the 64-bit number for `n` stands for. -/
def nearest (n : Int) : Int := n.sign * nearestNat n.natAbs

section Rounding

variable {m n s : Nat}

theorem div_le_halfEven (m s : Nat) : m / 2 ^ s ≤ halfEven m s := by
  unfold halfEven
  split_ifs <;> omega

theorem halfEven_le (m s : Nat) : halfEven m s ≤ m / 2 ^ s + 1 := by
  unfold halfEven
  split_ifs <;> omega

/-- A greater quotient is not rounded to less, nor is a greater rest of the same one. -/
theorem halfEven_mono (h : m ≤ n) (s : Nat) : halfEven m s ≤ halfEven n s := by
  obtain hq | hq := (Nat.div_le_div_right (c := 2 ^ s) h).lt_or_eq
  · exact (halfEven_le m s).trans (Nat.le_trans hq (div_le_halfEven n s))
  · have hm := Nat.div_add_mod m (2 ^ s)
    have hn := Nat.div_add_mod n (2 ^ s)
    rw [hq] at hm
    rw [halfEven, halfEven, hq]
    split_ifs <;> omega

theorem halfEven_zero (m : Nat) : halfEven m 0 = m := by
  simp [halfEven, Nat.mod_one]

/-- Zeros behind an integer are rounded away without a change. -/
theorem halfEven_mul (m s k : Nat) : halfEven (m * 2 ^ k) (s + k) = halfEven m s := by
  have hk := Nat.two_pow_pos k
  have hlt (a b : Nat) : a * 2 ^ k < b * 2 ^ k ↔ a < b := Nat.mul_lt_mul_right hk
  rw [halfEven, Nat.pow_add, Nat.mul_div_mul_right _ _ hk, Nat.mul_mod_mul_right, ← Nat.mul_assoc]
  simp only [hlt]
  rfl

theorem excess_of_lt (h : n < 2 ^ 53) : excess n = 0 := by
  obtain rfl | hn := n.eq_zero_or_pos
  · rfl
  · have := (Nat.log2_lt hn.ne').2 h
    rw [excess]
    omega

theorem nearestNat_of_lt (h : n < 2 ^ 53) : nearestNat n = n := by
  rw [nearestNat, excess_of_lt h, halfEven_zero, Nat.pow_zero, Nat.mul_one]

/-- At most half of the last place is rounded away or added. -/
theorem two_mul_sub_nearestNat_le (n : Nat) :
    2 * ((n : Int) - nearestNat n).natAbs ≤ 2 ^ excess n := by
  have hn := Nat.div_add_mod n (2 ^ excess n)
  rw [Nat.mul_comm] at hn
  rw [nearestNat, halfEven]
  split_ifs with hbelow habove
  · omega
  · rw [Nat.add_mul, Nat.one_mul]
    omega
  · obtain h | h := Nat.mod_two_eq_zero_or_one (n / 2 ^ excess n) <;>
      rw [h, Nat.add_mul] <;> omega

theorem log2_eq_excess (h : 2 ^ 53 ≤ n) : n.log2 = excess n + 52 := by
  have : 53 ≤ n.log2 := (Nat.le_log2 (by omega)).2 h
  rw [excess]
  omega

theorem lt_two_pow_excess (n : Nat) : n < 2 ^ 53 * 2 ^ excess n := by
  rw [← Nat.pow_add]
  refine Nat.lt_log2_self.trans_le (Nat.pow_le_pow_right (by decide) ?_)
  rw [excess]
  omega

theorem two_pow_excess_le (h : 2 ^ 53 ≤ n) : 2 ^ 52 * 2 ^ excess n ≤ n := by
  rw [← Nat.pow_add, Nat.add_comm, ← log2_eq_excess h]
  exact Nat.log2_self_le (by omega)

/-- What is left fills the significand, or is one more than fits. -/
theorem halfEven_excess_le (n : Nat) : halfEven n (excess n) ≤ 2 ^ 53 := by
  have := (Nat.div_lt_iff_lt_mul (Nat.two_pow_pos (excess n))).2 (lt_two_pow_excess n)
  have := halfEven_le n (excess n)
  omega

theorem le_halfEven_excess (h : 2 ^ 53 ≤ n) : 2 ^ 52 ≤ halfEven n (excess n) :=
  ((Nat.le_div_iff_mul_le (Nat.two_pow_pos _)).2 (two_pow_excess_le h)).trans
    (div_le_halfEven n (excess n))

theorem two_pow_le_nearestNat (h : 2 ^ 53 ≤ n) : 2 ^ 53 ≤ nearestNat n := by
  have hexcess : 1 ≤ excess n := by
    have := log2_eq_excess h
    have : 53 ≤ n.log2 := (Nat.le_log2 (by omega)).2 h
    omega
  calc 2 ^ 53 = 2 ^ 52 * 2 ^ 1 := by decide
    _ ≤ nearestNat n :=
      Nat.mul_le_mul (le_halfEven_excess h) (Nat.pow_le_pow_right (by decide) hexcess)

theorem nearestNat_mono (h : m ≤ n) : nearestNat m ≤ nearestNat n := by
  have hlog : m.log2 ≤ n.log2 := by
    obtain rfl | hm := m.eq_zero_or_pos
    · exact Nat.zero_le _
    · obtain h | rfl := h.lt_or_eq
      · exact log2_le_of_lt hm h
      · exact le_rfl
  have hle : excess m ≤ excess n := Nat.sub_le_sub_right hlog 52
  obtain hlt | heq := hle.lt_or_eq
  · -- The greater one has more bits, and rounding reaches the next power of two at most.
    have hn : 2 ^ 53 ≤ n := by
      by_contra hn
      have := excess_of_lt (by omega : n < 2 ^ 53)
      omega
    calc nearestNat m ≤ 2 ^ 53 * 2 ^ excess m := Nat.mul_le_mul_right _ (halfEven_excess_le m)
      _ = 2 ^ 52 * 2 ^ (excess m + 1) := by rw [Nat.pow_succ]; omega
      _ ≤ nearestNat n :=
        Nat.mul_le_mul (le_halfEven_excess hn) (Nat.pow_le_pow_right (by decide) hlt)
  · rw [nearestNat, nearestNat, heq]
    exact Nat.mul_le_mul_right _ (halfEven_mono h _)

end Rounding

/-! ### The conversion -/

section Conversion

variable {n : Nat}

/-- Of the bits that are shifted out, the first one is kept, and whether there is another one. -/
theorem shiftRight_succ (m s : Nat) :
    (⟨m, false, false⟩ : ExtendedMantissa) >>> (s + 1) =
      ⟨m / 2 ^ (s + 1), m / 2 ^ s % 2 != 0, m % 2 ^ s != 0⟩ := by
  show Nat.repeat ExtendedMantissa.shiftRightOne (s + 1) _ = _
  induction s with
  | zero => simp [Nat.repeat, ExtendedMantissa.shiftRightOne, Nat.mod_one]
  | succ s ih =>
    rw [Nat.repeat, ih, ExtendedMantissa.shiftRightOne]
    have hpos := Nat.two_pow_pos s
    have hsticky : (m % 2 ^ (s + 1) != 0) = (m / 2 ^ s % 2 != 0 || m % 2 ^ s != 0) := by
      rw [Nat.mod_pow_succ, Bool.eq_iff_iff]
      simp only [bne_iff_ne, Bool.or_eq_true, ne_eq, Nat.add_eq_zero_iff, Nat.mul_eq_zero]
      omega
    rw [hsticky, Nat.div_div_eq_div_mul, ← Nat.pow_succ]

theorem roundedMantissa_eq (q : Nat) (first other : Bool) :
    (⟨q, first, other⟩ : ExtendedMantissa).roundedMantissa =
      if first then if other then q + 1 else q + q % 2 else q := by
  cases first <;> cases other <;> rfl

/-- These two bits decide as the rest does. -/
theorem roundedMantissa_shiftRight (m s : Nat) :
    ((⟨m, false, false⟩ : ExtendedMantissa) >>> s).roundedMantissa = halfEven m s := by
  cases s with
  | zero => rw [halfEven_zero]; rfl
  | succ s =>
    have hlt := Nat.mod_lt m (Nat.two_pow_pos s)
    have hrest := Nat.mod_pow_succ (x := m) (b := 2) (k := s)
    rw [shiftRight_succ, roundedMantissa_eq, halfEven, Nat.pow_succ 2 s] at *
    obtain hbit | hbit := Nat.mod_two_eq_zero_or_one (m / 2 ^ s)
    · rw [hbit, Nat.mul_zero, Nat.add_zero] at hrest
      have hbelow : 2 * (m % (2 ^ s * 2)) < 2 ^ s * 2 := by omega
      rw [if_pos hbelow, hbit]
      rfl
    · rw [hbit, Nat.mul_one] at hrest
      have hbelow : ¬2 * (m % (2 ^ s * 2)) < 2 ^ s * 2 := by omega
      rw [if_neg hbelow, hbit]
      by_cases hzero : m % 2 ^ s = 0
      · have habove : ¬2 ^ s * 2 < 2 * (m % (2 ^ s * 2)) := by omega
        rw [if_neg habove, hzero]
        rfl
      · have habove : 2 ^ s * 2 < 2 * (m % (2 ^ s * 2)) := by omega
        rw [if_pos habove]
        simp [hzero]

namespace Normal

/-- The number stands for the integer `v`. -/
def StandsFor (y : Normal) (v : Nat) : Prop :=
  -52 ≤ y.exponent ∧ y.significand * 2 ^ (y.exponent + 52).toNat = v * 2 ^ 52

theorem ofNat_standsFor (hn : 0 < n) (h : n < 2 ^ 53) : (ofNat n hn h).StandsFor n := by
  have hl := (Nat.log2_lt hn.ne').2 h
  refine ⟨by simp only [ofNat]; omega, ?_⟩
  show n * 2 ^ (52 - n.log2) * 2 ^ ((n.log2 : Int) - 52 + 52).toNat = n * 2 ^ 52
  rw [Nat.mul_assoc, ← Nat.pow_add]
  congr 2
  omega

/-- A significand of 53 bits, or the one that is too large for them by one. -/
theorem exists_shifted {m k : Nat} (hm : 2 ^ 52 ≤ m) (h : m ≤ 2 ^ 53) (hk : k ≤ 900) :
    ∃ y : Normal, y.StandsFor (m * 2 ^ k) ∧
      UnpackedFloat.shiftToTargetExponent .binary64 m k .exact =
        (⟨y.significand, false, false⟩, y.exponent) := by
  obtain hlt | rfl := h.lt_or_eq
  · let y : Normal := ⟨m, k, hm, hlt, by omega, by omega⟩
    refine ⟨y, ⟨by show (-52 : Int) ≤ k; omega, ?_⟩, ?_⟩
    · show m * 2 ^ ((k : Int) + 52).toNat = _
      rw [Nat.mul_assoc, ← Nat.pow_add]
      rfl
    · have hshift := y.shiftToTargetExponent_eq 0
      rwa [Nat.pow_zero, Nat.mul_one, Nat.cast_zero, Int.sub_zero] at hshift
  · let y : Normal := ⟨2 ^ 52, k + 1, le_rfl, by decide, by omega, by omega⟩
    refine ⟨y, ⟨by show (-52 : Int) ≤ k + 1; omega, ?_⟩, ?_⟩
    · show 2 ^ 52 * 2 ^ ((k : Int) + 1 + 52).toNat = 2 ^ 53 * 2 ^ k * 2 ^ 52
      rw [← Nat.pow_add, ← Nat.pow_add, ← Nat.pow_add]
      congr 1
      omega
    · have hshift := y.shiftToTargetExponent_eq 1
      have hexponent : (k : Int) + 1 - (1 : Nat) = k := by omega
      rw [show y.exponent = (k : Int) + 1 from rfl, hexponent] at hshift
      exact hshift

end Normal

/-- A greater integer is given with zeros behind it, and rounded. -/
theorem roundWithAccuracy_nearestNat (h : 2 ^ 53 ≤ n) (hlog : n.log2 ≤ 900) :
    ∃ y : Normal, y.StandsFor (nearestNat n) ∧
      UnpackedFloat.roundWithAccuracy .binary64 .positive (n * 2 ^ 53) (-53) .exact =
        y.unpacked .positive := by
  have hn := log2_eq_excess h
  have htotal : (n * 2 ^ 53).log2 = excess n + 105 := by
    rw [log2_mul_two_pow (by omega), hn]
  have htarget : Format.binary64.targetExponent (totalExponent (n * 2 ^ 53) (-53)) = excess n := by
    rw [totalExponent, htotal, Format.targetExponent]
    show max (((excess n + 105 : Nat) : Int) + 1 + -53 - 53) (-1074) = _
    omega
  have hshift : ((excess n : Int) - -53).toNat = excess n + 53 := by omega
  have hexponent : (-53 : Int) + ((excess n + 53 : Nat) : Int) = excess n := by omega
  obtain ⟨y, hy, hagain⟩ := Normal.exists_shifted (le_halfEven_excess h) (halfEven_excess_le n)
    (k := excess n) (by omega)
  refine ⟨y, hy, ?_⟩
  rw [UnpackedFloat.roundWithAccuracy, UnpackedFloat.shiftToTargetExponent, htarget,
    UnpackedFloat.shiftToExponent, hshift, hexponent]
  simp only [ExtendedMantissa.ofMantissaAndAccuracy, roundedMantissa_shiftRight, halfEven_mul,
    hagain]
  rw [dif_neg y.significand_pos.ne', Normal.unpacked]

theorem toModel_ofScientific_of_le (h : 2 ^ 53 ≤ n) :
    (Float.ofScientific n false 0).toModel = .pack (UnpackedFloat.roundWithAccuracy .binary64
      .positive (n * 2 ^ 53) (-53) .exact) := by
  have hmodel : (Float.ofScientific n false 0).toModel = .ofScientific n 0 := by
    rw [Float.ofScientific, dif_neg (by omega)]
    rfl
  have hn : n ≠ 0 := by omega
  have hlow : ¬(0 : Int) < -(2 ^ Format.binary64.exponentBits + (n.log2 : Int)) := by
    show ¬(0 : Int) < -(2 ^ 11 + (n.log2 : Int))
    omega
  rw [hmodel, Float.Model.ofScientific, UnpackedFloat.ofScientific, dif_neg hn,
    if_neg (by decide), if_neg hlow, if_pos le_rfl, UnpackedFloat.mul]
  simp only [Nat.shiftLeft_eq]
  show Float.Model.pack (UnpackedFloat.roundWithAccuracy .binary64 .positive
    (n * 2 ^ 53 * 1) (-53 + 0) .exact) = _
  rw [Nat.mul_one, Int.add_zero]

/-- A positive integer becomes the number that stands for the next one that fits. -/
theorem exists_standsFor (hn : 0 < n) (hlog : n.log2 ≤ 900) :
    ∃ y : Normal, y.StandsFor (nearestNat n) ∧
      (Float.ofScientific n false 0).toModel = .pack (y.unpacked .positive) := by
  by_cases h : n < 2 ^ 53
  · refine ⟨Normal.ofNat n hn h, ?_, toModel_ofScientific hn h⟩
    rw [nearestNat_of_lt h]
    exact Normal.ofNat_standsFor hn h
  · have h : 2 ^ 53 ≤ n := by omega
    obtain ⟨y, hy, hround⟩ := roundWithAccuracy_nearestNat h hlog
    exact ⟨y, hy, by rw [toModel_ofScientific_of_le h, hround]⟩

end Conversion

/-! ### The order -/

/-- The integer that an unpacked number stands for. -/
inductive StandsFor : UnpackedFloat → Int → Prop
  | zero (s : Sign) : StandsFor (.zero s) 0
  | positive {x : Normal} {v : Nat} : x.StandsFor v → StandsFor (x.unpacked .positive) v
  | negative {x : Normal} {v : Nat} : x.StandsFor v → StandsFor (x.unpacked .negative) (-v)

section Order

variable {x y : Normal} {v w : Nat}

theorem Normal.StandsFor.pos (hx : x.StandsFor v) : 0 < v := by
  have := Nat.mul_pos x.significand_pos (Nat.two_pow_pos (x.exponent + 52).toNat)
  rw [hx.2] at this
  omega

/-- The number with the greater exponent is the greater one, since significands are full. -/
theorem Normal.StandsFor.lt_of_exponent (hx : x.StandsFor v) (hy : y.StandsFor w)
    (h : x.exponent < y.exponent) : v < w := by
  have hle : (x.exponent + 52).toNat + 1 ≤ (y.exponent + 52).toNat := by
    have := hx.1
    omega
  refine Nat.lt_of_mul_lt_mul_right (a := 2 ^ 52) ?_
  calc v * 2 ^ 52 = x.significand * 2 ^ (x.exponent + 52).toNat := hx.2.symm
    _ < 2 ^ 53 * 2 ^ (x.exponent + 52).toNat :=
      Nat.mul_lt_mul_of_pos_right x.greatest (Nat.two_pow_pos _)
    _ = 2 ^ 52 * 2 ^ ((x.exponent + 52).toNat + 1) := by rw [Nat.pow_succ]; omega
    _ ≤ y.significand * 2 ^ (y.exponent + 52).toNat :=
      Nat.mul_le_mul y.least (Nat.pow_le_pow_right (by decide) hle)
    _ = w * 2 ^ 52 := hy.2

theorem Normal.StandsFor.lt_iff (hx : x.StandsFor v) (hy : y.StandsFor w)
    (h : x.exponent = y.exponent) : x.significand < y.significand ↔ v < w := by
  have hvw : v * 2 ^ 52 < w * 2 ^ 52 ↔ v < w := Nat.mul_lt_mul_right (Nat.two_pow_pos 52)
  rw [← hvw, ← hx.2, ← hy.2, h, Nat.mul_lt_mul_right (Nat.two_pow_pos _)]

/-- Exponents and then significands are in the order of the integers. -/
theorem Normal.StandsFor.compare_eq (hx : x.StandsFor v) (hy : y.StandsFor w) :
    (compare x.exponent y.exponent).then (compare x.significand y.significand) =
      compare (v : Int) w := by
  obtain h | h | h := Int.lt_trichotomy x.exponent y.exponent
  · rw [Int.compare_eq_lt.2 h, Int.compare_eq_lt.2 (by exact_mod_cast hx.lt_of_exponent hy h)]
    rfl
  · rw [Int.compare_eq_eq.2 h]
    obtain hs | hs | hs := Nat.lt_trichotomy x.significand y.significand
    · rw [Nat.compare_eq_lt.2 hs, Int.compare_eq_lt.2 (by exact_mod_cast (hx.lt_iff hy h).1 hs)]
      rfl
    · have hvw : v = w := by
        have hv := (hx.lt_iff hy h).not.1 hs.not_lt
        have hw := (hy.lt_iff hx h.symm).not.1 hs.not_gt
        omega
      rw [Nat.compare_eq_eq.2 hs, Int.compare_eq_eq.2 (by exact_mod_cast hvw)]
      rfl
    · rw [Nat.compare_eq_gt.2 hs,
        Int.compare_eq_gt.2 (by exact_mod_cast (hy.lt_iff hx h.symm).1 hs)]
      rfl
  · rw [Int.compare_eq_gt.2 h, Int.compare_eq_gt.2 (by exact_mod_cast hy.lt_of_exponent hx h)]
    rfl

theorem swap_compare (i j : Int) : (compare i j).swap = compare (-i) (-j) := by
  obtain h | rfl | h := Int.lt_trichotomy i j
  · rw [Int.compare_eq_lt.2 h, Int.compare_eq_gt.2 (Int.neg_lt_neg h)]
    rfl
  · rw [Int.compare_eq_eq.2 rfl, Int.compare_eq_eq.2 rfl]
    rfl
  · rw [Int.compare_eq_gt.2 h, Int.compare_eq_lt.2 (Int.neg_lt_neg h)]
    rfl

theorem StandsFor.compare_eq {a b : UnpackedFloat} {i j : Int} (ha : StandsFor a i)
    (hb : StandsFor b j) : a.compare b = some (compare i j) := by
  cases ha with
  | zero s =>
    cases hb with
    | zero t => rfl
    | positive hy =>
      have := hy.pos
      rw [Int.compare_eq_lt.2 (by omega)]
      rfl
    | negative hy =>
      have := hy.pos
      rw [Int.compare_eq_gt.2 (by omega)]
      rfl
  | positive hx =>
    have := hx.pos
    cases hb with
    | zero t =>
      rw [Int.compare_eq_gt.2 (by omega)]
      rfl
    | positive hy => exact congrArg some (hx.compare_eq hy)
    | negative hy =>
      have := hy.pos
      rw [Int.compare_eq_gt.2 (by omega)]
      rfl
  | negative hx =>
    have := hx.pos
    cases hb with
    | zero t =>
      rw [Int.compare_eq_lt.2 (by omega)]
      rfl
    | positive hy =>
      have := hy.pos
      rw [Int.compare_eq_lt.2 (by omega)]
      rfl
    | negative hy =>
      rw [← swap_compare, ← hx.compare_eq hy]
      rfl

theorem unpack_neg {a : Float} {x : Normal} (h : a.toModel = .pack (x.unpacked .positive)) :
    a.neg.toModel.unpack = x.unpacked .negative := by
  have hneg : a.neg.toModel = .pack a.toModel.unpack.neg := rfl
  rw [hneg, h, Normal.unpack_pack']
  exact Normal.unpack_pack' x .negative

/-- An integer becomes the number that stands for the next one that fits. -/
theorem ofInt_standsFor {n : Int} (hlog : n.natAbs.log2 ≤ 900) :
    StandsFor (ofInt n).toModel.unpack (nearest n) := by
  cases n with
  | ofNat n =>
    obtain rfl | hn := n.eq_zero_or_pos
    · exact .zero .positive
    · obtain ⟨x, hx, hmodel⟩ := exists_standsFor hn hlog
      have hnearest : nearest (Int.ofNat n) = nearestNat n := by
        rw [nearest, Int.sign_eq_one_of_pos (by simpa using hn), Int.one_mul]
        rfl
      have hunpack : (ofInt (Int.ofNat n)).toModel.unpack = x.unpacked .positive := by
        show (Float.ofScientific n false 0).toModel.unpack = _
        rw [hmodel, Normal.unpack_pack']
      rw [hnearest, hunpack]
      exact .positive hx
  | negSucc n =>
    obtain ⟨x, hx, hmodel⟩ := exists_standsFor n.succ_pos hlog
    have hnearest : nearest (Int.negSucc n) = -nearestNat (n + 1) := by
      rw [nearest, Int.sign_negSucc, Int.neg_mul, Int.one_mul]
      rfl
    have hunpack : (ofInt (Int.negSucc n)).toModel.unpack = x.unpacked .negative :=
      unpack_neg hmodel
    rw [hnearest, hunpack]
    exact .negative hx

end Order

end PageCompiler.Double
