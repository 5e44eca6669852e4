import PageCompiler.Number.Double

/-!
Decimal notation of 64-bit numbers: the shortest decimal that reads back as the same number, and
the number nearest to a decimal.
-/

namespace PageCompiler

structure Decimal where
  digits : Nat
  exponent : Int
  deriving DecidableEq, Repr

namespace Decimal

/-- Which of two equally near decimals is taken. -/
inductive Tie
  | even
  | up
  deriving DecidableEq, Repr

/-- The reals that round to a number are those between two bounds. All values here are in units of
a quarter of the last binary place, brought to a common denominator. -/
structure Interval where
  low : Nat
  value : Nat
  high : Nat
  /-- Whether the bounds themselves belong to it. -/
  closed : Bool
  denominator : Nat

/-- Next to a power of two the gap below is half the gap above; a bound belongs to the interval if
the significand is even. -/
def intervalOf (p : Double.Parts) : Interval :=
  let scale := Nat.pow 2 p.exponent.toNat
  let narrow := p.significand = Nat.pow 2 Double.fractionBits ∧ 1 - Double.exponentBias < p.exponent
  { low := (4 * p.significand - (if narrow then 1 else 2)) * scale
    value := 4 * p.significand * scale
    high := (4 * p.significand + 2) * scale
    closed := p.significand % 2 = 0
    denominator := 4 * Nat.pow 2 (-p.exponent).toNat }

/-- `c` steps of the grid `unit` lie in the interval whose bounds are scaled by `scale`. -/
def Interval.holds (i : Interval) (scale unit c : Nat) : Bool :=
  if i.closed then i.low * scale ≤ c * unit && c * unit ≤ i.high * scale
  else i.low * scale < c * unit && c * unit < i.high * scale

/-- The point of the grid of powers `10 ^ k` that lies in the interval, the nearer of two. -/
def Interval.onGrid? (tie : Tie) (i : Interval) (k : Int) : Option Nat :=
  let scale := Nat.pow 10 (-k).toNat
  let unit := i.denominator * Nat.pow 10 k.toNat
  let below := i.value * scale / unit
  let above := if i.value * scale % unit = 0 then below else below + 1
  match i.holds scale unit below, i.holds scale unit above with
  | true, true =>
    let down := i.value * scale - below * unit
    let up := above * unit - i.value * scale
    if down < up then some below
    else if up < down then some above
    else
      match tie with
      | .up => some above
      | .even => some (if below % 2 = 0 then below else above)
  | true, false => some below
  | false, true => some above
  | false, false => none

/-- The power of ten of the leading digit, from the power of two of the leading bit: it is this
estimate or one more. -/
def leadingPower (p : Double.Parts) (i : Interval) : Int :=
  let binary : Int := p.significand.log2 + p.exponent
  let estimate := Int.fdiv (binary * 30103) 100000
  let next := estimate + 1
  if i.denominator * Nat.pow 10 next.toNat ≤ i.value * Nat.pow 10 (-next).toNat then next
  else estimate

/-- Moves zeros at the end of the digits into the exponent, at most `n` of them. -/
def dropZeros : Nat → Decimal → Decimal
  | 0, d => d
  | n + 1, d =>
    if d.digits ≠ 0 ∧ d.digits % 10 = 0 then dropZeros n ⟨d.digits / 10, d.exponent + 1⟩ else d

/-- The decimal with the fewest digits that reads back as the number, and of those the nearest to
it. Seventeen digits always suffice. -/
def shortest (tie : Tie) (p : Double.Parts) : Decimal :=
  if p.significand = 0 then ⟨0, 0⟩
  else
    let i := intervalOf p
    let leading := leadingPower p i
    let found := (List.range 17).findSome? fun (n : Nat) =>
      let k := leading - n
      (i.onGrid? tie k).map fun c => (⟨c, k⟩ : Decimal)
    dropZeros 20 (found.getD ⟨p.significand, p.exponent⟩)

def digitChars (d : Decimal) : List Char := Nat.toDigits 10 d.digits

/-- How many digits stand in front of the point; not positive if zeros follow the point. -/
def pointPosition (d : Decimal) : Int := d.exponent + d.digitChars.length

def positional (d : Decimal) : List Char :=
  let digits := d.digitChars
  let point := d.pointPosition
  if 0 ≤ d.exponent then
    digits ++ List.replicate d.exponent.toNat '0'
  else if 0 < point then
    digits.take point.toNat ++ '.' :: digits.drop point.toNat
  else
    '0' :: '.' :: List.replicate point.natAbs '0' ++ digits

/-- One digit in front of the point, and a power of ten with its sign. -/
def scientific (d : Decimal) : List Char :=
  let power := d.pointPosition - 1
  let sign := if power < 0 then '-' else '+'
  let mantissa :=
    match d.digitChars with
    | [] => []
    | [c] => [c]
    | c :: cs => c :: '.' :: cs
  mantissa ++ 'e' :: sign :: Nat.toDigits 10 power.natAbs

/-- The nearest 64-bit number, unless it would be infinite. The first two tests keep the powers
of ten small: from `10 ^ 309` on every number is too large, below `10 ^ -400` every one is zero. -/
def toDouble? (d : Decimal) : Option Float :=
  if d.digits = 0 ∨ d.pointPosition < -400 then some 0
  else if 310 < d.pointPosition then none
  else
    let x :=
      match d.exponent with
      | .ofNat e => Float.ofScientific d.digits false e
      | .negSucc e => Float.ofScientific d.digits true (e + 1)
    if x.isFinite then some x else none

end Decimal

end PageCompiler
