/-!
Binary floating-point numbers of 64 bits, taken apart into sign, significand and exponent, and the
operations on them that are exact: the test for a whole number, truncation and the remainder.
-/

namespace PageCompiler.Double

/-- A finite number as `± significand · 2 ^ exponent`. -/
structure Parts where
  negative : Bool
  significand : Nat
  exponent : Int
  deriving DecidableEq, Repr

def fractionBits : Nat := 52

def exponentBias : Int := 1075

def partsOfBits (bits : Nat) : Parts :=
  let hidden := Nat.pow 2 fractionBits
  let fraction := bits % hidden
  let biased : Nat := bits / hidden % Nat.pow 2 11
  { negative := bits / Nat.pow 2 63 = 1
    significand := if biased = 0 then fraction else hidden + fraction
    exponent := if biased = 0 then 1 - exponentBias else (biased : Int) - exponentBias }

def parts (x : Float) : Parts := partsOfBits x.toBits.toNat

def Parts.isWhole (p : Parts) : Bool :=
  0 ≤ p.exponent || p.significand % Nat.pow 2 p.exponent.natAbs = 0

def isWhole (x : Float) : Bool := (parts x).isWhole

/-- The integer next to `x` on the side of zero, cut to the range of 64-bit signed integers. -/
def toInt (x : Float) : Int := x.toModel.toInt64.toInt

def ofInt (n : Int) : Float := .ofInt n

def negated (x : Float) : Float := -x

/-- `n · 2 ^ e`, rounded only where no 64-bit number has that value. -/
def scaled (n : Nat) (e : Int) : Float :=
  match e with
  | .ofNat e => .ofScientific (n * Nat.pow 2 e) false 0
  | .negSucc e => .ofScientific (n * Nat.pow 5 (e + 1)) true (e + 1)

/-- What is left of `x` when the largest whole multiple of `y` towards zero is taken away. It has
the sign of `x` and is exact; there is none for an infinite `x` or a zero `y`. -/
def remainder (x y : Float) : Float :=
  if !x.isFinite || y.isNaN || y == 0 then
    0 / 0
  else if !y.isFinite then
    x
  else
    let a := parts x
    let b := parts y
    let e := min a.exponent b.exponent
    let rest := a.significand * Nat.pow 2 (a.exponent - e).toNat %
      (b.significand * Nat.pow 2 (b.exponent - e).toNat)
    if a.negative then negated (scaled rest e) else scaled rest e

end PageCompiler.Double
