import PageCompiler.Number.Decimal

/-!
The numbers of a data context. An integer stays exact if it fits 64 bits with or without a sign;
every other number is a finite binary floating-point number.
-/

namespace PageCompiler.Json

inductive Number
  | integer (n : Int)
  | float (x : Float)

namespace Number

def leastInteger : Int := -0x8000000000000000

def greatestSigned : Int := 0x7fffffffffffffff

def greatestInteger : Int := 0xffffffffffffffff

/-- An integer and a floating-point number differ even where their values agree. -/
protected def beq : Number → Number → Bool
  | integer m, integer n => m == n
  | float x, float y => x == y
  | _, _ => false

instance : BEq Number := ⟨Number.beq⟩

instance (n : Nat) : OfNat Number n := ⟨integer n⟩

def toDouble : Number → Float
  | integer n => Double.ofInt n
  | float x => x

/-- The number as an index: it is none if it is negative or a floating-point number. -/
def index? : Number → Option Nat
  | integer n => if 0 ≤ n then some n.toNat else none
  | float _ => none

def integerText (n : Int) : List Char :=
  if n < 0 then '-' :: Nat.toDigits 10 n.natAbs else Nat.toDigits 10 n.natAbs

/-- A floating-point number always shows a point or an exponent: it is written out in full from
`0.00001` up to below `10 ^ 16`. -/
def floatText (x : Float) : List Char :=
  let p := Double.parts x
  let d := Decimal.shortest .even p
  let point := d.pointPosition
  let magnitude :=
    if p.significand = 0 then "0.0".toList
    else if -5 < point ∧ point ≤ 16 then
      if 0 ≤ d.exponent then d.positional ++ ".0".toList else d.positional
    else d.scientific
  if p.negative then '-' :: magnitude else magnitude

def text : Number → List Char
  | integer n => integerText n
  | float x => floatText x

/-- Floating-point numbers on a page have no exponent, and no point if they are whole. -/
def floatOnPage (x : Float) : List Char :=
  let bound : Int := 1000000000000000
  if Double.isWhole x && Double.ofInt (-bound) < x && x < Double.ofInt bound then
    integerText (Double.toInt x)
  else
    let p := Double.parts x
    let magnitude := (Decimal.shortest .up p).positional
    if p.negative then '-' :: magnitude else magnitude

def onPage : Number → List Char
  | integer n => integerText n
  | float x => floatOnPage x

end Number

end PageCompiler.Json
