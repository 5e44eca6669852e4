import PageCompiler.Text.Digit
import PageCompiler.Json.Number

/-!
Numbers as people write them outside of JSON: an optional sign in front, digits on at least one
side of the point, and an optional power of ten.
-/

namespace PageCompiler

namespace Decimal

def natural? (cs : List Char) : Option Nat :=
  if cs.isEmpty || !cs.all Char.isDigit then none else some (Text.valueInBase 10 cs)

def splitSign : List Char → Bool × List Char
  | '-' :: cs => (true, cs)
  | '+' :: cs => (false, cs)
  | cs => (false, cs)

def signed (negative : Bool) (n : Nat) : Int := if negative then -n else n

def integer? (cs : List Char) : Option Int :=
  let (negative, digits) := splitSign cs
  (natural? digits).map (signed negative)

def power? : List Char → Option Int
  | [] => some 0
  | c :: cs => if c = 'e' ∨ c = 'E' then integer? cs else none

/-- An unsigned decimal, such as `12`, `.5`, `5.` or `1.5e-3`. -/
def read? (cs : List Char) : Option Decimal := do
  let whole := cs.takeWhile Char.isDigit
  let rest := cs.dropWhile Char.isDigit
  let (fraction, rest) :=
    match rest with
    | '.' :: rest => (rest.takeWhile Char.isDigit, rest.dropWhile Char.isDigit)
    | rest => ([], rest)
  let digits ← natural? (whole ++ fraction)
  let power ← power? rest
  return ⟨digits, power - fraction.length⟩

end Decimal

namespace Json.Number

def ofIntegerText? (cs : List Char) : Option Int :=
  (Decimal.integer? cs).filter fun n => leastInteger ≤ n ∧ n ≤ greatestSigned

def ofFloatText? (cs : List Char) : Option Float :=
  let (negative, magnitude) := Decimal.splitSign cs
  (Decimal.read? magnitude).bind fun d =>
    d.toDouble?.map fun x => if negative then Double.negated x else x

/-- A literal is an integer if it can be one. -/
def ofLiteral? (cs : List Char) : Option Number :=
  match ofIntegerText? cs with
  | some n => some (integer n)
  | none => (ofFloatText? cs).map float

end Json.Number

end PageCompiler
