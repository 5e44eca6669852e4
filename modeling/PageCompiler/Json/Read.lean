import PageCompiler.Json.Syntax

/-!
The value that a JSON text means. There is none if a number is too large for a floating-point
number, if half of a surrogate pair stands alone, or if arrays and objects are nested more than
127 deep.
-/

namespace PageCompiler.Json

/-- Units that are no surrogates stand for themselves, a high and a low surrogate for one
character. -/
def decode? : List Piece → Option (List Char)
  | [] => some []
  | .char c :: rest => (decode? rest).map (c :: ·)
  | .unit u :: rest =>
    if u < 0xD800 ∨ 0xDFFF < u then (decode? rest).map (Char.ofNat u :: ·)
    else if 0xDBFF < u then none
    else
      match rest with
      | .unit low :: rest =>
        if low < 0xDC00 ∨ 0xDFFF < low then none
        else (decode? rest).map (Char.ofNat (0x10000 + (u - 0xD800) * 0x400 + (low - 0xDC00)) :: ·)
      | _ => none

namespace Numeral

/-- The digits of the numeral as a decimal, without the sign. -/
def magnitude (n : Numeral) : Decimal :=
  ⟨Text.valueInBase 10 (n.whole ++ n.fraction), n.exponent.getD 0 - n.fraction.length⟩

def float? (n : Numeral) : Option Number :=
  n.magnitude.toDouble?.map fun x => .float (if n.negative then Double.negated x else x)

/-- A numeral without fraction and exponent is an integer if it fits 64 bits; only the negative
zero is none. -/
def number? (n : Numeral) : Option Number :=
  let k : Int := Text.valueInBase 10 n.whole
  if !n.fraction.isEmpty || n.exponent.isSome then n.float?
  else if n.negative then
    if k = 0 ∨ -k < Number.leastInteger then n.float? else some (.integer (-k))
  else if k ≤ Number.greatestInteger then some (.integer k)
  else n.float?

end Numeral

def nestingLimit : Nat := 127

namespace Syntax

mutual

/-- The value, if arrays and objects in it are nested at most `depth` deep. -/
def value? (depth : Nat) : Syntax → Option Value
  | null => some .null
  | bool b => some (.bool b)
  | number n => n.number?.map .number
  | string pieces => (decode? pieces).map fun cs => .string (.ofList cs)
  | array items =>
    match depth with
    | 0 => none
    | depth + 1 => (values? depth items).map .array
  | object members =>
    match depth with
    | 0 => none
    | depth + 1 => (memberValues? depth members).map fun ms => .object (Object.ofList ms)
termination_by structural v => v

def values? (depth : Nat) : List Syntax → Option (List Value)
  | [] => some []
  | v :: rest => do return (← value? depth v) :: (← values? depth rest)
termination_by structural vs => vs

def memberValues? (depth : Nat) : List (List Piece × Syntax) → Option (List (String × Value))
  | [] => some []
  | (name, v) :: rest => do
    return (.ofList (← decode? name), ← value? depth v) :: (← memberValues? depth rest)
termination_by structural ms => ms

end

end Syntax

def Value.read? (s : String) : Option Value := (Syntax.read? s).bind (·.value? nestingLimit)

end PageCompiler.Json
