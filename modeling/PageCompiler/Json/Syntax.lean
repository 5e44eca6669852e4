import PageCompiler.Text.Digit
import PageCompiler.Text.Search
import PageCompiler.Json.Value

/-!
JSON text as it is written: numbers as digits, strings with their escapes, repeated members one
after the other. What the text means is decided later, so a reader may skip a part that would
have no value, such as a number out of range.
-/

namespace PageCompiler.Json

/-- A character of a string, or a UTF-16 unit given by its number. -/
inductive Piece
  | char (c : Char)
  | unit (u : Nat)
  deriving DecidableEq, Repr

/-- A number as written. There is a fraction only if it has digits. -/
structure Numeral where
  negative : Bool
  whole : List Char
  fraction : List Char
  exponent : Option Int
  deriving DecidableEq, Repr

inductive Syntax
  | null
  | bool (b : Bool)
  | number (n : Numeral)
  | string (pieces : List Piece)
  | array (items : List Syntax)
  | object (members : List (List Piece × Syntax))

inductive Token
  | scalar (value : Syntax)
  | openArray
  | closeArray
  | openObject
  | closeObject
  | comma
  | colon

namespace Token

def escaped? : Char → Option Char
  | '"' => some '"'
  | '\\' => some '\\'
  | '/' => some '/'
  | 'b' => some '\x08'
  | 'f' => some '\x0c'
  | 'n' => some '\n'
  | 'r' => some '\r'
  | 't' => some '\t'
  | _ => none

/-- The pieces of a string whose opening quote has been read, and how many characters they take
together with the closing quote. -/
def stringBody : List Char → Option (List Piece × Nat)
  | [] => none
  | '"' :: _ => some ([], 1)
  | '\\' :: 'u' :: a :: b :: c :: d :: rest => do
    let a ← Text.hexDigitValue? a
    let b ← Text.hexDigitValue? b
    let c ← Text.hexDigitValue? c
    let d ← Text.hexDigitValue? d
    let (pieces, width) ← stringBody rest
    return (.unit (((a * 16 + b) * 16 + c) * 16 + d) :: pieces, width + 6)
  | '\\' :: c :: rest => do
    let c ← escaped? c
    let (pieces, width) ← stringBody rest
    return (.char c :: pieces, width + 2)
  | c :: rest =>
    if c.toNat < 32 || c = '\\' then none
    else do
      let (pieces, width) ← stringBody rest
      return (.char c :: pieces, width + 1)

/-- Digits behind a point; without a point there are none. -/
def fraction? : List Char → Option (List Char)
  | '.' :: cs =>
    let digits := cs.takeWhile Char.isDigit
    if digits.isEmpty then none else some digits
  | _ => some []

/-- The value of the digits, and how many characters they and the `sign` in front of them take. -/
def signedDigits? (negative : Bool) (sign : Nat) (cs : List Char) : Option (Option Int × Nat) :=
  let digits := cs.takeWhile Char.isDigit
  if digits.isEmpty then none
  else
    let n : Int := Text.valueInBase 10 digits
    some (some (if negative then -n else n), sign + digits.length)

def exponent? : List Char → Option (Option Int × Nat)
  | c :: cs =>
    if c = 'e' ∨ c = 'E' then
      match cs with
      | '+' :: cs => signedDigits? false 2 cs
      | '-' :: cs => signedDigits? true 2 cs
      | cs => signedDigits? false 1 cs
    else some (none, 0)
  | [] => some (none, 0)

/-- The digits in front of the point: a leading zero stands alone. -/
def whole? : List Char → Option (List Char)
  | '0' :: _ => some ['0']
  | cs =>
    let digits := cs.takeWhile Char.isDigit
    if digits.isEmpty then none else some digits

def numeral? (negative : Bool) (cs : List Char) : Option (Numeral × Nat) := do
  let whole ← whole? cs
  let cs := cs.drop whole.length
  let fraction ← fraction? cs
  let mark := if fraction.isEmpty then 0 else fraction.length + 1
  let (exponent, power) ← exponent? (cs.drop mark)
  return (⟨negative, whole, fraction, exponent⟩, whole.length + mark + power)

def word? (p : List Char) (v : Syntax) (cs : List Char) : Option (Token × Nat) :=
  (Text.after? p cs).map fun _ => (scalar v, p.length)

/-- The token that begins with `c`, and how many characters of `cs` it takes besides. -/
def next? (c : Char) (cs : List Char) : Option (Token × Nat) :=
  match c with
  | '[' => some (openArray, 0)
  | ']' => some (closeArray, 0)
  | '\x7b' => some (openObject, 0)
  | '\x7d' => some (closeObject, 0)
  | ',' => some (comma, 0)
  | ':' => some (colon, 0)
  | '"' => (stringBody cs).map fun (pieces, width) => (scalar (.string pieces), width)
  | 'n' => word? "ull".toList .null cs
  | 't' => word? "rue".toList (.bool true) cs
  | 'f' => word? "alse".toList (.bool false) cs
  | '-' => (numeral? true cs).map fun (n, width) => (scalar (.number n), width)
  | c =>
    if c.isDigit then
      (numeral? false (c :: cs)).map fun (n, width) => (scalar (.number n), width - 1)
    else none

def isSpace (c : Char) : Bool := c = ' ' || c = '\t' || c = '\n' || c = '\r'

def all? : List Char → Option (List Token)
  | [] => some []
  | c :: cs =>
    if isSpace c then all? cs
    else
      match next? c cs with
      | none => none
      | some (t, width) => (all? (cs.drop width)).map (t :: ·)
termination_by cs => cs.length

end Token

/-- An array or object of which the beginning has been read, last part first. -/
inductive Opened
  | array (items : List Syntax)
  | object (members : List (List Piece × Syntax)) (name : List Piece)

/-- What has been read and what has to follow. -/
inductive Progress
  | atValue (enclosing : List Opened)
  | atFirstItem (enclosing : List Opened)
  | atFirstName (enclosing : List Opened)
  | atName (members : List (List Piece × Syntax)) (enclosing : List Opened)
  | atColon (members : List (List Piece × Syntax)) (name : List Piece) (enclosing : List Opened)
  | afterValue (v : Syntax) (enclosing : List Opened)

namespace Progress

def value? (enclosing : List Opened) : Token → Option Progress
  | .scalar v => some (afterValue v enclosing)
  | .openArray => some (atFirstItem enclosing)
  | .openObject => some (atFirstName enclosing)
  | _ => none

def name? (members : List (List Piece × Syntax)) (enclosing : List Opened) :
    Token → Option Progress
  | .scalar (.string name) => some (atColon members name enclosing)
  | _ => none

def next? (v : Syntax) : List Opened → Token → Option Progress
  | .array items :: outer, .comma => some (atValue (.array (v :: items) :: outer))
  | .array items :: outer, .closeArray => some (afterValue (.array (v :: items).reverse) outer)
  | .object members name :: outer, .comma => some (atName ((name, v) :: members) outer)
  | .object members name :: outer, .closeObject =>
    some (afterValue (.object ((name, v) :: members).reverse) outer)
  | _, _ => none

def step? : Progress → Token → Option Progress
  | atValue enclosing, t => value? enclosing t
  | atFirstItem enclosing, .closeArray => some (afterValue (.array []) enclosing)
  | atFirstItem enclosing, t => value? (.array [] :: enclosing) t
  | atFirstName enclosing, .closeObject => some (afterValue (.object []) enclosing)
  | atFirstName enclosing, t => name? [] enclosing t
  | atName members enclosing, t => name? members enclosing t
  | atColon members name enclosing, .colon => some (atValue (.object members name :: enclosing))
  | atColon .., _ => none
  | afterValue v enclosing, t => next? v enclosing t

end Progress

namespace Syntax

def read? (s : String) : Option Syntax := do
  let tokens ← Token.all? s.toList
  match ← tokens.foldlM Progress.step? (.atValue []) with
  | .afterValue v [] => some v
  | _ => none

end Syntax

end PageCompiler.Json
