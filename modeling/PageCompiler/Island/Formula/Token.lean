import PageCompiler.Island.Formula.Basic
import PageCompiler.Number.Numeral
import PageCompiler.Text.Letter

/-!
The tokens of formulas.
-/

namespace PageCompiler.Island

namespace Operator

def symbol : Operator → String
  | arithmetic .add => "+"
  | arithmetic .sub => "-"
  | arithmetic .mul => "*"
  | arithmetic .div => "/"
  | arithmetic .rem => "%"
  | compare .eq => "=="
  | compare .ne => "!="
  | compare .lt => "<"
  | compare .le => "<="
  | compare .gt => ">"
  | compare .ge => ">="
  | and => "&&"
  | or => "||"

end Operator

namespace Formula

open Json (Value)

inductive Token
  | literal (value : Value)
  | word (name : String)
  | operator (op : Operator)
  | bang
  | openParen
  | closeParen

inductive ParseError
  | badNumber (digits : String)
  | unterminatedString
  | unexpectedCharacter (c : Char)
  | strayDereference
  | unavailable (name parameter : String)
  | missingCloseParen
  | unexpectedCloseParen
  | unexpectedOperator (symbol : String)
  | unexpectedEnd
  | trailingInput (source : String)
  deriving DecidableEq, Repr

def ParseError.message : ParseError → String
  | badNumber digits => "invalid number `" ++ digits ++ "`"
  | unterminatedString => "unterminated string"
  | unexpectedCharacter c => "unexpected `" ++ c.toString ++ "`"
  | strayDereference => "`*` may only dereference the closure parameter"
  | unavailable name readable =>
    "`" ++ name ++ "` is not available; a derived value can only read `" ++ readable ++ "`"
  | missingCloseParen => "missing `)`"
  | unexpectedCloseParen => "unexpected `)`"
  | unexpectedOperator symbol => "unexpected `" ++ symbol ++ "`"
  | unexpectedEnd => "unexpected end of expression"
  | trailingInput source => "unexpected trailing input in `" ++ source ++ "`"

namespace Token

def startsWord (c : Char) : Bool := Text.isAlphabetic c || c = '_'

def continuesWord (c : Char) : Bool := Text.isAlphabetic c || Text.isNumeric c || c = '_'

def continuesNumber (c : Char) : Bool := c.isDigit || c = '.' || c = '_'

def number? (digits : List Char) : Option Value :=
  (Decimal.read? digits).map fun d => (d.toDouble?.map ofResult).getD .null

/-- A literal's text up to its closing quote, and how many characters it takes with that quote.
A backslash stands for the next character. -/
def stringBody? (quote : Char) : List Char → Option (List Char × Nat)
  | [] => none
  | ['\\'] => none
  | '\\' :: c :: cs => (stringBody? quote cs).map fun (text, width) => (c :: text, width + 2)
  | c :: cs =>
    if c = quote then some ([], 1)
    else (stringBody? quote cs).map fun (text, width) => (c :: text, width + 1)

/-- A token of punctuation marks, of which `c` is the first, and how many of `cs` belong to it. -/
def punctuation? (c : Char) (cs : List Char) : Option (Token × Nat) :=
  match c, cs with
  | '(', _ => some (openParen, 0)
  | ')', _ => some (closeParen, 0)
  | '=', '=' :: _ => some (operator (.compare .eq), 1)
  | '!', '=' :: _ => some (operator (.compare .ne), 1)
  | '<', '=' :: _ => some (operator (.compare .le), 1)
  | '>', '=' :: _ => some (operator (.compare .ge), 1)
  | '&', '&' :: _ => some (operator .and, 1)
  | '|', '|' :: _ => some (operator .or, 1)
  | '+', _ => some (operator (.arithmetic .add), 0)
  | '-', _ => some (operator (.arithmetic .sub), 0)
  | '*', _ => some (operator (.arithmetic .mul), 0)
  | '/', _ => some (operator (.arithmetic .div), 0)
  | '%', _ => some (operator (.arithmetic .rem), 0)
  | '<', _ => some (operator (.compare .lt), 0)
  | '>', _ => some (operator (.compare .gt), 0)
  | '!', _ => some (bang, 0)
  | _, _ => none

/-- The token that begins with `c`, and how many characters of `cs` it takes besides. -/
def next (c : Char) (cs : List Char) : Except ParseError (Token × Nat) :=
  if c.isDigit then
    let run := cs.takeWhile continuesNumber
    let digits := (c :: run).filter (· != '_')
    match number? digits with
    | some value => .ok (literal value, run.length)
    | none => .error (.badNumber (.ofList digits))
  else if c = '"' ∨ c = '\'' then
    match stringBody? c cs with
    | some (text, width) => .ok (literal (.string (.ofList text)), width)
    | none => .error .unterminatedString
  else if startsWord c then
    let rest := cs.takeWhile continuesWord
    .ok (word (.ofList (c :: rest)), rest.length)
  else
    match punctuation? c cs with
    | some found => .ok found
    | none => .error (.unexpectedCharacter c)

def all : List Char → Except ParseError (List Token)
  | [] => .ok []
  | c :: cs =>
    if Text.isBlank c then all cs
    else
      match next c cs with
      | .error e => .error e
      | .ok (t, width) =>
        match all (cs.drop width) with
        | .error e => .error e
        | .ok rest => .ok (t :: rest)
termination_by cs => cs.length

end Token

end Formula

end PageCompiler.Island
