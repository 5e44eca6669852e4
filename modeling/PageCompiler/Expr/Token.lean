import PageCompiler.Expr.Basic
import PageCompiler.Number.Numeral

/-!
The tokens of template expressions.
-/

namespace PageCompiler.Expr

inductive Token
  | ident (name : String)
  | number (n : Json.Number)
  | string (s : String)
  | dot
  | openBracket
  | closeBracket
  | openParen
  | closeParen
  | bang
  | compare (op : Comparison)
  | and
  | or

inductive ParseError
  | badNumber (digits : String)
  | unterminatedString
  | unexpectedCharacter (c : Char)
  | emptyExpression
  | expectedFieldName
  | expectedNoArguments
  | unsupportedMethod (name : String)
  | expectedCloseParen
  | expectedCloseBracket
  | unexpectedToken (name : String)
  | unexpectedEnd
  | trailingInput (source : String)
  deriving DecidableEq, Repr

def ParseError.message : ParseError → String
  | badNumber digits => "invalid number `" ++ digits ++ "`"
  | unterminatedString => "unterminated string literal"
  | unexpectedCharacter c => "unexpected character `" ++ c.toString ++ "`"
  | emptyExpression => "empty expression"
  | expectedFieldName => "expected a field name after `.`"
  | expectedNoArguments => "expected `)`: methods take no arguments"
  | unsupportedMethod name => "method `" ++ name ++ "` is not supported"
  | expectedCloseParen => "expected `)`"
  | expectedCloseBracket => "expected `]`"
  | unexpectedToken name => "unexpected token " ++ name
  | unexpectedEnd => "unexpected end of expression"
  | trailingInput source => "unexpected trailing input in `" ++ source ++ "`"

namespace Token

def name : Token → String
  | ident _ => "Ident"
  | number _ => "Number"
  | string _ => "Str"
  | dot => "Dot"
  | openBracket => "LBracket"
  | closeBracket => "RBracket"
  | openParen => "LParen"
  | closeParen => "RParen"
  | bang => "Bang"
  | compare .eq => "Op(Eq)"
  | compare .ne => "Op(Ne)"
  | compare .lt => "Op(Lt)"
  | compare .le => "Op(Le)"
  | compare .gt => "Op(Gt)"
  | compare .ge => "Op(Ge)"
  | and => "Op(And)"
  | or => "Op(Or)"

/-- Behind these tokens an operand has to follow, so a minus sign is the sign of a number. -/
def expectsOperand : Option Token → Bool
  | none => true
  | some (compare _) => true
  | some and => true
  | some or => true
  | some bang => true
  | some openParen => true
  | some openBracket => true
  | some _ => false

def startsName (c : Char) : Bool := c.isAlpha || c = '_' || c = '$'

def continuesName (c : Char) : Bool := c.isAlphanum || c = '_' || c = '$'

def ofWord : String → Token
  | "and" => and
  | "or" => or
  | "not" => bang
  | word => ident word

/-- The digits of a number; a point belongs to them if a digit follows it. -/
def digitRun : List Char → List Char
  | '.' :: d :: cs => if d.isDigit then '.' :: digitRun (d :: cs) else []
  | c :: cs => if c.isDigit then c :: digitRun cs else []
  | [] => []

/-- A literal's text up to its closing quote, and how many characters it takes with that quote.
A backslash stands for the next character itself, or for a line feed or a tab. -/
def stringBody? (quote : Char) : List Char → Option (List Char × Nat)
  | [] => none
  | ['\\'] => none
  | '\\' :: c :: cs => do
    let (text, width) ← stringBody? quote cs
    let c := if c = 'n' then '\n' else if c = 't' then '\t' else c
    return (c :: text, width + 2)
  | c :: cs =>
    if c = quote then some ([], 1)
    else do
      let (text, width) ← stringBody? quote cs
      return (c :: text, width + 1)

/-- A token of one to three punctuation marks, of which `c` is the first, and how many of `cs`
belong to it. -/
def punctuation? (c : Char) (cs : List Char) : Option (Token × Nat) :=
  match c, cs with
  | '=', '=' :: '=' :: _ => some (compare .eq, 2)
  | '=', '=' :: _ => some (compare .eq, 1)
  | '!', '=' :: '=' :: _ => some (compare .ne, 2)
  | '!', '=' :: _ => some (compare .ne, 1)
  | '<', '=' :: _ => some (compare .le, 1)
  | '>', '=' :: _ => some (compare .ge, 1)
  | '&', '&' :: _ => some (and, 1)
  | '|', '|' :: _ => some (or, 1)
  | '<', _ => some (compare .lt, 0)
  | '>', _ => some (compare .gt, 0)
  | '!', _ => some (bang, 0)
  | '.', _ => some (dot, 0)
  | '[', _ => some (openBracket, 0)
  | ']', _ => some (closeBracket, 0)
  | '(', _ => some (openParen, 0)
  | ')', _ => some (closeParen, 0)
  | _, _ => none

def startsNumber (previous : Option Token) (c : Char) (cs : List Char) : Bool :=
  c.isDigit || (c = '-' && cs.head?.any Char.isDigit && expectsOperand previous)

/-- The token that begins with `c`, and how many characters of `cs` it takes besides. -/
def next (previous : Option Token) (c : Char) (cs : List Char) : Except ParseError (Token × Nat) :=
  if startsName c then
    let word := cs.takeWhile continuesName
    .ok (ofWord (.ofList (c :: word)), word.length)
  else if startsNumber previous c cs then
    let digits := digitRun cs
    match Json.Number.ofLiteral? (c :: digits) with
    | some n => .ok (number n, digits.length)
    | none => .error (.badNumber (.ofList (c :: digits)))
  else if c = '"' ∨ c = '\'' then
    match stringBody? c cs with
    | some (text, width) => .ok (string (.ofList text), width)
    | none => .error .unterminatedString
  else
    match punctuation? c cs with
    | some found => .ok found
    | none => .error (.unexpectedCharacter c)

def all (previous : Option Token) : List Char → Except ParseError (List Token)
  | [] => .ok []
  | c :: cs =>
    if Text.isBlank c then all previous cs
    else
      match next previous c cs with
      | .error e => .error e
      | .ok (t, width) =>
        match all (some t) (cs.drop width) with
        | .error e => .error e
        | .ok rest => .ok (t :: rest)
termination_by cs => cs.length

end Token

end PageCompiler.Expr
