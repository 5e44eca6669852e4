import PageCompiler.Json.Value

/-!
Values as JSON text without blanks between the tokens.
-/

namespace PageCompiler.Json

def hexDigit (n : Nat) : Char := Nat.digitChar n

/-- Quotes, backslashes and control characters are escaped, and nothing else. -/
def escapeChar (c : Char) : List Char :=
  match c with
  | '"' => ['\\', '"']
  | '\\' => ['\\', '\\']
  | '\x08' => ['\\', 'b']
  | '\x0c' => ['\\', 'f']
  | '\n' => ['\\', 'n']
  | '\r' => ['\\', 'r']
  | '\t' => ['\\', 't']
  | c =>
    if c.toNat < 32 then ['\\', 'u', '0', '0', hexDigit (c.toNat / 16), hexDigit (c.toNat % 16)]
    else [c]

def quoted (s : String) : List Char := '"' :: s.toList.flatMap escapeChar ++ ['"']

namespace Value

mutual

def chars : Value → List Char
  | null => "null".toList
  | bool b => (if b then "true" else "false").toList
  | number n => n.text
  | string s => quoted s
  | array items => '[' :: itemsChars items ++ [']']
  | object members => '\x7b' :: membersChars members ++ ['\x7d']
termination_by structural v => v

def itemsChars : List Value → List Char
  | [] => []
  | v :: rest => v.chars ++ (if rest.isEmpty then [] else ',' :: itemsChars rest)
termination_by structural vs => vs

def membersChars : List (String × Value) → List Char
  | [] => []
  | (name, v) :: rest =>
    quoted name ++ ':' :: v.chars ++ (if rest.isEmpty then [] else ',' :: membersChars rest)
termination_by structural ms => ms

end

def text (v : Value) : String := .ofList v.chars

end Value

end PageCompiler.Json
