import PageCompiler.Text.Word
import PageCompiler.Expr.Parse
import PageCompiler.Island.Formula.Basic

/-!
The statements of an island's script, and the two declarations that they can be: a state with its
initial value, and a value that is computed from another one.
-/

namespace PageCompiler.Island

open Json (Value)

def putInFront (cs : List Char) : List (List Char) → List (List Char)
  | [] => [cs]
  | piece :: pieces => (cs ++ piece) :: pieces

mutual

/-- The pieces of a line between its semicolons, without a comment at its end. Neither counts in
quotes. -/
def pieces : List Char → List (List Char)
  | [] => [[]]
  | '/' :: '/' :: _ => [[]]
  | c :: cs =>
    if c = ';' then [] :: pieces cs
    else if c = '"' ∨ c = '\'' then putInFront [c] (piecesInQuotes c cs)
    else putInFront [c] (pieces cs)

/-- The same from inside of quotes, which end at `quote`. A backslash hides one character. -/
def piecesInQuotes (quote : Char) : List Char → List (List Char)
  | [] => [[]]
  | ['\\'] => [['\\']]
  | '\\' :: c :: cs => putInFront ['\\', c] (piecesInQuotes quote cs)
  | c :: cs =>
    if c = quote then putInFront [c] (pieces cs) else putInFront [c] (piecesInQuotes quote cs)

end

def statements (script : String) : List (List Char) :=
  (((Text.lines script.toList).flatMap pieces).map Text.trim).filter fun s => !s.isEmpty

/-- What stands in front of the closing parenthesis at the very end. -/
def beforeCloseParen? (cs : List Char) : Option (List Char) :=
  if cs.getLast? = some ')' then some cs.dropLast else none

/-- The name behind `let` or `let mut`, and what follows its equals sign. -/
def binding? (statement : List Char) : Option (List Char × List Char) := do
  let rest ← Text.afterWord? "let" statement
  let named (cs : List Char) : Option (List Char × List Char) := do
    let (name, cs) ← Text.identifier? cs
    match Text.trimStart cs with
    | '=' :: cs => some (name, cs)
    | _ => none
  ((Text.afterWord? "mut" rest).bind named).or (named rest)

inductive Declaration
  | state (name : String) (initial : String)
  | computed (name dependency parameter body : String)
  deriving DecidableEq, Repr

namespace Declaration

def initial? (cs : List Char) : Option (List Char) := do
  let called (word : String) : Option (List Char) :=
    match (Text.after? word.toList cs).map Text.trimStart with
    | some ('(' :: rest) => beforeCloseParen? rest
    | _ => none
  ((called "Signal").or (called "signal")).or (called "Signal::new")

/-- The body of a closure: blanks in front of it are no part of it, as long as something is. -/
def closureBody? (cs : List Char) : Option (List Char) :=
  (beforeCloseParen? cs).bind fun body =>
    if body.isEmpty then none else some (Text.trimStart body)

/-- The character `c` with blanks on both sides. -/
def mark? (c : Char) (cs : List Char) : Option (List Char) :=
  match Text.trimStart cs with
  | d :: cs => if d = c then some (Text.trimStart cs) else none
  | [] => none

/-- The parameter between two bars, and what follows the second bar. -/
def parameter? (cs : List Char) : Option (List Char × List Char) := do
  let cs ← mark? '|' cs
  let (name, cs) ← Text.identifier? cs
  match Text.trimStart cs with
  | '|' :: cs => some (name, cs)
  | _ => none

def computed? (cs : List Char) : Option (List Char × List Char × List Char) := do
  let cs ← mark? '(' (← Text.after? "computed".toList cs)
  let (dependency, cs) ← Text.identifier? cs
  let cs ← mark? ',' cs
  let (parameter, cs) ← parameter? ((Text.afterWord? "move" cs).getD cs)
  return (dependency, parameter, ← closureBody? cs)

def read? (statement : List Char) : Option Declaration := do
  let (name, cs) ← binding? statement
  let cs := Text.trimStart cs
  match initial? cs, computed? cs with
  | some initial, _ => some (.state (.ofList name) (.ofList initial))
  | none, some (dependency, parameter, body) =>
    some (.computed (.ofList name) (.ofList dependency) (.ofList parameter) (.ofList body))
  | none, none => none

end Declaration

/-- The names that a script declares with `let`, whether or not it can be read otherwise. -/
def declaredNames (script : String) : List String :=
  (statements script).filterMap fun s => (binding? s).map fun (name, _) => .ofList name

def scalar? (source : String) : Option Value :=
  match Text.trim source.toList with
  | '-' :: rest =>
    match Expr.parseLiteral? (.ofList rest) with
    | some (.number n) => some (ofResult (Double.negated n.toDouble))
    | _ => none
  | cs => Expr.parseLiteral? (.ofList cs)

end PageCompiler.Island
