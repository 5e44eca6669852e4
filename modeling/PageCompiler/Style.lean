import PageCompiler.Text.Blank
import PageCompiler.Text.Search
import PageCompiler.Digest.Sha256

/-!
Scoped style sheets. Each document has an attribute of its own; a scoped rule applies only to
elements that carry it, because every selector asks for it.
-/

namespace PageCompiler.Style

/-- The attribute of the document with that path. -/
def scopeAttribute (path : String) : String :=
  "data-ncl-" ++ .ofList ((Sha256.hash path.toUTF8.toList).toList.take 8)

/-- At-rules that hold rules. -/
def nestingAtRules : List String := ["@media", "@supports", "@container", "@layer", "@document"]

/-- Drops what stands between `/*` and the next `*/`. A comment without end is none. -/
def withoutComments (css : List Char) : List Char :=
  match _h : Text.cutAt? ['/', '*'] css with
  | none => css
  | some (before, rest) =>
    match _h' : Text.cutAt? ['*', '/'] rest with
    | none => css
    | some (_, rest) => before ++ withoutComments rest
termination_by css.length
decreasing_by
  have := Text.length_of_cutAt? _h
  have := Text.length_of_cutAt? _h'
  simp at *
  omega

/-- The depth of brackets behind `c`. -/
def depthAfter (depth : Int) (c : Char) : Int :=
  if c = '(' || c = '[' then depth + 1
  else if c = ')' || c = ']' then depth - 1
  else depth

/-- The pieces between the characters `sep` that stand outside of brackets. -/
def splitOutside (sep : Char) (depth : Int) : List Char → List (List Char)
  | [] => [[]]
  | c :: cs =>
    if c = sep && depth = 0 then [] :: splitOutside sep depth cs
    else
      match splitOutside sep (depthAfter depth c) cs with
      | [] => [[c]]
      | piece :: pieces => (c :: piece) :: pieces

def isCombinator (c : Char) : Bool :=
  c = ' ' || c = '\t' || c = '\n' || c = '>' || c = '+' || c = '~'

/-- Where the last compound of a selector begins: behind the last combinator outside of brackets.
`i` characters have been read, and `start` is the beginning found so far. -/
def compoundStart (depth : Int) (i start : Nat) : List Char → Nat
  | [] => start
  | c :: cs =>
    let start := if depth = 0 && isCombinator c then i + 1 else start
    compoundStart (depthAfter depth c) (i + 1) start cs

/-- How many characters stand in front of the first colon outside of brackets. -/
def beforePseudo (depth : Int) : List Char → Nat
  | [] => 0
  | c :: cs => if c = ':' && depth = 0 then 0 else beforePseudo (depthAfter depth c) cs + 1

/-- Asks for the attribute in the last compound of a selector, in front of any pseudo-class. -/
def scopeSelector (attr : String) (selector : List Char) : List Char :=
  let selector := Text.trim selector
  if selector.isEmpty then []
  else
    let start := compoundStart 0 0 0 selector
    let position := start + beforePseudo 0 (selector.drop start)
    selector.take position ++ '[' :: attr.toList ++ ']' :: selector.drop position

/-- How many characters stand in front of the brace that closes the innermost of `depth + 1` open
ones. -/
def beforeClosing? (depth : Nat) : List Char → Option Nat
  | [] => none
  | c :: cs =>
    if c = '\x7b' then (beforeClosing? (depth + 1) cs).map (· + 1)
    else if c = '\x7d' then
      match depth with
      | 0 => some 0
      | depth + 1 => (beforeClosing? depth cs).map (· + 1)
    else (beforeClosing? depth cs).map (· + 1)

def commaSeparated : List (List Char) → List Char
  | [] => []
  | [piece] => piece
  | piece :: pieces => piece ++ ',' :: ' ' :: commaSeparated pieces

def scopeSelectors (attr : String) (selectors : List Char) : List Char :=
  commaSeparated (((splitOutside ',' 0 selectors).map (scopeSelector attr)).filter
    fun s => !s.isEmpty)

def isNesting (rule : List Char) : Bool :=
  let name := rule.takeWhile fun c => !(Text.isBlank c || c = '(')
  nestingAtRules.contains (.ofList (name.map Char.toLower))

def braced (head body : List Char) : List Char :=
  head ++ " \x7b".toList ++ body ++ "\x7d\n".toList

/-- Scopes the rules of a style sheet one after the other. Statements, and at-rules that hold no
rules, keep their text; what comes behind a missing brace or semicolon is left as it is. -/
def scopeRules (attr : String) (css : List Char) : List Char :=
  let cs := Text.trimStart css
  let head := Text.trim (cs.takeWhile fun c => c != '\x7b' && c != ';')
  match _h : (Text.trimStart css).dropWhile fun c => c != '\x7b' && c != ';' with
  | [] => Text.trimEnd cs
  | mark :: rest =>
    if mark = ';' then head ++ ";\n".toList ++ scopeRules attr rest
    else
      match beforeClosing? 0 rest with
      | none => Text.trimEnd cs
      | some n =>
        let body := rest.take n
        let rule :=
          if head.head? = some '@' then
            if isNesting head then braced head ('\n' :: scopeRules attr body)
            else braced head body
          else braced (scopeSelectors attr head) body
        rule ++ scopeRules attr (rest.drop (n + 1))
termination_by css.length
decreasing_by
  all_goals
    have h₁ := Text.length_dropWhile_le (fun c => c != '\x7b' && c != ';') (Text.trimStart css)
    have h₂ : (Text.trimStart css).length ≤ css.length := Text.length_dropWhile_le Text.isBlank css
    have h₃ := congrArg List.length _h
    simp only [List.length_cons, List.length_take, List.length_drop] at *
    omega

def scope (attr css : String) : String :=
  .ofList (scopeRules attr (withoutComments css.toList))

end PageCompiler.Style
