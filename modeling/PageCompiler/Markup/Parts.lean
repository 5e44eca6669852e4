import PageCompiler.Expr.Parse
import PageCompiler.Markup.Node

/-!
Interpolations in text. Double braces always hold an expression; single braces do only if what
stands between them can be read as one, else they are plain text.
-/

namespace PageCompiler.Markup

def isQuote (c : Char) : Bool := c = '"' || c = '\'' || c = '`'

mutual

/-- How many characters stand in front of the brace that closes the innermost of `depth + 1` open
ones. Braces in quotes do not count. -/
def beforeBrace? (depth : Nat) : List Char → Option Nat
  | [] => none
  | c :: cs =>
    if c = '\x7b' then (beforeBrace? (depth + 1) cs).map (· + 1)
    else if c = '\x7d' then
      match depth with
      | 0 => some 0
      | depth + 1 => (beforeBrace? depth cs).map (· + 1)
    else if isQuote c then (beforeQuote? c depth cs).map (· + 1)
    else (beforeBrace? depth cs).map (· + 1)

/-- The same from inside of quotes, which end at `quote`. A backslash hides one character. -/
def beforeQuote? (quote : Char) (depth : Nat) : List Char → Option Nat
  | [] => none
  | ['\\'] => none
  | '\\' :: _ :: cs => (beforeQuote? quote depth cs).map (· + 2)
  | c :: cs =>
    if c = quote then (beforeBrace? depth cs).map (· + 1)
    else (beforeQuote? quote depth cs).map (· + 1)

end

/-- What stands between double braces, of which the first two have been read. -/
def inDoubleBraces? (cs : List Char) : Option (List Char) :=
  (Text.cutAt? ['\x7d', '\x7d'] cs).map Prod.fst

/-- What stands between single braces, of which the first has been read. -/
def inBraces? (cs : List Char) : Option (List Char) := (beforeBrace? 0 cs).map cs.take

def isExpression (code : List Char) : Bool := (Expr.parse (.ofList code)).isOk

def codeOf (inside : List Char) : String := .ofList (Text.trim inside)

/-- The expression that begins behind an open brace, and how many characters it takes up to the
end of its braces. -/
def interpolation? : List Char → Option (String × Nat)
  | '\x7b' :: cs => (inDoubleBraces? cs).map fun inside => (codeOf inside, inside.length + 3)
  | cs =>
    match inBraces? cs with
    | some inside => if isExpression inside then some (codeOf inside, inside.length + 1) else none
    | none => none

def textPart (literal : List Char) : List Part :=
  if literal.isEmpty then [] else [.text (.ofList literal)]

/-- The parts of a text behind the plain text `literal`. -/
def partsAfter (literal : List Char) : List Char → List Part
  | [] => textPart literal
  | c :: cs =>
    if c = '\x7b' then
      match interpolation? cs with
      | some (code, width) =>
        textPart literal ++ .expression code :: partsAfter [] (cs.drop width)
      | none => partsAfter (literal ++ [c]) cs
    else partsAfter (literal ++ [c]) cs
termination_by cs => cs.length

def splitParts (text : String) : List Part := partsAfter [] text.toList

def isExpressionPart : Part → Bool
  | .expression _ => true
  | .text _ => false

/-- Attribute text as a value: it is static unless it holds an expression. -/
def attributeText (text : String) : AttributeValue :=
  if (splitParts text).any isExpressionPart then .interpolated (splitParts text) else .static text

end PageCompiler.Markup
