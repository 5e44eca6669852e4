import PageCompiler.Text.Digit
import PageCompiler.Text.Search

/-!
Characters with a meaning in markup, and the references that stand for them.
-/

namespace PageCompiler.Text

def escapeHtmlChar : Char → List Char
  | '&' => "&amp;".toList
  | '<' => "&lt;".toList
  | '>' => "&gt;".toList
  | '"' => "&quot;".toList
  | '\'' => "&#39;".toList
  | c => [c]

/-- Text that stands for itself in markup and in quoted attributes. -/
def escapeHtml (s : String) : String := .ofList (s.toList.flatMap escapeHtmlChar)

/-- Markup text inside of double quotes. -/
def escapeQuotes (s : String) : String :=
  .ofList (s.toList.flatMap fun c => if c = '"' then "&quot;".toList else [c])

/-- The character of that number; surrogates and numbers that are too large have none. -/
def charOfCode? (n : Nat) : Option Char := if n.isValidChar then some (Char.ofNat n) else none

/-- The digits in front of a semicolon, if they form a numeric reference. -/
def digitsToSemicolon? (isDigit : Char → Bool) (cs : List Char) : Option (List Char) :=
  let digits := cs.takeWhile isDigit
  if !digits.isEmpty && (cs.drop digits.length).head? = some ';' then some digits else none

/-- What follows an ampersand, if it is a reference: the character that it stands for, unless it
has none, and how many characters it takes. -/
def reference? (cs : List Char) : Option (Option Char × Nat) :=
  match cs with
  | '#' :: 'x' :: cs =>
    (digitsToSemicolon? (fun c => (hexDigitValue? c).isSome) cs).map fun digits =>
      (charOfCode? (valueInBase 16 digits), digits.length + 3)
  | '#' :: cs =>
    (digitsToSemicolon? Char.isDigit cs).map fun digits =>
      (charOfCode? (valueInBase 10 digits), digits.length + 2)
  | 'a' :: 'm' :: 'p' :: ';' :: _ => some (some '&', 4)
  | 'l' :: 't' :: ';' :: _ => some (some '<', 3)
  | 'g' :: 't' :: ';' :: _ => some (some '>', 3)
  | 'q' :: 'u' :: 'o' :: 't' :: ';' :: _ => some (some '"', 5)
  | 'a' :: 'p' :: 'o' :: 's' :: ';' :: _ => some (some '\'', 5)
  | _ => none

/-- Replaces references by their characters; one that stands for no character stays. -/
def unescapeChars : List Char → List Char
  | [] => []
  | c :: cs =>
    if c = '&' then
      match reference? cs with
      | some (some d, width) => d :: unescapeChars (cs.drop width)
      | some (none, width) => c :: cs.take width ++ unescapeChars (cs.drop width)
      | none => c :: unescapeChars cs
    else c :: unescapeChars cs
termination_by cs => cs.length

def unescapeHtml (s : String) : String := .ofList (unescapeChars s.toList)

end PageCompiler.Text
