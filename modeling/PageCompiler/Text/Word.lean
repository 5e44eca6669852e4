import PageCompiler.Text.Blank
import PageCompiler.Text.Search

/-!
Words and blanks at the start of a text. An identifier is made of ASCII letters, digits and
underscores and does not begin with a digit.
-/

namespace PageCompiler.Text

def startsIdentifier (c : Char) : Bool := c.isAlpha || c = '_'

def continuesIdentifier (c : Char) : Bool := c.isAlphanum || c = '_'

def identifier? : List Char → Option (List Char × List Char)
  | c :: cs =>
    if startsIdentifier c then
      some (c :: cs.takeWhile continuesIdentifier, cs.dropWhile continuesIdentifier)
    else none
  | [] => none

def blanks? : List Char → Option (List Char)
  | c :: cs => if isBlank c then some (trimStart cs) else none
  | [] => none

def afterWord? (word : String) (cs : List Char) : Option (List Char) :=
  (after? word.toList cs).bind blanks?

end PageCompiler.Text
