import PageCompiler.Text.Word
import PageCompiler.Markup.Parts

/-!
The tokens of a template: tags, text, interpolations, comments and the tags of control flow
between `{%` and `%}`.
-/

namespace PageCompiler.Markup

/-- An attribute's value as written: text, or an expression in braces. -/
inductive RawValue
  | text (text : String)
  | braced (code : String)
  deriving DecidableEq, Repr

structure RawAttribute where
  name : String
  value : Option RawValue
  location : Location
  deriving DecidableEq, Repr

inductive Block
  | loop (item source : String)
  | branch (condition : String)
  | otherBranch (condition : String)
  | alternate
  | endLoop
  | endBranch
  | invalid (text : String)
  deriving DecidableEq, Repr

inductive Token
  | text (text : String)
  | interpolation (code raw : String)
  | openTag (name : String) (attributes : List RawAttribute) (selfClosing : Bool)
  | closeTag (name : String)
  | comment (text : String)
  | doctype (text : String)
  | block (block : Block)
  | rawText (text : String)
  deriving DecidableEq, Repr

structure Lexeme where
  token : Token
  location : Location
  deriving DecidableEq, Repr

namespace Block

def delimited (text : String) : String := "\x7b% " ++ text ++ " %\x7d"

def text : Block → String
  | loop item source => delimited ("for " ++ item ++ " in " ++ source)
  | branch condition => delimited ("if " ++ condition)
  | otherBranch condition => delimited ("elif " ++ condition)
  | alternate => delimited "else"
  | endLoop => delimited "endfor"
  | endBranch => delimited "endif"
  | invalid text => delimited text

/-- An expression that goes on to the end of the block; it stands on one line. -/
def expressionOnLine? (cs : List Char) : Option String :=
  if cs.isEmpty || cs.contains '\n' then none else some (.ofList cs)

def loop? (cs : List Char) : Option Block := do
  let cs ← Text.afterWord? "for" cs
  let (item, cs) ← Text.identifier? cs
  let cs ← Text.blanks? cs
  let cs ← Text.afterWord? "in" cs
  return loop (.ofList item) (← expressionOnLine? cs)

def otherBranch? (cs : List Char) : Option Block := do
  let cs ← (Text.afterWord? "elif" cs).or ((Text.afterWord? "else" cs).bind (Text.afterWord? "if"))
  return otherBranch (← expressionOnLine? cs)

def branch? (cs : List Char) : Option Block := do
  return branch (← expressionOnLine? (← Text.afterWord? "if" cs))

def read (cs : List Char) : Block :=
  let cs := Text.trim cs
  let text := String.ofList cs
  if text = "else" then alternate
  else if text = "endfor" || text = "end for" then endLoop
  else if text = "endif" || text = "end if" then endBranch
  else (((loop? cs).or (otherBranch? cs)).or (branch? cs)).getD (invalid text)

end Block

end PageCompiler.Markup
