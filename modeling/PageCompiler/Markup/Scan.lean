import PageCompiler.Markup.Token

/-!
From markup to tokens. The source is cut into steps that follow one another; each step takes at
least one character and says which tokens it holds. What no other rule takes is text, and text of
neighbouring steps makes one token.
-/

namespace PageCompiler

def Location.start : Location := ⟨1, 1⟩

def Location.next (l : Location) (c : Char) : Location :=
  if c = '\n' then ⟨l.line + 1, 1⟩ else ⟨l.line, l.column + 1⟩

/-- The place behind the characters `cs`. -/
def Location.after (l : Location) (cs : List Char) : Location := cs.foldl Location.next l

namespace Markup

def rawTextTags : List String := ["script", "style", "n:props"]

/-- What is inside of these elements is text without any structure. -/
def isRawText (tag : String) : Bool := rawTextTags.any (Text.eqIgnoringAsciiCase tag)

structure Step where
  /-- How many characters it takes besides the first. -/
  extra : Nat
  /-- Its tokens, each with the number of characters in front of it. -/
  tokens : List (Token × Nat)
  /-- What is wrong, and the number of characters in front of it. -/
  problem : Option (Problem × String × Nat)

namespace Step

def one (extra : Nat) (t : Token) : Step := ⟨extra, [(t, 0)], none⟩

def flawed (extra : Nat) (t : Token) (p : Problem) (message : String) : Step :=
  ⟨extra, [(t, 0)], some (p, message, 0)⟩

/-- A step that is plain text: `c` and the first `extra` of `cs`. -/
def plain (c : Char) (cs : List Char) (extra : Nat) : Step :=
  one extra (.text (.ofList (c :: cs.take extra)))

/-- A comment, whose first four characters are those in front of `cs`. -/
def comment (cs : List Char) : Step :=
  match Text.cutAt? "-->".toList cs with
  | some (text, _) => one (text.length + 6) (.comment (.ofList text))
  | none =>
    flawed (cs.length + 3) (.comment (.ofList cs)) .structuralDirective "Unterminated comment."

/-- Text up to a `>`, which is taken too, and how many characters that is. -/
def upToAngle (cs : List Char) : String × Nat :=
  let text := cs.takeWhile (· != '>')
  (codeOf text, if text.length < cs.length then text.length + 1 else text.length)

def doctype (cs : List Char) : Step :=
  let (text, width) := upToAngle cs
  one (width + 1) (.doctype text)

def closeTag (cs : List Char) : Step :=
  let (name, width) := upToAngle cs
  one (width + 1) (.closeTag name)

/-- An attribute, with the number of characters in front of it in its tag. -/
structure Found where
  name : String
  value : Option RawValue
  offset : Nat

def endsTagName (c : Char) : Bool := Text.isBlank c || c = '>' || c = '/'

def endsAttributeName (c : Char) : Bool :=
  Text.isBlank c || c = '=' || c = '>' || c = '/' || c = '"' || c = '\''

/-- A value without quotes ends at a blank or `>`. Slashes at its end are no part of it, and one
in front of `>` ends the tag. -/
def bareValue (cs : List Char) : RawValue × Nat :=
  let text := cs.takeWhile fun c => !(Text.isBlank c || c = '>')
  let closes := text.getLast? = some '/' ∧ (cs.drop text.length).head? = some '>'
  (.text (.ofList (Text.dropEndWhile (· = '/') text)),
    if closes then text.length - 1 else text.length)

/-- The value behind an equals sign and blanks, and its width; there is none if a quote or brace
stays open. -/
def value? (cs : List Char) : Option (RawValue × Nat) :=
  match cs with
  | '"' :: cs =>
    (Text.cutAt? ['"'] cs).map fun (text, _) => (.text (.ofList text), text.length + 2)
  | '\'' :: cs =>
    (Text.cutAt? ['\''] cs).map fun (text, _) => (.text (.ofList text), text.length + 2)
  | '\x7b' :: cs =>
    (inBraces? cs).map fun inside => (.braced (codeOf inside), inside.length + 2)
  | cs => some (bareValue cs)

/-- What follows an attribute's name: its value, if it has one, and the width of all that. -/
def assigned? (cs : List Char) : Option (Option RawValue × Nat) :=
  let blanks := (cs.takeWhile Text.isBlank).length
  match cs.drop blanks with
  | '=' :: rest =>
    let more := (rest.takeWhile Text.isBlank).length
    (value? (rest.drop more)).map fun (v, width) => (some v, blanks + 1 + more + width)
  | _ => some (none, 0)

/-- The attributes up to the end of a tag, whether it closes itself, and the number of characters
up to its end. There is no tag if it does not end. -/
def attributes? (offset : Nat) : List Char → Option (List Found × Bool × Nat)
  | [] => none
  | c :: cs =>
    if Text.isBlank c then attributes? (offset + 1) cs
    else if c = '>' then some ([], false, offset + 1)
    else if c = '/' && cs.head? = some '>' then some ([], true, offset + 2)
    else if endsAttributeName c then attributes? (offset + 1) cs
    else
      let more := cs.takeWhile fun c => !endsAttributeName c
      let n := more.length
      match assigned? (cs.drop n) with
      | none => none
      | some (value, width) =>
        match attributes? (offset + 1 + n + width) (cs.drop (n + width)) with
        | none => none
        | some (found, rest) => some (⟨.ofList (c :: more), value, offset⟩ :: found, rest)
termination_by cs => cs.length

/-- Text up to the closing tag of a raw text element, and whether there is one. -/
def rawText (name : String) (cs : List Char) : List Char × Bool :=
  match Text.cutAt? ('<' :: '/' :: name.toList.map Char.toLower) (cs.map Char.toLower) with
  | some (before, _) => (cs.take before.length, true)
  | none => (cs, false)

/-- An opening tag at `location`, and the raw text behind it if it opens any. `cs` is what follows
the `<`. -/
def openTag? (location : Location) (cs : List Char) : Option Step :=
  let name := cs.takeWhile fun c => !endsTagName c
  let source := '<' :: cs
  match attributes? (name.length + 1) (cs.drop name.length) with
  | none => none
  | some (found, selfClosing, width) =>
    let name := String.ofList name
    let attributes := found.map fun f =>
      (⟨f.name, f.value, location.after (source.take f.offset)⟩ : RawAttribute)
    let tag := (Token.openTag name attributes selfClosing, 0)
    if !selfClosing && isRawText name then
      let (text, closed) := rawText name (source.drop width)
      let content := if text.isEmpty then [] else [(Token.rawText (.ofList text), width)]
      let problem :=
        if closed then none
        else some (Problem.structuralDirective, "Unclosed <" ++ name ++ "> block.", width)
      some ⟨width + text.length - 1, tag :: content, problem⟩
    else some ⟨width - 1, [tag], none⟩

def doubleBrace (cs : List Char) : Step :=
  match inDoubleBraces? cs with
  | some inside =>
    one (inside.length + 3)
      (.interpolation (codeOf inside)
        (.ofList ("\x7b\x7b".toList ++ inside ++ "\x7d\x7d".toList)))
  | none =>
    flawed 1 (.text "\x7b\x7b") .invalidExpression "Unterminated `\x7b\x7b` interpolation."

def block (cs : List Char) : Step :=
  match Text.cutAt? "%\x7d".toList cs with
  | some (inside, _) => one (inside.length + 3) (.block (.read inside))
  | none => flawed 1 (.text "\x7b%") .controlFlowSyntax "Unterminated `\x7b%` block tag."

/-- Single braces hold an expression only if it stands on one line. -/
def singleBrace (cs : List Char) : Step :=
  match inBraces? cs with
  | some inside =>
    if !inside.contains '\n' && isExpression inside then
      one (inside.length + 1)
        (.interpolation (codeOf inside) (.ofList ('\x7b' :: inside ++ ['\x7d'])))
    else plain '\x7b' cs 0
  | none => plain '\x7b' cs 0

def startsWithLetter (cs : List Char) : Bool := cs.head?.any Char.isAlpha

/-- The step that begins with `c` at `location` and goes on in `cs`. -/
def next (location : Location) (c : Char) (cs : List Char) : Step :=
  match c, cs with
  | '<', '!' :: '-' :: '-' :: rest => comment rest
  | '<', '!' :: rest => doctype rest
  | '<', cs =>
    match cs with
    | '/' :: rest => if startsWithLetter rest then closeTag rest else text '<' cs
    | cs =>
      if startsWithLetter cs then (openTag? location cs).getD (plain '<' cs 0) else text '<' cs
  | '\x7b', '\x7b' :: rest => doubleBrace rest
  | '\x7b', '%' :: rest => block rest
  | '\x7b', cs => singleBrace cs
  | c, cs => text c cs
where
  /-- Text goes on to the next character that may begin something else. -/
  text (c : Char) (cs : List Char) : Step :=
    plain c cs (cs.takeWhile fun c => c != '<' && c != '\x7b').length

end Step

/-- The lexemes of a source from a place on, step by step. -/
def steps (file : String) (location : Location) : List Char → Reported (List Lexeme)
  | [] => pure []
  | c :: cs => do
    let s := Step.next location c cs
    let behind (n : Nat) : Location := location.after ((c :: cs).take n)
    if let some (p, message, n) := s.problem then
      report ((Diagnostic.error .parse p message).placed file (behind n))
    let rest ← steps file (behind (s.extra + 1)) (cs.drop s.extra)
    return s.tokens.map (fun (t, n) => ⟨t, behind n⟩) ++ rest
termination_by cs => cs.length

def joinText : List Lexeme → List Lexeme
  | [] => []
  | x :: rest =>
    match x, joinText rest with
    | ⟨.text s, l⟩, ⟨.text t, _⟩ :: rest => ⟨.text (s ++ t), l⟩ :: rest
    | x, rest => x :: rest

def scan (source file : String) : Reported (List Lexeme) :=
  joinText <$> steps file .start source.toList

end Markup

end PageCompiler
