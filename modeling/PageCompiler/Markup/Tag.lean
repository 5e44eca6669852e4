import PageCompiler.Markup.Token

/-!
What the tags of a template stand for: elements, components, slots, islands, and the control flow
that is written with tags.
-/

namespace PageCompiler.Markup

/-- Elements that have neither content nor a closing tag. -/
def voidTags : List String :=
  ["area", "base", "br", "col", "embed", "hr", "img", "input", "link", "meta", "param", "source",
    "track", "wbr"]

def isVoid (tag : String) : Bool := voidTags.any (Text.eqIgnoringAsciiCase tag)

/-- A tag whose name begins with an ASCII capital is the usage of a component. -/
def isComponentTag (tag : String) : Bool := tag.toList.head?.any Char.isUpper

def asciiLower (s : String) : String := .ofList (s.toList.map Char.toLower)

def attributesOf (raw : List RawAttribute) : List Attribute :=
  raw.map fun a =>
    let value :=
      match a.value with
      | none => .bare
      | some (.braced code) => .expression code
      | some (.text text) => attributeText text
    ⟨a.name, value, a.location⟩

/-- The value of an attribute that directs the compiler: an expression is given by its code, in
braces or as the only part of the text. -/
def directive? (name : String) (raw : List RawAttribute) : Option String := do
  let a ← raw.find? fun a => Text.eqIgnoringAsciiCase a.name name
  match a.value with
  | none => return ""
  | some (.braced code) => return code
  | some (.text text) =>
    match splitParts text with
    | [.expression code] => return code
    | _ => return Text.trimmed text

def filledDirective? (name : String) (raw : List RawAttribute) : Option String :=
  (directive? name raw).filter fun s => !s.isEmpty

def strategy? (a : RawAttribute) : Option Strategy :=
  match asciiLower a.name with
  | "client:load" => some .load
  | "client:visible" => some .visible
  | "client:idle" => some .idle
  | "client:media" =>
    match a.value with
    | some (.text query) => some (.media query)
    | some (.braced query) => some (.media query)
    | none => some (.media "")
  | _ => none

/-- The last attribute that names a strategy decides. -/
def strategyOf (raw : List RawAttribute) : Strategy :=
  ((raw.filterMap strategy?).getLast?).getD .load

def textOf (nodes : List Node) : String :=
  nodes.foldl (fun s n => match n with | .text t _ => s ++ t | _ => s) ""

/-- The text of the first script among the children of an island, and the other children. -/
def takeScript : List Node → Option String × List Node
  | [] => (none, [])
  | n :: ns =>
    match n with
    | .element tag _ children _ _ =>
      if Text.eqIgnoringAsciiCase tag "script" then (some (textOf children), ns)
      else
        let (script, rest) := takeScript ns
        (script, n :: rest)
    | _ =>
      let (script, rest) := takeScript ns
      (script, n :: rest)

def islandOf (raw : List RawAttribute) (children : List Node) (location : Location) : Node :=
  let (script, children) := takeScript children
  .island (strategyOf raw) (script.getD "") children location

/-- A conditional written with tags, which the next tag may continue. -/
structure Chain where
  branches : List (String × List Node)
  location : Location
  /-- Blank text since its last branch, last first. -/
  blanks : List Node

inductive Built
  | node (n : Node)
  | chain (c : Chain)

def controlFlowError (file : String) (message : String) (location : Location) : Reported Built := do
  report ((Diagnostic.error .parse .controlFlowSyntax message).placed file location)
  return .node (.error .controlFlowSyntax message location)

def build (file name : String) (raw : List RawAttribute) (selfClosing : Bool)
    (children : List Node) (location : Location) : Reported Built :=
  match asciiLower name with
  | "for" =>
    match filledDirective? "item" raw, filledDirective? "in" raw with
    | some item, some source => return .node (.loop item source children .tag location)
    | _, _ => controlFlowError file "<for> needs both `item` and `in` attributes." location
  | "if" =>
    match filledDirective? "condition" raw with
    | some condition => return .chain ⟨[(condition, children)], location, []⟩
    | none => controlFlowError file "<if> needs a `condition` attribute." location
  | "slot" | "n:slot" => return .node (.slot (filledDirective? "name" raw) children location)
  | "n:island" => return .node (islandOf raw children location)
  | lower =>
    if lower = "elif" ∨ lower = "else" then do
      report ((Diagnostic.error .parse .controlFlowSyntax
        ("<" ++ lower ++ "> must directly follow an <if> or <elif>.")).placed file location)
      return .node
        (.error .controlFlowSyntax ("<" ++ lower ++ "> without a preceding <if>") location)
    else if isComponentTag name then
      return .node (.component name (attributesOf raw) children location)
    else
      return .node (.element name (attributesOf raw) children selfClosing location)

end PageCompiler.Markup
