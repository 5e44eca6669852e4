import PageCompiler.Markup.Tag
import PageCompiler.Style

/-!
A document with its directives carried out: wrappers are gone, and titles, layout, props, inline
components, styles and scripts are taken out of the tree. No expression is evaluated for it.
-/

namespace PageCompiler

inductive Role
  | page
  | component
  | layout
  deriving DecidableEq, Repr

structure PropsBlock where
  source : String
  location : Location

structure InlineComponent where
  name : String
  nodes : List Node
  location : Location

structure Findings where
  title : Option AttributeValue
  description : Option AttributeValue
  layout : Option String
  props : Option PropsBlock
  inlineComponents : List InlineComponent
  styles : List String
  scopedStyles : List String
  scripts : List String
  diagnostics : List Diagnostic

structure Template where
  path : String
  nodes : List Node
  findings : Findings
  /-- The styles of the document, the scoped ones last. -/
  styles : List String
  /-- The attribute of the elements, if some style is scoped. -/
  scopeAttribute : Option String

def attributeNamed? (name : String) (as : List Attribute) : Option Attribute :=
  as.find? fun a => Text.eqIgnoringAsciiCase a.name name

def hasAttribute (name : String) (as : List Attribute) : Bool := (attributeNamed? name as).isSome

/-- The text of an attribute without expressions, if it is not blank. -/
def staticName? (as : List Attribute) : Option String :=
  match (attributeNamed? "name" as).map Attribute.value with
  | some (.static text) =>
    let name := Text.trimmed text
    if name.isEmpty then none else some name
  | _ => none

namespace Template

inductive Directive
  | view (title description : Option AttributeValue)
  | layout (name : Option String)
  | props (source : String)
  | component (name : Option String)
  | style (css : String)
  | scopedStyle (css : String)
  | script (js : String)
  | unknown (tag : String)

/-- The directive that an element is, if it is one. A script with a source of its own is an
ordinary element. -/
def directive? (tag : String) (as : List Attribute) (children : List Node) : Option Directive :=
  match Markup.asciiLower tag with
  | "n:view" =>
    some (.view ((attributeNamed? "title" as).map Attribute.value)
      ((attributeNamed? "description" as).map Attribute.value))
  | "n:layout" => some (.layout (staticName? as))
  | "n:props" => some (.props (Markup.textOf children))
  | "n:component" => some (.component (staticName? as))
  | "style" =>
    if hasAttribute "scoped" as then some (.scopedStyle (Markup.textOf children))
    else some (.style (Markup.textOf children))
  | "script" =>
    if hasAttribute "src" as then none else some (.script (Markup.textOf children))
  | lower => if Text.startsWith lower "n:" then some (.unknown tag) else none

/-- The content of these directives belongs to the tree around them. -/
def Directive.keepsContent : Directive → Bool
  | view .. => true
  | layout _ => true
  | unknown _ => true
  | _ => false

/-- What a directive leaves in the tree in front of its content. -/
def Directive.marker : Directive → List Node
  | layout (some name) => [.newComment (" layout:" ++ name ++ " ")]
  | _ => []

/-- Nothing can fill a slot of a page, so only a comment stays in its place. -/
def slotMarker : Option String → Node
  | some name => .newComment (" slot:" ++ name ++ " ")
  | none => .newComment " slot "

mutual

def strip (role : Role) : Node → List Node
  | .element tag as children closing l =>
    match directive? tag as children with
    | some d => d.marker ++ (if d.keepsContent then stripAll role children else [])
    | none => [.element tag as (stripAll role children) closing l]
  | .slot name fallback l =>
    match role with
    | .page => [slotMarker name]
    | _ => [.slot name (stripAll role fallback) l]
  | .component name as children l => [.component name as (stripAll role children) l]
  | .loop item source body d l => [.loop item source (stripAll role body) d l]
  | .conditional branches alternate d l =>
    [.conditional (stripBranches role branches)
      (match alternate with
        | some nodes => some (stripAll role nodes)
        | none => none) d l]
  | .island strategy script children l => [.island strategy script (stripAll role children) l]
  | .isolated component bindings children l =>
    [.isolated component bindings (stripAll role children) l]
  | .callerScope children => [.callerScope (stripAll role children)]
  | n => [n]
termination_by structural n => n

def stripAll (role : Role) : List Node → List Node
  | [] => []
  | n :: ns => strip role n ++ stripAll role ns
termination_by structural ns => ns

def stripBranches (role : Role) : List (String × List Node) → List (String × List Node)
  | [] => []
  | (condition, body) :: rest => (condition, stripAll role body) :: stripBranches role rest
termination_by structural bs => bs

end

structure Finding where
  directive : Directive
  content : List Node
  location : Location

mutual

/-- The directives in a node, in the order of the source. Those in content that is taken out of
the tree, and in slots of a page, do not count. -/
def found (role : Role) : Node → List Finding
  | .element tag as children _ l =>
    match directive? tag as children with
    | some d => ⟨d, children, l⟩ :: (if d.keepsContent then foundInAll role children else [])
    | none => foundInAll role children
  | .slot _ fallback _ =>
    match role with
    | .page => []
    | _ => foundInAll role fallback
  | .component _ _ children _ => foundInAll role children
  | .loop _ _ body _ _ => foundInAll role body
  | .conditional branches alternate _ _ =>
    foundInBranches role branches ++
      match alternate with
      | some nodes => foundInAll role nodes
      | none => []
  | .island _ _ children _ => foundInAll role children
  | .isolated _ _ children _ => foundInAll role children
  | .callerScope children => foundInAll role children
  | _ => []
termination_by structural n => n

def foundInAll (role : Role) : List Node → List Finding
  | [] => []
  | n :: ns => found role n ++ foundInAll role ns
termination_by structural ns => ns

def foundInBranches (role : Role) : List (String × List Node) → List Finding
  | [] => []
  | (_, body) :: rest => foundInAll role body ++ foundInBranches role rest
termination_by structural bs => bs

end

/-- Adds a finding to those before it: the first root with a title gives title and description,
the last layout and the first props block count. -/
def Finding.addTo (path : String) (fs : Findings) (f : Finding) : Findings :=
  let note (severity : Severity) (problem : Problem) (message : String) : Findings :=
    { fs with
      diagnostics := fs.diagnostics ++
        [(Diagnostic.new .normalize problem severity message).placed path f.location] }
  match f.directive with
  | .view title description =>
    if fs.title.isSome then
      note .warning .structuralDirective "Multiple <n:view> roots; the first title wins."
    else { fs with title, description }
  | .layout (some name) => { fs with layout := some name }
  | .layout none =>
    note .error .structuralDirective "<n:layout> needs a static `name` attribute."
  | .props source =>
    if fs.props.isSome then
      note .error .invalidPropDeclaration "Only one <n:props> block is allowed per component."
    else { fs with props := some ⟨source, f.location⟩ }
  | .component (some name) =>
    { fs with inlineComponents := fs.inlineComponents ++ [⟨name, f.content, f.location⟩] }
  | .component none =>
    note .error .structuralDirective "<n:component> needs a static `name` attribute."
  | .style css => if Text.isAllBlank css then fs else { fs with styles := fs.styles ++ [css] }
  | .scopedStyle css => { fs with scopedStyles := fs.scopedStyles ++ [css] }
  | .script js => if Text.isAllBlank js then fs else { fs with scripts := fs.scripts ++ [js] }
  | .unknown tag =>
    note .warning .structuralDirective ("Unknown directive <" ++ tag ++ ">; its content is kept.")

def findingsOf (path : String) (found : List Finding) : Findings :=
  found.foldl (Finding.addTo path) ⟨none, none, none, none, [], [], [], [], []⟩

mutual

/-- Gives every element the attribute `attr`, unless it has one of that name. -/
def stamp (attr : String) : Node → Node
  | .element tag as children closing l =>
    let as := if hasAttribute attr as then as else as ++ [.new attr .bare]
    .element tag as (stampAll attr children) closing l
  | .slot name fallback l => .slot name (stampAll attr fallback) l
  | .component name as children l => .component name as (stampAll attr children) l
  | .loop item source body d l => .loop item source (stampAll attr body) d l
  | .conditional branches alternate d l =>
    .conditional (stampBranches attr branches)
      (match alternate with
        | some nodes => some (stampAll attr nodes)
        | none => none) d l
  | .island strategy script children l => .island strategy script (stampAll attr children) l
  | .isolated component bindings children l =>
    .isolated component bindings (stampAll attr children) l
  | .callerScope children => .callerScope (stampAll attr children)
  | n => n
termination_by structural n => n

def stampAll (attr : String) : List Node → List Node
  | [] => []
  | n :: ns => stamp attr n :: stampAll attr ns
termination_by structural ns => ns

def stampBranches (attr : String) : List (String × List Node) → List (String × List Node)
  | [] => []
  | (condition, body) :: rest => (condition, stampAll attr body) :: stampBranches attr rest
termination_by structural bs => bs

end

def ofNodes (role : Role) (path : String) (nodes : List Node) : Template :=
  let stripped := stripAll role nodes
  let findings := findingsOf path (foundInAll role nodes)
  if findings.scopedStyles.isEmpty then
    { path, nodes := stripped, findings, styles := findings.styles, scopeAttribute := none }
  else
    let attr := Style.scopeAttribute path
    { path, nodes := stampAll attr stripped, findings
      styles := findings.styles ++ findings.scopedStyles.map (Style.scope attr)
      scopeAttribute := some attr }

end Template

end PageCompiler
