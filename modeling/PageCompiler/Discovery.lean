import PageCompiler.Definition
import PageCompiler.Document
import PageCompiler.Markup.Parse

/-!
What a set of documents holds: the definitions of components and layouts, and the pages. The
order of the documents does not matter, as they are taken in the order of their paths.
-/

namespace PageCompiler

structure Page where
  path : String
  nodes : List Node
  stylesheet : Option String
  script : Option String

/-- The parsed markup of documents by the digest of path and markup. -/
abbrev ParseTable := List (String × Reported (List Node))

namespace ParseTable

def insert (key : String) (parsed : Reported (List Node)) (t : ParseTable) : ParseTable :=
  if (t.lookup key).isSome then
    t.map fun (k, p) => if k = key then (k, parsed) else (k, p)
  else t ++ [(key, parsed)]

def keys (t : ParseTable) : List String := t.map Prod.fst

end ParseTable

structure Discovery where
  registry : Registry
  pages : List Page
  parsed : ParseTable

namespace Discovery

def empty : Discovery := ⟨.empty, [], []⟩

/-- Documents below `layouts` are layouts, those with a capital are components. -/
def roleOf (d : Document) : Role :=
  if d.isInDirectory "layouts" then .layout
  else if Markup.isComponentTag d.stem then .component
  else .page

def duplicate (path name : String) : Diagnostic :=
  (Diagnostic.warning .discovery .structuralDirective
    ("Component `" ++ name ++ "` is defined more than once; the first definition is used.")).inFile
    path

/-- An inline component is a document of its own, under the path `path#Name`. -/
def addInline (path : String) (d : Discovery) (c : InlineComponent) : Reported Discovery := do
  let template := Template.ofNodes .component (path ++ "#" ++ c.name) c.nodes
  let definition ← Definition.ofTemplate c.name template
  match d.registry.register? definition with
  | some registry => return { d with registry }
  | none =>
    report (duplicate path c.name)
    return d

/-- A definition comes behind the inline components of its document. -/
def addDefinition (role : Role) (doc : Document) (nodes : List Node) (d : Discovery) :
    Reported Discovery := do
  let template := Template.ofNodes role doc.path nodes
  let d ← template.findings.inlineComponents.foldlM (addInline doc.path) d
  let definition ← Definition.ofTemplate doc.stem template
  let definition :=
    { definition with
      styles := definition.styles ++ doc.stylesheet.toList
      scripts := definition.scripts ++ doc.script.toList }
  let registered :=
    match role with
    | .layout => d.registry.registerLayout? definition
    | _ => d.registry.register? definition
  match registered with
  | some registry => return { d with registry }
  | none =>
    report (duplicate doc.path doc.stem)
    return d

def inlineOf? (tag : String) (as : List Attribute) (children : List Node) (l : Location) :
    Option InlineComponent :=
  if Text.eqIgnoringAsciiCase tag "n:component" then
    (staticName? as).map fun name => ⟨name, children, l⟩
  else none

mutual

/-- The inline components in a tree, those inside of other ones left aside. -/
def inlineIn : Node → List InlineComponent
  | .element tag as children _ l =>
    match inlineOf? tag as children l with
    | some c => [c]
    | none => inlineInAll children
  | .slot _ fallback _ => inlineInAll fallback
  | .component _ _ children _ => inlineInAll children
  | .loop _ _ body _ _ => inlineInAll body
  | .conditional branches alternate _ _ =>
    inlineInBranches branches ++
      match alternate with
      | some nodes => inlineInAll nodes
      | none => []
  | .island _ _ children _ => inlineInAll children
  | .isolated _ _ children _ => inlineInAll children
  | .callerScope children => inlineInAll children
  | _ => []
termination_by structural n => n

def inlineInAll : List Node → List InlineComponent
  | [] => []
  | n :: ns => inlineIn n ++ inlineInAll ns
termination_by structural ns => ns

def inlineInBranches : List (String × List Node) → List InlineComponent
  | [] => []
  | (_, body) :: rest => inlineInAll body ++ inlineInBranches rest
termination_by structural bs => bs

end

mutual

def dropInline : Node → List Node
  | .element tag as children closing l =>
    match inlineOf? tag as children l with
    | some _ => []
    | none => [.element tag as (dropInlineAll children) closing l]
  | .slot name fallback l => [.slot name (dropInlineAll fallback) l]
  | .component name as children l => [.component name as (dropInlineAll children) l]
  | .loop item source body d l => [.loop item source (dropInlineAll body) d l]
  | .conditional branches alternate d l =>
    [.conditional (dropInlineBranches branches)
      (match alternate with
        | some nodes => some (dropInlineAll nodes)
        | none => none) d l]
  | .island strategy script children l => [.island strategy script (dropInlineAll children) l]
  | .isolated component bindings children l =>
    [.isolated component bindings (dropInlineAll children) l]
  | .callerScope children => [.callerScope (dropInlineAll children)]
  | n => [n]
termination_by structural n => n

def dropInlineAll : List Node → List Node
  | [] => []
  | n :: ns => dropInline n ++ dropInlineAll ns
termination_by structural ns => ns

def dropInlineBranches : List (String × List Node) → List (String × List Node)
  | [] => []
  | (condition, body) :: rest => (condition, dropInlineAll body) :: dropInlineBranches rest
termination_by structural bs => bs

end

def addPage (doc : Document) (nodes : List Node) (d : Discovery) : Reported Discovery := do
  let d ← (inlineInAll nodes).foldlM (addInline doc.path) d
  let page : Page := ⟨doc.path, dropInlineAll nodes, doc.stylesheet, doc.script⟩
  return { d with pages := d.pages ++ [page] }

/-- Adds one document; its markup is read unless `known` holds what reading it gave before. -/
def addDocument (known : ParseTable) (d : Discovery) (doc : Document) : Reported Discovery := do
  let parsed := (known.lookup doc.hash).getD (Markup.parse doc.markup doc.path)
  let nodes ← parsed
  let d := { d with parsed := d.parsed.insert doc.hash parsed }
  match roleOf doc with
  | .page => addPage doc nodes d
  | role => addDefinition role doc nodes d

def inOrder (documents : List Document) : List Document :=
  documents.mergeSort fun a b => a.path ≤ b.path

end Discovery

def discover (known : ParseTable) (documents : List Document) : Reported Discovery :=
  (Discovery.inOrder documents).foldlM (Discovery.addDocument known) .empty

end PageCompiler
