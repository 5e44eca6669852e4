import PageCompiler.Component.Expanded
import PageCompiler.Component.Slots
import PageCompiler.Text.Html

/-!
Expansion of components. Each usage becomes the body of the component with the bindings of its
props; content of slots is expanded where it is written, before it is put into the body. No
component is expanded inside of itself, and nesting is limited.
-/

namespace PageCompiler.Component

/-- Where a usage stands: the components around it, outermost first, and the document that
problems are reported of. -/
structure Site where
  stack : List String
  file : String

structure Setting where
  registry : Registry
  maxDepth : Nat

abbrev ExpandBody := Site → List Node → Expanded (List Node)

def fail (site : Site) (problem : Problem) (message : String) (l : Location) : Expanded Node := do
  .report ((Diagnostic.error .components problem message).placed site.file l)
  return .error problem message l

def warn (site : Site) (problem : Problem) (message : String) (l : Location) : Expanded PUnit :=
  .report ((Diagnostic.warning .components problem message).placed site.file l)

/-- The value of an attribute without expressions, or the expression for later. -/
def propValue (type : PropType) (value : AttributeValue) : Except String PropValue :=
  match value with
  | .static text =>
    match type.ofText (Text.unescapeHtml text) with
    | .ok v => .ok (.resolved v)
    | .error m => .error m.message
  | .bare =>
    match type with
    | .bool => .ok (.resolved (.bool true))
    | .any => .ok (.resolved (.bool true))
    | .string => .ok (.resolved (.string ""))
    | type => .error ("expected " ++ type.name ++ ", got a bare attribute")
  | value => .ok (.deferred value type)

/-- What the attributes of a usage give: bindings of props, and attributes that are no props. -/
structure Given where
  bindings : List PropBinding
  others : List Attribute

/-- Goes through the attributes. A value that does not fit a prop is dropped if the prop can do
without it; else it is an error, and no more attributes are looked at. -/
def givenBy (site : Site) (d : Definition) : List Attribute → Expanded (Except String Given)
  | [] => return .ok ⟨[], []⟩
  | a :: as =>
    if a.name = "slot" then givenBy site d as
    else
      match d.prop? a.name with
      | none => do
        return (← givenBy site d as).map fun g => { g with others := a :: g.others }
      | some p =>
        match propValue p.type a.value with
        | .ok value => do
          return (← givenBy site d as).map fun g =>
            { g with bindings := ⟨p.name, value⟩ :: g.bindings }
        | .error reason => do
          let message := "Prop `" ++ p.name ++ "` of <" ++ d.name ++ ">: " ++ reason ++ "."
          if p.isRequired then
            .report ((Diagnostic.error .components .invalidPropType message).placed site.file
              a.location)
            return .error message
          else
            .report (((Diagnostic.warning .components .invalidPropType message).placed site.file
              a.location).withHint "The declared default is used instead.")
            givenBy site d as

/-- A binding for a prop that is not given: its default, or nothing if it is optional. -/
def absent? (p : PropDefinition) : Option PropBinding :=
  match p.default, p.optional with
  | some v, _ => some ⟨p.name, .resolved v⟩
  | none, true => some ⟨p.name, .resolved .null⟩
  | none, false => none

def isGiven (bindings : List PropBinding) (p : PropDefinition) : Bool :=
  bindings.any fun b => b.name = p.name

def missing (d : Definition) (bindings : List PropBinding) : List PropDefinition :=
  d.props.filter fun p => p.isRequired && !isGiven bindings p

def complete (d : Definition) (bindings : List PropBinding) : List PropBinding :=
  let position (b : PropBinding) : Nat := d.props.findIdx fun p => p.name = b.name
  let all := bindings ++ (d.props.filter fun p => !isGiven bindings p).filterMap absent?
  all.mergeSort fun a b => position a ≤ position b

/-- Adds an attribute to those of an element: classes are joined, any other attribute of that
name is replaced. -/
def mergeAttribute (as : List Attribute) (a : Attribute) : List Attribute :=
  match as with
  | [] => [a]
  | b :: rest =>
    if Text.eqIgnoringAsciiCase b.name a.name then
      let value :=
        match b.value, a.value with
        | .static current, .static more =>
          if a.name = "class" then
            if Text.isAllBlank more then .static current
            else .static (current ++ " " ++ Text.trimmed more)
          else .static more
        | .interpolated parts, .static more =>
          if a.name = "class" then .interpolated (parts ++ [.text (" " ++ Text.trimmed more)])
          else .static more
        | _, value => value
      { b with value } :: rest
    else b :: mergeAttribute rest a

def isFixed (a : Attribute) : Bool :=
  match a.value with
  | .static _ => true
  | .bare => true
  | _ => false

def isRoot (n : Node) : Bool :=
  match n with
  | .comment .. => false
  | n => !n.isBlank

def mergeInto? (as : List Attribute) : Node → Option Node
  | .element tag own children closing l =>
    some (.element tag (as.foldl mergeAttribute own) children closing l)
  | .component name own children l =>
    some (.component name (as.foldl mergeAttribute own) children l)
  | _ => none

/-- Gives the attributes that are no props to the single root of the body. -/
def forward (site : Site) (d : Definition) (l : Location) (others : List Attribute)
    (body : List Node) : Expanded (List Node) := do
  (others.filter fun a => !isFixed a).forM fun a =>
    warn site .structuralDirective
      ("Dynamic attribute `" ++ a.name ++ "` is not a prop of <" ++ d.name ++ "> and is dropped.")
      a.location
  let fixed := others.filter isFixed
  if fixed.isEmpty then return body
  else
    match body.filter isRoot with
    | [root] =>
      match mergeInto? fixed root with
      | some merged => return body.map fun n => if isRoot n then merged else n
      | none => do
        warn site .structuralDirective
          ("<" ++ d.name ++ "> has no root element to receive attributes.") l
        return body
    | _ => do
      warn site .structuralDirective
        ("<" ++ d.name ++ "> has no single root element; attributes " ++
          Text.join ", " (fixed.map Attribute.name) ++ " are dropped.") l
      return body

def checkContent (site : Site) (d : Definition) (l : Location) (content : SlotContent) :
    Expanded PUnit :=
  content.named.forM fun (name, nodes) =>
    let declared := d.slots.any fun s => s.name.any fun n => Text.eqIgnoringAsciiCase n name
    if declared || nodes.all Node.isBlank then pure ⟨⟩
    else
      warn site .slotNotFound
        ("<" ++ d.name ++ "> has no slot named `" ++ name ++ "`; the content is dropped.") l

def instantiate (inside : ExpandBody) (site : Site) (d : Definition) (g : Given)
    (content : Expanded SlotContent) (l : Location) : Expanded Node := do
  let content ← content
  checkContent site d l content
  let body ← forward site d l g.others (Slots.fillBody d.nodes content)
  let children ← inside ⟨site.stack ++ [d.name], d.path⟩ body
  return .isolated d.name (complete d g.bindings) children l

def missingMessage (d : Definition) (names : List String) : String :=
  "<" ++ d.name ++ "> is missing required prop" ++ (if names.length = 1 then "" else "s") ++ " " ++
    Text.join ", " (names.map fun n => "`" ++ n ++ "`")

def useDefinition (inside : ExpandBody) (site : Site) (d : Definition) (as : List Attribute)
    (content : Expanded SlotContent) (l : Location) : Expanded Node := do
  .use d.name
  match ← givenBy site d as with
  | .error message => return .error .invalidPropType message l
  | .ok g =>
    let names := (missing d g.bindings).map PropDefinition.name
    if names.isEmpty then instantiate inside site d g content l
    else
      names.forM fun n => .report ((Diagnostic.error .components .missingRequiredProp
        ("<" ++ d.name ++ "> is missing required prop `" ++ n ++ "`.")).placed site.file l)
      return .error .missingRequiredProp (missingMessage d names) l

def unknownMessage (name : String) : String :=
  match Text.cutAt? ['.'] name.toList with
  | some (parent, _) =>
    "<" ++ name ++ "> is only valid as a direct child of <" ++ .ofList parent ++ ">."
  | none => "Unknown component <" ++ name ++ ">."

/-- The usage of a name. There is no way inside where the limit of nesting is reached. -/
def useName (setting : Setting) (inside : Option ExpandBody) (site : Site) (name : String)
    (as : List Attribute) (content : Expanded SlotContent) (l : Location) : Expanded Node :=
  match setting.registry.component? name with
  | none => fail site .unknownComponent (unknownMessage name) l
  | some d =>
    if site.stack.contains d.name then
      let chain := site.stack.dropWhile (· != d.name) ++ [d.name]
      fail site .circularComponentDependency
        ("Circular component dependency: " ++ Text.join " -> " chain) l
    else
      match inside with
      | none =>
        fail site .circularComponentDependency
          ("Component nesting exceeds " ++ toString setting.maxDepth ++ " levels at <" ++ d.name ++
            ">.") l
      | some inside => useDefinition inside site d as content l

/-- The slot that a usage such as `Card.Header` inside of `Card` names. -/
def compoundSlot? (parent name : String) : Option String :=
  match Text.withoutStart? (parent ++ ".") name with
  | some rest => if rest.isEmpty then none else some (Text.lower rest)
  | none => none

def slotNamed? (a : Attribute) : Option String :=
  match a.value with
  | .static text =>
    if a.name = "slot" && !Text.isAllBlank text then some (Text.lower (Text.trimmed text)) else none
  | _ => none

def slotAttribute? (as : List Attribute) : Option String := as.findSome? slotNamed?

def withoutSlot (as : List Attribute) : List Attribute := as.eraseP fun a => (slotNamed? a).isSome

def isNamedContent (parent : String) : Node → Bool
  | .component name as _ _ => (compoundSlot? parent name).isSome || (slotAttribute? as).isSome
  | .element _ as _ _ _ => (slotAttribute? as).isSome
  | _ => false

mutual

/-- A node with the components in it expanded. Slot content in it is so already. -/
def expand (setting : Setting) (inside : Option ExpandBody) (site : Site) : Node → Expanded Node
  | .component name as children l =>
    let content := do
      let pieces ← namedContent setting inside site name children
      let rest ← defaultContent setting inside site name children
      return SlotContent.ofPieces rest pieces
    useName setting inside site name as content l
  | .element tag as children closing l =>
    return .element tag as (← expandAll setting inside site children) closing l
  | .slot name fallback l => return .slot name (← expandAll setting inside site fallback) l
  | .loop item source body d l =>
    return .loop item source (← expandAll setting inside site body) d l
  | .conditional branches alternate d l => do
    let branches ← expandBranches setting inside site branches
    match alternate with
    | some nodes =>
      return .conditional branches (some (← expandAll setting inside site nodes)) d l
    | none => return .conditional branches none d l
  | .island strategy script children l =>
    return .island strategy script (← expandAll setting inside site children) l
  | .isolated component bindings children l =>
    return .isolated component bindings (← expandAll setting inside site children) l
  | n => return n
termination_by structural n => n

def expandAll (setting : Setting) (inside : Option ExpandBody) (site : Site) :
    List Node → Expanded (List Node)
  | [] => return []
  | n :: ns => do
    let n ← expand setting inside site n
    return n :: (← expandAll setting inside site ns)
termination_by structural ns => ns

def expandBranches (setting : Setting) (inside : Option ExpandBody) (site : Site) :
    List (String × List Node) → Expanded (List (String × List Node))
  | [] => return []
  | (condition, body) :: rest => do
    let body ← expandAll setting inside site body
    return (condition, body) :: (← expandBranches setting inside site rest)
termination_by structural bs => bs

/-- The content of named slots among the children of a usage of `parent`, piece by piece. -/
def namedContent (setting : Setting) (inside : Option ExpandBody) (site : Site)
    (parent : String) : List Node → Expanded (List (String × List Node))
  | [] => return []
  | .component name as children l :: rest => do
    match compoundSlot? parent name, slotAttribute? as with
    | some slot, _ =>
      let nodes ← expandAll setting inside site children
      return (slot, nodes) :: (← namedContent setting inside site parent rest)
    | none, some slot =>
      let content := do
        let pieces ← namedContent setting inside site name children
        let rest ← defaultContent setting inside site name children
        return SlotContent.ofPieces rest pieces
      let node ← useName setting inside site name (withoutSlot as) content l
      return (slot, [node]) :: (← namedContent setting inside site parent rest)
    | none, none => namedContent setting inside site parent rest
  | .element tag as children closing l :: rest => do
    match slotAttribute? as with
    | some slot =>
      let children ← expandAll setting inside site children
      return (slot, [.element tag (withoutSlot as) children closing l]) ::
        (← namedContent setting inside site parent rest)
    | none => namedContent setting inside site parent rest
  | _ :: rest => namedContent setting inside site parent rest
termination_by structural ns => ns

def defaultContent (setting : Setting) (inside : Option ExpandBody) (site : Site)
    (parent : String) : List Node → Expanded (List Node)
  | [] => return []
  | n :: ns => do
    if isNamedContent parent n then defaultContent setting inside site parent ns
    else
      let n ← expand setting inside site n
      return n :: (← defaultContent setting inside site parent ns)
termination_by structural ns => ns

end

/-- The way into a component, if that many more levels of nesting are allowed. -/
def insideBody (setting : Setting) : Nat → Option ExpandBody
  | 0 => none
  | levels + 1 => some fun site nodes => expandAll setting (insideBody setting levels) site nodes

def expandNodes (setting : Setting) (file : String) (nodes : List Node) :
    Expanded (List Node) :=
  let r := expandAll setting (insideBody setting setting.maxDepth) ⟨[], file⟩ nodes
  { r with used := r.used.eraseDups }

end PageCompiler.Component
