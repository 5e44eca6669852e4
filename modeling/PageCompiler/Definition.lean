import PageCompiler.Props.Block
import PageCompiler.Text.Case

/-!
Definitions of components and layouts, and the registry in which they are found by name.
-/

namespace PageCompiler

structure SlotDefinition where
  name : Option String
  location : Location

structure Definition where
  name : String
  path : String
  props : List PropDefinition
  slots : List SlotDefinition
  nodes : List Node
  styles : List String
  scripts : List String

namespace Definition

def prop? (d : Definition) (name : String) : Option PropDefinition :=
  d.props.find? fun p => p.name = name

def hasSlot (d : Definition) (name : Option String) : Bool := d.slots.any fun s => s.name = name

def requiredProps (d : Definition) : List PropDefinition := d.props.filter (·.isRequired)

def slotLabel : Option String → String
  | some name => "slot `" ++ name ++ "`"
  | none => "default slot"

/-- The slots among `nodes` behind those of `slots`; a name that comes again is reported. -/
def slotsAfter (file : String) (slots : List SlotDefinition) :
    List Node → Reported (List SlotDefinition)
  | [] => return slots
  | .slot name _ l :: nodes => do
    if slots.any fun s => s.name = name then
      report ((Diagnostic.error .discovery .duplicateSlot
        ("The " ++ slotLabel name ++ " is declared more than once.")).placed file l)
      slotsAfter file slots nodes
    else slotsAfter file (slots ++ [⟨name, l⟩]) nodes
  | _ :: nodes => slotsAfter file slots nodes

def ofTemplate (name : String) (t : Template) : Reported Definition := do
  t.findings.diagnostics.forM report
  let props ←
    match t.findings.props with
    | some block => Props.ofBlock t.path block
    | none => pure []
  let slots ← slotsAfter t.path [] (Node.listDescendants t.nodes)
  return ⟨name, t.path, props, slots, t.nodes, t.styles, t.findings.scripts⟩

end Definition

/-- The definitions by kind, each kind in the order of names and each name once. -/
structure Registry where
  components : List Definition
  layouts : List Definition

namespace Registry

def empty : Registry := ⟨[], []⟩

def insert? (d : Definition) : List Definition → Option (List Definition)
  | [] => some [d]
  | e :: rest =>
    if e.name = d.name then none
    else if d.name < e.name then some (d :: e :: rest)
    else (insert? d rest).map (e :: ·)

def register? (d : Definition) (r : Registry) : Option Registry :=
  (insert? d r.components).map fun components => { r with components }

def registerLayout? (d : Definition) (r : Registry) : Option Registry :=
  (insert? d r.layouts).map fun layouts => { r with layouts }

/-- The component of that very name, or else the first whose name differs in case only. -/
def component? (r : Registry) (name : String) : Option Definition :=
  (r.components.find? fun d => d.name = name).or
    (r.components.find? fun d => Text.lower d.name = Text.lower name)

def layout? (r : Registry) (name : String) : Option Definition :=
  r.layouts.find? fun d => d.name = name

end Registry

end PageCompiler
