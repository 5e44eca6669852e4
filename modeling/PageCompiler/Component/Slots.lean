import PageCompiler.Definition

/-!
Slots. The content that a usage gives is put into the places that the body of the component has
for it. Each content is placed once; a place that gets none shows its fallback.
-/

namespace PageCompiler

/-- Content by slot, the named slots in the order of their first content. -/
structure SlotContent where
  default : List Node
  named : List (String × List Node)

namespace SlotContent

def addNamed (named : List (String × List Node)) (piece : String × List Node) :
    List (String × List Node) :=
  if named.any fun (name, _) => name = piece.1 then
    named.map fun (name, nodes) =>
      if name = piece.1 then (name, nodes ++ piece.2) else (name, nodes)
  else named ++ [piece]

def ofPieces (default : List Node) (pieces : List (String × List Node)) : SlotContent :=
  ⟨default, pieces.foldl addNamed []⟩

/-- Takes the content of the first slot of that name, whatever the case of ASCII letters. -/
def takeNamed (name : String) : List (String × List Node) →
    List Node × List (String × List Node)
  | [] => ([], [])
  | (n, nodes) :: rest =>
    if Text.eqIgnoringAsciiCase n name then (nodes, (n, []) :: rest)
    else
      let (taken, rest) := takeNamed name rest
      (taken, (n, nodes) :: rest)

/-- Takes the content for a place; the content is gone then, even if it is blank. -/
def take (name : Option String) (c : SlotContent) : List Node × SlotContent :=
  match name with
  | none => (c.default, { c with default := [] })
  | some name =>
    let (taken, named) := takeNamed name c.named
    (taken, { c with named })

end SlotContent

namespace Slots

mutual

/-- A node of a component's body with its slots filled. The state is the content without a place. -/
def fill : Node → StateM SlotContent (List Node)
  | .slot name fallback _ => do
    let content ← modifyGet (SlotContent.take name)
    if content.all Node.isBlank then fillAll fallback else return [.callerScope content]
  | .element tag as children closing l =>
    return [.element tag as (← fillAll children) closing l]
  | .component name as children l => return [.component name as (← fillAll children) l]
  | .loop item source body d l => return [.loop item source (← fillAll body) d l]
  | .conditional branches alternate d l => do
    let branches ← fillBranches branches
    match alternate with
    | some nodes => return [.conditional branches (some (← fillAll nodes)) d l]
    | none => return [.conditional branches none d l]
  | .island strategy script children l =>
    return [.island strategy script (← fillAll children) l]
  | .isolated component bindings children l =>
    return [.isolated component bindings (← fillAll children) l]
  | .callerScope children => return [.callerScope (← fillAll children)]
  | n => return [n]
termination_by structural n => n

def fillAll : List Node → StateM SlotContent (List Node)
  | [] => return []
  | n :: ns => do
    let nodes ← fill n
    return nodes ++ (← fillAll ns)
termination_by structural ns => ns

def fillBranches :
    List (String × List Node) → StateM SlotContent (List (String × List Node))
  | [] => return []
  | (condition, body) :: rest => do
    let body ← fillAll body
    return (condition, body) :: (← fillBranches rest)
termination_by structural bs => bs

end

def fillBody (body : List Node) (content : SlotContent) : List Node :=
  ((fillAll body).run content).1

end Slots

end PageCompiler
