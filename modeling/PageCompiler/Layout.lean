import PageCompiler.Definition

/-!
Layouts. A page takes the place of the first default slot of its layout; every other slot shows
its fallback.
-/

namespace PageCompiler.Layout

mutual

/-- A node of a layout with its slots filled. The state is the page, as long as it has no place. -/
def fill : Node → StateM (Option (List Node)) (List Node)
  | .slot name fallback _ => do
    match name, ← get with
    | none, some page =>
      set (none : Option (List Node))
      return page
    | _, _ => fillAll fallback
  | .element tag as children closing l =>
    return [.element tag as (← fillAll children) closing l]
  | .component name as children l => return [.component name as (← fillAll children) l]
  | .loop item source body d l => return [.loop item source (← fillAll body) d l]
  | .conditional branches alternate d l => do
    let branches ← fillBranches branches
    match alternate with
    | some nodes => return [.conditional branches (some (← fillAll nodes)) d l]
    | none => return [.conditional branches none d l]
  | .island strategy script children l =>
    return [.island strategy script (← fillAll children) l]
  | .isolated component bindings children l =>
    return [.isolated component bindings (← fillAll children) l]
  | .callerScope children => return [.callerScope (← fillAll children)]
  | n => return [n]
termination_by structural n => n

def fillAll : List Node → StateM (Option (List Node)) (List Node)
  | [] => return []
  | n :: ns => do
    let nodes ← fill n
    return nodes ++ (← fillAll ns)
termination_by structural ns => ns

def fillBranches :
    List (String × List Node) → StateM (Option (List Node)) (List (String × List Node))
  | [] => return []
  | (condition, body) :: rest => do
    let body ← fillAll body
    return (condition, body) :: (← fillBranches rest)
termination_by structural bs => bs

end

structure Applied where
  nodes : List Node
  styles : List String
  scripts : List String

/-- Puts a page into the layout of that name. Without such a layout it stands alone. -/
def apply (registry : Registry) (name : String) (page : List Node) (file : String) :
    Reported Applied :=
  match registry.layout? name with
  | none => do
    report ((Diagnostic.warning .normalize .structuralDirective
      ("Layout `" ++ name ++ "` was not found; the page renders without it.")).inFile file)
    return ⟨page, [], []⟩
  | some layout => do
    let (nodes, rest) := (fillAll layout.nodes).run (some page)
    if rest.isSome then
      report ((Diagnostic.warning .normalize .slotNotFound
        ("Layout `" ++ name ++ "` has no default slot; the page content is dropped.")).inFile file)
    return ⟨nodes, layout.styles, layout.scripts⟩

end PageCompiler.Layout
