import PageCompiler.ControlFlow
import PageCompiler.Proofs.Report
import PageCompiler.Proofs.Tree

/-!
Lexical scope. A frame is all that a place of a template sees: the data of its page and the names
that are bound around it. Beside it stands the list of the usage sites of the component instances
around the place, innermost first, so no frame has to know who uses it. Main statement: control
flow expands every node as it is expanded over such frames, where the content of a slot always
goes back to the usage site.
-/

namespace PageCompiler

open Json (Value Object)

/-- Of two bindings of a name the first counts, and any binding counts more than the data. -/
structure Frame where
  data : Object
  names : List (String × Value)

namespace Frame

def scope (f : Frame) : Scope := .root f.data f.names

def bind (name : String) (value : Value) (f : Frame) : Frame :=
  { f with names := (name, value) :: f.names }

def iterations (f : Frame) (item : String) (items : List Value) : List Frame :=
  items.mapIdx fun index value =>
    (f.bind item value).bind "loop" (ControlFlow.progress index items.length)

/-- The frame of a component instance: its props and the data, and nothing of the usage. -/
def ofProps (data : Object) (props : List (String × Value)) : Frame := ⟨data, props.reverse⟩

end Frame

namespace Lexical

open ControlFlow (collection holds boundProp bindingsIn isLocalTo)

mutual

/-- The nodes that a node becomes in a frame, inside of instances that are used at `sites`. -/
def expand (r : Resolver) (sites : List Frame) (f : Frame) : Node → Reported (List Node)
  | .loop item source body d l =>
    match collection f.scope source d with
    | .ok items => .concat ((f.iterations item items).map fun g => expandAll r sites g body)
    | .error (problem, message) => return [← r.failHere problem message l]
  | .conditional branches alternate _ l => do
    match ← expandBranches r sites f l branches with
    | some nodes => return nodes
    | none =>
      match alternate with
      | some nodes => expandAll r sites f nodes
      | none => return []
  | .isolated component bindings children l => do
    let props ← Reported.all (bindings.map (boundProp r f.scope component l))
    expandAll r (f :: sites) (.ofProps f.data props) children
  | .callerScope children =>
    match sites with
    | site :: outer => expandAll r outer site children
    | [] => expandAll r [] f children
  | .expression code raw l =>
    match Expr.parse code with
    | .ok e =>
      if isLocalTo f.scope e then return [← r.expression f.scope.get? e code raw l]
      else return [.expression code raw l]
    | .error _ => return [.expression code raw l]
  | .element tag as children closing l => do
    let as ← r.attributes (bindingsIn f.scope) as
    return [.element tag as (← expandAll r sites f children) closing l]
  | .component name as children l =>
    return [.component name as (← expandAll r sites f children) l]
  | .slot name fallback l => return [.slot name (← expandAll r sites f fallback) l]
  | .island strategy script children l =>
    return [.island strategy script (← expandAll r sites f children) l]
  | n => return [n]
termination_by structural n => n

def expandAll (r : Resolver) (sites : List Frame) (f : Frame) :
    List Node → Reported (List Node)
  | [] => return []
  | n :: ns => do
    let nodes ← expand r sites f n
    return nodes ++ (← expandAll r sites f ns)
termination_by structural ns => ns

def expandBranches (r : Resolver) (sites : List Frame) (f : Frame) (l : Location) :
    List (String × List Node) → Reported (Option (List Node))
  | [] => return none
  | (condition, body) :: rest => do
    if ← holds r f.scope condition l then return some (← expandAll r sites f body)
    else expandBranches r sites f l rest
termination_by structural bs => bs

end

end Lexical

namespace Scope

/-- What a scope sees, as one frame. -/
def frame : Scope → Frame
  | root data locals => ⟨data, locals⟩
  | child parent locals => ⟨parent.data, locals ++ parent.frame.names⟩
  | isolated caller locals => ⟨caller.data, locals⟩

/-- The frames in which the instances around a scope are used. -/
def sites : Scope → List Frame
  | root .. => []
  | child parent _ => parent.sites
  | isolated caller _ => caller.frame :: caller.sites

theorem sites_of_none {s : Scope} (h : s.caller? = none) : s.sites = [] := by
  induction s with
  | root data locals => rfl
  | child parent locals ih => exact ih h
  | isolated caller locals => simp [caller?] at h

theorem sites_of_some {s c : Scope} (h : s.caller? = some c) : s.sites = c.frame :: c.sites := by
  induction s with
  | root data locals => simp [caller?] at h
  | child parent locals ih => exact ih h
  | isolated caller locals =>
    cases h
    rfl

@[simp] theorem data_frame (s : Scope) : s.frame.data = s.data := by
  cases s <;> rfl

@[simp] theorem local?_frame (s : Scope) (name : String) :
    s.frame.scope.local? name = s.local? name := by
  show s.frame.names.lookup name = s.local? name
  induction s with
  | root data locals => rfl
  | child parent locals ih => simp [frame, local?, List.lookup_append, ih]
  | isolated caller locals => rfl

@[simp] theorem get?_frame (s : Scope) : s.frame.scope.get? = s.get? := by
  funext name
  have hd : s.frame.scope.data = s.data := s.data_frame
  simp only [get?, local?_frame, hd]

@[simp] theorem isLocal_frame (s : Scope) : s.frame.scope.isLocal = s.isLocal := by
  funext name
  simp only [isLocal, local?_frame]

theorem map_frame_iterations (s : Scope) (item : String) (items : List Value) :
    (ControlFlow.iterations s item items).map frame = s.frame.iterations item items := by
  simp [ControlFlow.iterations, Frame.iterations, List.mapIdx_eq_zipIdx_map, openChild, bind, frame,
    Frame.bind]

theorem sites_iterations {s g : Scope} {item : String} {items : List Value}
    (h : g ∈ ControlFlow.iterations s item items) : g.sites = s.sites := by
  obtain ⟨index, _, rfl⟩ := List.mem_mapIdx.1 h
  rfl

theorem instanceFrame_eq (s : Scope) (props : List (String × Value)) :
    ControlFlow.instanceFrame s props = .isolated s props.reverse := by
  suffices h : ∀ names, props.foldl (fun frame p => bind p.1 p.2 frame) (isolated s names) =
      isolated s (props.reverse ++ names) by
    simpa [ControlFlow.instanceFrame, openIsolated] using h []
  induction props with
  | nil => simp
  | cons p props ih =>
    intro names
    rw [List.foldl_cons, List.reverse_cons, List.append_assoc]
    exact ih (p :: names)

end Scope

namespace ControlFlow

variable {r : Resolver} {s : Scope}

@[simp] theorem collection_frame (source : String) (d : Dialect) :
    collection s.frame.scope source d = collection s source d := by
  simp only [collection, Scope.get?_frame]

@[simp] theorem holds_frame (condition : String) (l : Location) :
    holds r s.frame.scope condition l = holds r s condition l := by
  simp only [holds, Scope.get?_frame]

@[simp] theorem isLocalTo_frame : isLocalTo s.frame.scope = isLocalTo s := by
  funext e
  simp only [isLocalTo, Scope.isLocal_frame]

@[simp] theorem bindingsIn_frame : bindingsIn s.frame.scope = bindingsIn s := by
  simp only [bindingsIn, Scope.get?_frame, isLocalTo_frame]

@[simp] theorem writtenValue_frame (prop : String) (l : Location) (value : AttributeValue) :
    writtenValue r s.frame.scope prop l value = writtenValue r s prop l value := by
  simp only [writtenValue, Scope.get?_frame]

@[simp] theorem boundProp_frame (component : String) (l : Location) :
    boundProp r s.frame.scope component l = boundProp r s component l := by
  funext b
  simp only [boundProp, writtenValue_frame]

end ControlFlow

namespace Lexical

variable {r : Resolver} {s : Scope}

theorem expandAll_of_each {ns : List Node}
    (h : ∀ n ∈ ns, ControlFlow.expand r s n = expand r s.sites s.frame n) :
    ControlFlow.expandAll r s ns = expandAll r s.sites s.frame ns := by
  induction ns with
  | nil => rfl
  | cons n ns ih =>
    rw [List.forall_mem_cons] at h
    rw [ControlFlow.expandAll, expandAll, h.1, ih h.2]

theorem expandBranches_of_each {l : Location} {bs : List (String × List Node)}
    (h : ∀ b ∈ bs, ∀ n ∈ b.2, ControlFlow.expand r s n = expand r s.sites s.frame n) :
    ControlFlow.expandBranches r s l bs = expandBranches r s.sites s.frame l bs := by
  induction bs with
  | nil => rfl
  | cons b bs ih =>
    rw [List.forall_mem_cons] at h
    rw [ControlFlow.expandBranches, expandBranches, ControlFlow.holds_frame,
      expandAll_of_each h.1, ih h.2]

theorem expand_eq (r : Resolver) (s : Scope) (n : Node) :
    ControlFlow.expand r s n = expand r s.sites s.frame n := by
  induction n generalizing s with
  | loop item source body d l ih =>
    rw [ControlFlow.expand, expand, ControlFlow.collection_frame]
    cases ControlFlow.collection s source d with
    | error e => rfl
    | ok items =>
      -- the scope of an iteration has the usage sites of the scope around the loop
      simp only [← Scope.map_frame_iterations, List.map_map]
      congr 1
      apply List.map_congr_left
      intro g hg
      rw [Function.comp, ← Scope.sites_iterations hg]
      exact expandAll_of_each fun n hn => ih n hn g
  | conditional branches alternate d l ihb iha =>
    have hb := @expandBranches_of_each r s l branches fun b hb n hn => ihb b hb n hn s
    cases alternate with
    | none =>
      rw [ControlFlow.expand, hb]
      rfl
    | some ns =>
      rw [ControlFlow.expand, hb, expandAll_of_each fun n hn => iha ns rfl n hn s]
      rfl
  | isolated component bindings children l ih =>
    rw [ControlFlow.expand, expand, ControlFlow.boundProp_frame]
    congr 1
    funext props
    rw [Scope.instanceFrame_eq, expandAll_of_each fun n hn => ih n hn _, Scope.data_frame]
    rfl
  | callerScope children ih =>
    rw [ControlFlow.expand, expandAll_of_each fun n hn => ih n hn _]
    -- the caller of a scope is the first of its sites, and the other sites are those of the caller
    cases hc : s.caller? with
    | none => rw [Option.getD_none, Scope.sites_of_none hc, expand]
    | some c => rw [Option.getD_some, Scope.sites_of_some hc, expand]
  | expression code raw l =>
    cases hp : Expr.parse code with
    | error e => simp [ControlFlow.expand, expand, hp]
    | ok e =>
      simp [ControlFlow.expand, expand, hp, Scope.get?_frame, ControlFlow.isLocalTo_frame]
  | element tag as children closing l ih =>
    rw [ControlFlow.expand, expand, ControlFlow.bindingsIn_frame,
      expandAll_of_each fun n hn => ih n hn s]
  | component name as children l ih =>
    rw [ControlFlow.expand, expand, expandAll_of_each fun n hn => ih n hn s]
  | slot name fallback l ih =>
    rw [ControlFlow.expand, expand, expandAll_of_each fun n hn => ih n hn s]
  | island strategy script children l ih =>
    rw [ControlFlow.expand, expand, expandAll_of_each fun n hn => ih n hn s]
  | text s l => rfl
  | comment s l => rfl
  | doctype s l => rfl
  | error problem message l => rfl

end Lexical

end PageCompiler
