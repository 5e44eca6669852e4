import PageCompiler.Diagnostic
import PageCompiler.Island.Module
import PageCompiler.Markup.Tag
import PageCompiler.Text.Html

/-!
Extraction of islands. Each island becomes an element that carries its markers, and a module: bound
names become elements with their initial text, and event attributes become the ids of actions. An
island with an error becomes an error block and has no module.
-/

namespace PageCompiler.Island

open Json (Value)

inductive BindingError
  | script (e : ScriptError)
  | mutation (e : MutationError)
  | notBound (code : String)
  | dynamicAttribute (name : String)
  | eventWithoutCode (name : String)
  | computedTarget (name : String)
  | unknownTarget (name : String)
  | nestedIsland

def BindingError.message : BindingError → String
  | script e => e.message
  | mutation e => e.message
  | notBound code => "only a bare state or derived name can be bound, found `" ++ code ++ "`"
  | dynamicAttribute name => "attribute `" ++ name ++ "` cannot bind island state"
  | eventWithoutCode name => "event attribute `" ++ name ++ "` needs an expression"
  | computedTarget name => "derived value `" ++ name ++ "` cannot be mutated"
  | unknownTarget name => "`" ++ name ++ "` is not a declared state"
  | nestedIsland => "islands cannot be nested"

structure Content where
  id : String
  script : Script
  actions : List Action
  errors : List (BindingError × Location)

namespace Content

abbrev Bind := StateM Content

def fail (e : BindingError) (l : Location) : Bind PUnit :=
  modify fun c => { c with errors := c.errors ++ [(e, l)] }

def event? (name : String) : Option String :=
  match name.toList with
  | o :: n :: c :: rest =>
    if o.toLower = 'o' && n.toLower = 'n' then some (.ofList ((c :: rest).map Char.toLower))
    else none
  | _ => none

def eventCode? : AttributeValue → Option String
  | .static text => some (Text.unescapeHtml text)
  | .expression code => some code
  | _ => none

/-- The mutation that an event attribute asks for; its target has to be a state. -/
def mutation? (s : Script) (name : String) (value : AttributeValue) :
    Except BindingError Mutation :=
  match eventCode? value with
  | none => .error (.eventWithoutCode name)
  | some code =>
    match Mutation.parse code with
    | .error e => .error (.mutation e)
    | .ok m =>
      if (s.computed? m.target).isSome then .error (.computedTarget m.target)
      else if (s.state? m.target).isSome then .ok m
      else .error (.unknownTarget m.target)

/-- Adds an action; the actions of an island are numbered in order. -/
def act (event : String) (m : Mutation) : Bind String :=
  modifyGet fun c =>
    let id := c.id ++ "a" ++ toString c.actions.length
    (id, { c with actions := c.actions ++ [⟨id, event, m⟩] })

def bindAttribute (a : Attribute) : Bind (List Attribute × List String) := do
  match event? a.name with
  | none =>
    match a.value with
    | .static _ => return ([a], [])
    | .bare => return ([a], [])
    | _ => do
      fail (.dynamicAttribute a.name) a.location
      return ([a], [])
  | some event =>
    match mutation? (← get).script a.name a.value with
    | .ok m => return ([], [← act event m])
    | .error e => do
      fail e a.location
      return ([], [])

def bindAttributes : List Attribute → Bind (List Attribute × List String)
  | [] => return ([], [])
  | a :: as => do
    let (kept, ids) ← bindAttribute a
    let (moreKept, moreIds) ← bindAttributes as
    return (kept ++ moreKept, ids ++ moreIds)

def marker (name : String) (initial : Value) (l : Location) : Node :=
  .element "span" [.new "data-ncl-bind" (.static name)]
    [.text (Text.escapeHtml (displayText initial)) l] false l

mutual

def bindNode : Node → Bind Node
  | .expression code raw l => do
    let name := Text.trimmed code
    match (← get).script.initial? name with
    | some initial => return marker name initial l
    | none =>
      fail (.notBound name) l
      return .expression code raw l
  | .element tag as children closing l => do
    let (kept, ids) ← bindAttributes as
    let marks :=
      if ids.isEmpty then [] else [.new "data-ncl-action" (.static (Text.join " " ids))]
    return .element tag (kept ++ marks) (← bindAll children) closing l
  | .island strategy script children l => do
    fail .nestedIsland l
    return .island strategy script children l
  | .component name as children l => return .component name as (← bindAll children) l
  | .slot name fallback l => return .slot name (← bindAll fallback) l
  | .loop item source body d l => return .loop item source (← bindAll body) d l
  | .conditional branches alternate d l => do
    let branches ← bindBranches branches
    match alternate with
    | some nodes => return .conditional branches (some (← bindAll nodes)) d l
    | none => return .conditional branches none d l
  | .isolated component bindings children l =>
    return .isolated component bindings (← bindAll children) l
  | .callerScope children => return .callerScope (← bindAll children)
  | n => return n
termination_by structural n => n

def bindAll : List Node → Bind (List Node)
  | [] => return []
  | n :: ns => do
    let n ← bindNode n
    return n :: (← bindAll ns)
termination_by structural ns => ns

def bindBranches : List (String × List Node) → Bind (List (String × List Node))
  | [] => return []
  | (condition, body) :: rest => do
    let body ← bindAll body
    return (condition, body) :: (← bindBranches rest)
termination_by structural bs => bs

end

end Content

def wrapper (id : String) (strategy : Strategy) (children : List Node) (l : Location) : Node :=
  let marks :=
    [.new "data-ncl-island" (.static id), .new "data-ncl-hydrate" (.static strategy.name)]
  let media := strategy.query?.toList.map fun query => .new "data-ncl-media" (.static query)
  .element "div" (marks ++ media) children false l

/-- The node that an island becomes and its module, or its errors. -/
def bind (id : String) (strategy : Strategy) (script : String) (children : List Node)
    (l : Location) : Except (List (BindingError × Location)) (Node × Module) :=
  match Script.parse script with
  | .error errors => .error (errors.map fun e => (.script e, l))
  | .ok script =>
    let (children, c) := (Content.bindAll children).run ⟨id, script, [], []⟩
    if c.errors.isEmpty then
      .ok (wrapper id strategy children l, ⟨id, strategy, script, c.actions⟩)
    else .error c.errors

/-- The extraction of a document: how many islands have been seen, what has been reported, and the
modules of those that are well. -/
structure Extraction where
  count : Nat
  modules : List Module
  diagnostics : List Diagnostic

namespace Extraction

abbrev Extract := StateM Extraction

/-- Islands are numbered in the order of the document, whether or not they are well. -/
def number : Extract String :=
  modifyGet fun e => ("i" ++ toString e.count, { e with count := e.count + 1 })

def extractIsland (file : String) (strategy : Strategy) (script : String)
    (children : List Node) (l : Location) : Extract Node := do
  let id ← number
  match Island.bind id strategy script children l with
  | .ok (node, m) => do
    modify fun e => { e with modules := e.modules ++ [m] }
    return node
  | .error errors => do
    let problem : BindingError × Location → Diagnostic := fun (e, l) =>
      (Diagnostic.error .islands .islandParse ("Island " ++ id ++ ": " ++ e.message ++ ".")).placed
        file l
    modify fun e => { e with diagnostics := e.diagnostics ++ errors.map problem }
    return .error .islandParse (Text.join "; " (errors.map fun (e, _) => e.message)) l

mutual

def extract (file : String) : Node → Extract Node
  | .island strategy script children l => extractIsland file strategy script children l
  | .element tag as children closing l =>
    return .element tag as (← extractAll file children) closing l
  | .component name as children l => return .component name as (← extractAll file children) l
  | .slot name fallback l => return .slot name (← extractAll file fallback) l
  | .loop item source body d l => return .loop item source (← extractAll file body) d l
  | .conditional branches alternate d l => do
    let branches ← extractBranches file branches
    match alternate with
    | some nodes => return .conditional branches (some (← extractAll file nodes)) d l
    | none => return .conditional branches none d l
  | .isolated component bindings children l =>
    return .isolated component bindings (← extractAll file children) l
  | .callerScope children => return .callerScope (← extractAll file children)
  | n => return n
termination_by structural n => n

def extractAll (file : String) : List Node → Extract (List Node)
  | [] => return []
  | n :: ns => do
    let n ← extract file n
    return n :: (← extractAll file ns)
termination_by structural ns => ns

def extractBranches (file : String) :
    List (String × List Node) → Extract (List (String × List Node))
  | [] => return []
  | (condition, body) :: rest => do
    let body ← extractAll file body
    return (condition, body) :: (← extractBranches file rest)
termination_by structural bs => bs

end

end Extraction

structure Extracted where
  nodes : List Node
  modules : List Module
  diagnostics : List Diagnostic

def extractIslands (file : String) (nodes : List Node) : Extracted :=
  let (nodes, e) := (Extraction.extractAll file nodes).run ⟨0, [], []⟩
  ⟨nodes, e.modules, e.diagnostics⟩

end PageCompiler.Island
