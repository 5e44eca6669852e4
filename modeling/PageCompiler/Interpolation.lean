import PageCompiler.Resolution
import PageCompiler.Island.Statement

/-!
Interpolation: every expression that is left is replaced by its value over the data of the page.
The names that an island declares are its own; expressions with such a name stay, and so does the
code of events.
-/

namespace PageCompiler.Interpolation

open Json (Object)

/-- The names of the islands around a node; there are none outside of islands. -/
abbrev IslandNames := Option (List String)

def isIslandName (own : IslandNames) (name : String) : Bool := (own.getD []).contains name

def isIslandExpression (own : IslandNames) (e : Expr) : Bool := e.roots.any (isIslandName own)

def enter (own : IslandNames) (script : String) : IslandNames :=
  some (Island.declaredNames script ++ own.getD [])

/-- In an island the attributes whose names begin with `on` are left to it. -/
def isEvent (own : IslandNames) (a : Attribute) : Bool :=
  own.isSome && Text.startsWith a.name "on"

def resolveAttributes (r : Resolver) (data : Object) (own : IslandNames) (as : List Attribute) :
    Reported (List Attribute) :=
  .concat (as.map fun a =>
    if isEvent own a then return [a]
    else r.attributes ⟨data.get?, fun e => !isIslandExpression own e⟩ [a])

mutual

def resolve (r : Resolver) (data : Object) (own : IslandNames) : Node → Reported Node
  | .expression code raw l =>
    match Expr.parse code with
    | .error e => r.failHere .invalidExpression (Resolver.invalidText "expression" code e) l
    | .ok e =>
      if isIslandExpression own e then return .expression code raw l
      else r.expression data.get? e code raw l
  | .element tag as children closing l => do
    let as ← resolveAttributes r data own as
    return .element tag as (← resolveAll r data own children) closing l
  | .island strategy script children l =>
    return .island strategy script (← resolveAll r data (enter own script) children) l
  | .component name as children l =>
    return .component name as (← resolveAll r data own children) l
  | .slot name fallback l => return .slot name (← resolveAll r data own fallback) l
  | .loop item source body d l =>
    return .loop item source (← resolveAll r data own body) d l
  | .conditional branches alternate d l => do
    let branches ← resolveBranches r data own branches
    match alternate with
    | some nodes =>
      return .conditional branches (some (← resolveAll r data own nodes)) d l
    | none => return .conditional branches none d l
  | .isolated component bindings children l =>
    return .isolated component bindings (← resolveAll r data own children) l
  | .callerScope children => return .callerScope (← resolveAll r data own children)
  | n => return n
termination_by structural n => n

def resolveAll (r : Resolver) (data : Object) (own : IslandNames) :
    List Node → Reported (List Node)
  | [] => return []
  | n :: ns => do
    let n ← resolve r data own n
    return n :: (← resolveAll r data own ns)
termination_by structural ns => ns

def resolveBranches (r : Resolver) (data : Object) (own : IslandNames) :
    List (String × List Node) → Reported (List (String × List Node))
  | [] => return []
  | (condition, body) :: rest => do
    let body ← resolveAll r data own body
    return (condition, body) :: (← resolveBranches r data own rest)
termination_by structural bs => bs

end

def resolver (mode : Mode) (file : String) : Resolver := ⟨mode, .interpolation, file⟩

def resolveNodes (mode : Mode) (data : Object) (file : String) (nodes : List Node) :
    Reported (List Node) :=
  resolveAll (resolver mode file) data none nodes

def metadata (mode : Mode) (data : Object) (file : String) (value : AttributeValue) :
    Reported String := do
  match ← (resolver mode file).attributeValue? ⟨data.get?, fun _ => true⟩ .unknown value with
  | some (.static text) => return text
  | _ => return ""

end PageCompiler.Interpolation
