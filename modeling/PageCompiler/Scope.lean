import PageCompiler.Json.Value

/-!
Scopes. At the bottom lies the data of the page. A loop iteration opens a child frame, which sees
all that its parent sees; a component instance opens an isolated frame, which sees its own names
and the page's data only, and remembers the frame that it was used in.
-/

namespace PageCompiler

open Json (Value Object)

inductive Scope
  | root (data : Object) (locals : List (String × Value))
  | child (parent : Scope) (locals : List (String × Value))
  | isolated (caller : Scope) (locals : List (String × Value))

namespace Scope

def ofData (data : Object) : Scope := root data []

def openChild (s : Scope) : Scope := child s []

def openIsolated (s : Scope) : Scope := isolated s []

/-- Binds a name in the innermost frame; it hides what the name meant before. -/
def bind (name : String) (value : Value) : Scope → Scope
  | root data locals => root data ((name, value) :: locals)
  | child parent locals => child parent ((name, value) :: locals)
  | isolated caller locals => isolated caller ((name, value) :: locals)

def data : Scope → Object
  | root data _ => data
  | child parent _ => parent.data
  | isolated caller _ => caller.data

/-- The value bound to a name in a frame that is visible, the page's data left aside. -/
def local? (name : String) : Scope → Option Value
  | root _ locals => locals.lookup name
  | child parent locals => (locals.lookup name).or (parent.local? name)
  | isolated _ locals => locals.lookup name

def isLocal (s : Scope) (name : String) : Bool := (s.local? name).isSome

def get? (s : Scope) (name : String) : Option Value := (s.local? name).or (s.data.get? name)

/-- The frame in which the surrounding component instance is used. -/
def caller? : Scope → Option Scope
  | root .. => none
  | child parent _ => parent.caller?
  | isolated caller _ => some caller

end Scope

end PageCompiler
