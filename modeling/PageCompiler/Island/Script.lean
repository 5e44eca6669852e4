import PageCompiler.Island.Statement
import PageCompiler.Island.Formula.Parse

/-!
Scripts of islands. A script that can be read declares each name once, and a computed value
depends on a name that is declared in front of it.
-/

namespace PageCompiler.Island

open Json (Value)

structure State where
  name : String
  initial : Value

structure Computed where
  name : String
  dependency : String
  parameter : String
  formula : Formula
  /-- The value that follows from the initial value of the dependency. -/
  initial : Value

structure Script where
  states : List State
  computed : List Computed

inductive ScriptError
  | declaredTwice (name : String)
  | badInitialValue (name : String)
  | undeclaredDependency (name dependency : String)
  | badFormula (name : String) (error : Formula.ParseError)
  | unsupportedStatement (statement : String)
  deriving DecidableEq, Repr

def ScriptError.message : ScriptError → String
  | declaredTwice name => "`" ++ name ++ "` is declared more than once"
  | badInitialValue name =>
    "initial value of `" ++ name ++ "` must be a string, number, boolean or null literal"
  | undeclaredDependency name dependency =>
    "`" ++ name ++ "` depends on `" ++ dependency ++ "`, which is not declared before it"
  | badFormula name error => "derived value `" ++ name ++ "`: " ++ error.message
  | unsupportedStatement statement => "unsupported statement `" ++ statement ++ "`"

namespace Script

def empty : Script := ⟨[], []⟩

def state? (s : Script) (name : String) : Option State := s.states.find? fun e => e.name = name

def computed? (s : Script) (name : String) : Option Computed :=
  s.computed.find? fun e => e.name = name

def initial? (s : Script) (name : String) : Option Value :=
  ((s.state? name).map State.initial).or ((s.computed? name).map Computed.initial)

def names (s : Script) : List String := s.states.map State.name ++ s.computed.map Computed.name

def addState (name initial : String) (s : Script) : Except ScriptError Script :=
  match scalar? initial with
  | some value => .ok { s with states := s.states ++ [⟨name, value⟩] }
  | none => .error (.badInitialValue name)

def addComputed (name dependency parameter body : String) (s : Script) :
    Except ScriptError Script :=
  match s.initial? dependency with
  | none => .error (.undeclaredDependency name dependency)
  | some start =>
    match Formula.parse body parameter with
    | .error e => .error (.badFormula name e)
    | .ok formula =>
      let initial := formula.evaluate start
      .ok { s with computed := s.computed ++ [⟨name, dependency, parameter, formula, initial⟩] }

end Script

/-- What has been read of a script. Names count as declared even if their declaration is wrong. -/
structure Reading where
  script : Script
  names : List String
  errors : List ScriptError

namespace Reading

def fail (r : Reading) (e : ScriptError) : Reading := { r with errors := r.errors ++ [e] }

/-- Declares a name, which has to be a new one. -/
def declare (r : Reading) (name : String) (add : Script → Except ScriptError Script) : Reading :=
  if r.names.contains name then r.fail (.declaredTwice name)
  else
    let r := { r with names := r.names ++ [name] }
    match add r.script with
    | .ok script => { r with script }
    | .error e => r.fail e

def step (r : Reading) (statement : List Char) : Reading :=
  match Declaration.read? statement with
  | some (.state name initial) => r.declare name (Script.addState name initial)
  | some (.computed name dependency parameter body) =>
    r.declare name (Script.addComputed name dependency parameter body)
  | none => r.fail (.unsupportedStatement (.ofList statement))

end Reading

def Script.parse (source : String) : Except (List ScriptError) Script :=
  let r := (statements source).foldl Reading.step ⟨.empty, [], []⟩
  if r.errors.isEmpty then .ok r.script else .error r.errors

end PageCompiler.Island
