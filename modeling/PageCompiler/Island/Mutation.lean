import PageCompiler.Island.Statement
import PageCompiler.Json.Text

/-!
Mutations: what an event does to a state. They are written as a call of `update` with a closure,
or as a call of `set`.
-/

namespace PageCompiler.Island

open Json (Value)

inductive Change
  | assign
  | increment
  | decrement
  deriving DecidableEq, Repr

namespace Change

def symbol : Change → String
  | assign => "="
  | increment => "+="
  | decrement => "-="

def apply (change : Change) (current operand : Value) : Value :=
  match change with
  | assign => operand
  | increment => Arithmetic.add.apply current operand
  | decrement => Arithmetic.sub.apply current operand

def read? : List Char → Option (Change × List Char)
  | '+' :: '=' :: cs => some (increment, cs)
  | '-' :: '=' :: cs => some (decrement, cs)
  | '=' :: cs => some (assign, cs)
  | _ => none

end Change

structure Mutation where
  target : String
  change : Change
  operand : Value

inductive MutationError
  | otherParameter (name : String)
  | noLiteral (operand : String)
  | noAddend (operand : Value)
  | unsupported (code : String)

def MutationError.message : MutationError → String
  | otherParameter name => "the update closure must mutate its parameter `" ++ name ++ "`"
  | noLiteral operand => "`" ++ operand ++ "` is not a literal"
  | noAddend operand => "`" ++ operand.text ++ "` cannot be added or subtracted"
  | unsupported code => "unsupported event expression `" ++ code ++ "`"

namespace Mutation

def apply (m : Mutation) (current : Value) : Value := m.change.apply current m.operand

def text (m : Mutation) : String :=
  m.target ++ ":" ++ m.change.symbol ++ ":" ++ m.operand.text

/-- The operand in front of the closing parenthesis: it stands on one line. A blank one is an
operand too, unless it is made of line feeds only. -/
def operand? (cs : List Char) : Option (List Char) :=
  (beforeCloseParen? cs).bind fun inside =>
    let operand := Text.trim inside
    if operand.contains '\n' || inside.all (· = '\n') then none else some operand

structure UpdateCall where
  target : List Char
  parameter : List Char
  mutated : List Char
  change : Change
  operand : List Char

def updateCall? (code : List Char) : Option UpdateCall := do
  let (target, cs) ← Text.identifier? code
  let (parameter, cs) ← Declaration.parameter? (← Text.after? ".update(".toList cs)
  let cs :=
    match Text.trimStart cs with
    | '*' :: cs => Text.trimStart cs
    | cs => cs
  let (mutated, cs) ← Text.identifier? cs
  let (change, cs) ← Change.read? (Text.trimStart cs)
  return ⟨target, parameter, mutated, change, ← operand? cs⟩

def setCall? (code : List Char) : Option (List Char × List Char) := do
  let (target, cs) ← Text.identifier? code
  return (target, ← operand? (← Text.after? ".set(".toList cs))

def isAddend : Value → Bool
  | .number _ => true
  | .string _ => true
  | _ => false

def ofParts (target : List Char) (change : Change) (operand : List Char) :
    Except MutationError Mutation :=
  match scalar? (.ofList operand) with
  | none => .error (.noLiteral (.ofList operand))
  | some value =>
    if change = .assign || isAddend value then .ok ⟨.ofList target, change, value⟩
    else .error (.noAddend value)

/-- Reads the code of an event attribute; semicolons may follow it. -/
def parse (code : String) : Except MutationError Mutation :=
  let code := Text.trim (Text.dropEndWhile (· = ';') (Text.trim code.toList))
  match updateCall? code, setCall? code with
  | some call, _ =>
    if call.parameter = call.mutated then ofParts call.target call.change call.operand
    else .error (.otherParameter (.ofList call.parameter))
  | none, some (target, operand) => ofParts target .assign operand
  | none, none => .error (.unsupported (.ofList code))

end Mutation

end PageCompiler.Island
