import PageCompiler.Island.Browser
import PageCompiler.Island.Module

/-!
The script that hydrates the islands of a page: one registration for each module. Formulas are
written as calls of the operations that the script brings along.
-/

namespace PageCompiler.Island

open Json (Value Object)

def Arithmetic.name : Arithmetic → String
  | add => "add"
  | sub => "sub"
  | mul => "mul"
  | div => "div"
  | rem => "rem"

def Operator.name : Operator → String
  | arithmetic op => op.name
  | compare .eq => "eq"
  | compare .ne => "ne"
  | compare .lt => "lt"
  | compare .le => "le"
  | compare .gt => "gt"
  | compare .ge => "ge"
  | and => "and"
  | or => "or"

def Formula.code : Formula → String
  | parameter => "v"
  | literal value => value.text
  | negated operand => "R.neg(" ++ operand.code ++ ")"
  | not operand => "!R.truthy(" ++ operand.code ++ ")"
  | binary op left right =>
    "R.op(\"" ++ op.name ++ "\", " ++ left.code ++ ", " ++ right.code ++ ")"

def quotedText (s : String) : String := (Value.string s).text

def Computed.code (c : Computed) : String :=
  "\x7b name: " ++ quotedText c.name ++ ", dependency: " ++ quotedText c.dependency ++
    ", compute: function (v) \x7b return " ++ c.formula.code ++ "; \x7d \x7d"

def Change.name : Change → String
  | assign => "assign"
  | increment => "increment"
  | decrement => "decrement"

def Action.member (a : Action) : String × Value :=
  (a.id, .object [("event", .string a.event), ("op", .string a.mutation.change.name),
    ("operand", a.mutation.operand), ("target", .string a.mutation.target)])

namespace Module

def registration (m : Module) : String :=
  let media : Value :=
    match m.strategy.query? with
    | some query => .string query
    | none => .null
  let states : Value := .object (Object.ofList (m.script.states.map fun s => (s.name, s.initial)))
  let actions : Value := .object (Object.ofList (m.actions.map Action.member))
  "  nclRegister(\x7b\n    id: " ++ quotedText m.id ++
    ",\n    strategy: " ++ quotedText m.strategy.name ++
    ",\n    media: " ++ media.text ++
    ",\n    state: " ++ states.text ++
    ",\n    derived: [" ++ Text.join ",\n      " (m.script.computed.map Computed.code) ++
    "],\n    actions: " ++ actions.text ++ "\n  \x7d);\n"

end Module

/-- A page without islands needs no script. -/
def hydrationScript (modules : List Module) : String :=
  if modules.isEmpty then ""
  else
    Browser.opening ++ "\n" ++ String.join (modules.map Module.registration) ++ Browser.closing

end PageCompiler.Island
