import PageCompiler.Diagnostic
import PageCompiler.Expr.Parse
import PageCompiler.Markup.Render

/-!
Replacing expressions by the text of their values. The text is escaped, so that it cannot add
markup. What happens to a name that is bound nowhere depends on the mode.
-/

namespace PageCompiler

open Json (Value)

inductive Mode
  | strict
  /-- What cannot be resolved stays on the page as it was written. -/
  | lenient
  deriving DecidableEq, Repr

structure Resolver where
  mode : Mode
  stage : Stage
  file : String

def Unresolved.problemText (u : Unresolved) : String :=
  u.message ++ " in the data context."

namespace Resolver

def fail (r : Resolver) (problem : Problem) (message : String) (l : Location) : Reported PUnit :=
  report ((Diagnostic.error r.stage problem message).placed r.file l)

def failHere (r : Resolver) (problem : Problem) (message : String) (l : Location) :
    Reported Node := do
  r.fail problem message l
  return .error problem message l

/-- A name that is bound nowhere is an error in strict mode only. -/
def reportUnresolved (r : Resolver) (u : Unresolved) (l : Location) : Reported PUnit :=
  match r.mode with
  | .strict => r.fail .interpolationTargetMissing u.problemText l
  | .lenient =>
    report (((Diagnostic.warning r.stage .interpolationTargetMissing u.problemText).placed r.file
      l).withHint "Strict mode rejects unresolved interpolations.")

def nonScalarText (code : String) (v : Value) : String :=
  let kind :=
    match v with
    | .array _ => "an array"
    | _ => "an object"
  "`" ++ Text.trimmed code ++ "` evaluates to " ++ kind ++
    "; only scalar values can be interpolated."

def invalidText (what code : String) (e : Expr.ParseError) : String :=
  "Invalid " ++ what ++ " `" ++ Text.trimmed code ++ "`: " ++ e.message ++ "."

def expression (r : Resolver) (lookup : String → Option Value) (e : Expr) (code raw : String)
    (l : Location) : Reported Node :=
  match e.evaluate lookup with
  | .ok v =>
    match v.scalarText? with
    | some text => return .text (Text.escapeHtml text) l
    | none => r.failHere .nonScalarInterpolation (nonScalarText code v) l
  | .error u =>
    match r.mode with
    | .strict => r.failHere .interpolationTargetMissing u.problemText l
    | .lenient => do
      r.reportUnresolved u l
      return .text (Text.escapeHtml raw) l

/-- The text of a value in an attribute; a collection has none, and is reported. -/
def valueText (r : Resolver) (code : String) (v : Value) (l : Location) : Reported String :=
  match v.scalarText? with
  | some text => return Text.escapeHtml text
  | none => do
    r.fail .nonScalarInterpolation (nonScalarText code v) l
    return ""

/-- What stands in an attribute for an expression with a name that is bound nowhere. -/
def unresolvedText (r : Resolver) (code : String) (u : Unresolved) (l : Location) :
    Reported String := do
  r.reportUnresolved u l
  match r.mode with
  | .strict => return ""
  | .lenient => return Markup.bracedCode code

/-- Which expressions are due, and what their names mean. -/
structure Bindings where
  lookup : String → Option Value
  isDue : Expr → Bool

inductive Resolved
  /-- It is left for later. -/
  | kept
  | invalid (e : Expr.ParseError)
  | unresolved (u : Unresolved)
  | value (v : Value)

/-- Only the last stage reports code that is no expression. -/
def resolve (r : Resolver) (b : Bindings) (code : String) : Resolved :=
  match Expr.parse code with
  | .error e => if r.stage = .interpolation then .invalid e else .kept
  | .ok e =>
    if b.isDue e then
      match e.evaluate b.lookup with
      | .ok v => .value v
      | .error u => .unresolved u
    else .kept

/-- A part of an attribute's text, with its expression replaced if that is due. -/
def part (r : Resolver) (b : Bindings) (l : Location) : Part → Reported Part
  | .text text => return .text text
  | .expression code =>
    match r.resolve b code with
    | .kept => return .expression code
    | .invalid e => do
      r.fail .invalidExpression (invalidText "expression" code e) l
      return .text ""
    | .unresolved u => return .text (← r.unresolvedText code u l)
    | .value v => return .text (← r.valueText code v l)

def joinTexts : List Part → List Part
  | [] => []
  | .text t :: ps =>
    match joinTexts ps with
    | .text u :: rest => .text (t ++ u) :: rest
    | joined => .text t :: joined
  | p :: ps => p :: joinTexts ps

/-- Parts as a value, which is static if no expression is left. -/
def ofParts (parts : List Part) : AttributeValue :=
  match joinTexts parts with
  | [] => .static ""
  | [.text t] => .static t
  | joined => .interpolated joined

/-- The value of an attribute with the expressions replaced that are due. A value that is false or
null takes the attribute away, and a true one leaves its bare name. -/
def attributeValue? (r : Resolver) (b : Bindings) (l : Location) :
    AttributeValue → Reported (Option AttributeValue)
  | .interpolated parts => return some (ofParts (← Reported.all (parts.map (r.part b l))))
  | .expression code =>
    match r.resolve b code with
    | .kept => return some (.expression code)
    | .invalid e => do
      r.fail .invalidExpression (invalidText "expression" code e) l
      return some (.static "")
    | .unresolved u => return some (.static (← r.unresolvedText code u l))
    | .value (.bool false) => return none
    | .value .null => return none
    | .value (.bool true) => return some .bare
    | .value v => return some (.static (← r.valueText code v l))
  | value => return some value

/-- The attributes of an element in order, without those that go. -/
def attributes (r : Resolver) (b : Bindings) (as : List Attribute) : Reported (List Attribute) :=
  .concat (as.map fun a => do
    let value ← r.attributeValue? b a.location a.value
    return value.toList.map fun value => { a with value })

end Resolver

end PageCompiler
