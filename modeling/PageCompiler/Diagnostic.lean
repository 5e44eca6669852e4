/-!
Places in a document, and the problems that are reported there. A stage of the compiler never
fails: it goes on and reports.
-/

namespace PageCompiler

/-- Lines and columns count from one; a place of zeros is unknown. -/
structure Location where
  line : Nat
  column : Nat
  deriving DecidableEq, Repr

def Location.unknown : Location := ⟨0, 0⟩

instance : Inhabited Location := ⟨.unknown⟩

inductive Problem
  | structuralDirective
  | missingRequiredProp
  | unknownComponent
  | circularComponentDependency
  | controlFlowSyntax
  | interpolationTargetMissing
  | islandParse
  | invalidPropType
  | nonScalarInterpolation
  | invalidExpression
  | slotNotFound
  | duplicateSlot
  | invalidPropDeclaration
  deriving DecidableEq, Repr

namespace Problem

def code : Problem → String
  | structuralDirective => "NCL001"
  | missingRequiredProp => "NCL002"
  | unknownComponent => "NCL003"
  | circularComponentDependency => "NCL004"
  | controlFlowSyntax => "NCL005"
  | interpolationTargetMissing => "NCL006"
  | islandParse => "NCL007"
  | invalidPropType => "NCL008"
  | nonScalarInterpolation => "NCL009"
  | invalidExpression => "NCL010"
  | slotNotFound => "NCL011"
  | duplicateSlot => "NCL012"
  | invalidPropDeclaration => "NCL013"

def name : Problem → String
  | structuralDirective => "StructuralDirectiveError"
  | missingRequiredProp => "MissingRequiredPropError"
  | unknownComponent => "UnknownComponentError"
  | circularComponentDependency => "CircularComponentDependencyError"
  | controlFlowSyntax => "ControlFlowSyntaxError"
  | interpolationTargetMissing => "InterpolationTargetMissingError"
  | islandParse => "IslandParseError"
  | invalidPropType => "InvalidPropTypeError"
  | nonScalarInterpolation => "NonScalarInterpolationError"
  | invalidExpression => "InvalidExpressionError"
  | slotNotFound => "SlotNotFoundError"
  | duplicateSlot => "DuplicateSlotError"
  | invalidPropDeclaration => "InvalidPropDeclarationError"

def help : Problem → String
  | structuralDirective =>
    "Structural directives (n:view, n:layout, n:props, slots) must be well-formed."
  | missingRequiredProp => "Props declared without a default must be supplied at every usage."
  | unknownComponent =>
    "Every PascalCase tag must match a component file or an <n:component> block."
  | circularComponentDependency =>
    "A component may not render itself, directly or through other components."
  | controlFlowSyntax =>
    "Loops need an item name and a collection; every block needs its closing tag."
  | interpolationTargetMissing =>
    "Interpolated names must exist in the data context or an enclosing scope."
  | islandParse =>
    "Island scripts may only declare Signal(..) and computed(..) values " ++
      "and update them with +=, -= or =."
  | invalidPropType => "Prop values must parse as the declared prop type."
  | nonScalarInterpolation => "Only strings, numbers, booleans and null can be interpolated."
  | invalidExpression =>
    "Expressions support paths, literals, comparisons, logic and a few zero-argument methods."
  | slotNotFound => "Named slot content must target a slot the component declares."
  | duplicateSlot => "Each slot name may appear only once per component."
  | invalidPropDeclaration =>
    "Prop declarations use `name: Type` or `name: Type = default`, one per line."

end Problem

inductive Stage
  | discovery
  | parse
  | normalize
  | components
  | controlFlow
  | interpolation
  | islands
  | assembly
  deriving DecidableEq, Repr

def Stage.name : Stage → String
  | discovery => "discovery"
  | parse => "parse"
  | normalize => "normalize"
  | components => "components"
  | controlFlow => "control-flow"
  | interpolation => "interpolation"
  | islands => "islands"
  | assembly => "assembly"

inductive Severity
  | warning
  | error
  deriving DecidableEq, Repr

structure Diagnostic where
  code : String
  problem : Problem
  stage : Stage
  severity : Severity
  message : String
  file : String
  location : Option Location
  hints : List String
  deriving DecidableEq, Repr

namespace Diagnostic

/-- A new diagnostic has the code and the help of its problem, and no place yet. -/
def new (stage : Stage) (problem : Problem) (severity : Severity) (message : String) : Diagnostic :=
  { code := problem.code, problem, stage, severity, message, file := "", location := none,
    hints := [problem.help] }

def error (stage : Stage) (problem : Problem) (message : String) : Diagnostic :=
  new stage problem .error message

def warning (stage : Stage) (problem : Problem) (message : String) : Diagnostic :=
  new stage problem .warning message

def placed (d : Diagnostic) (file : String) (location : Location) : Diagnostic :=
  { d with file, location := some location }

def inFile (d : Diagnostic) (file : String) : Diagnostic := { d with file }

def withHint (d : Diagnostic) (hint : String) : Diagnostic := { d with hints := d.hints ++ [hint] }

def isError (d : Diagnostic) : Bool := d.severity = .error

/-- File, line and column, or as many of them as are known. -/
def place (d : Diagnostic) : String :=
  match d.location, d.file.isEmpty with
  | some l, false => d.file ++ ":" ++ toString l.line ++ ":" ++ toString l.column
  | some l, true => toString l.line ++ ":" ++ toString l.column
  | none, _ => d.file

def text (d : Diagnostic) : String :=
  "[" ++ d.code ++ "] " ++ d.problem.name ++ " (" ++ d.stage.name ++ "): " ++ d.message ++
    (if d.place.isEmpty then "" else " at " ++ d.place)

end Diagnostic

/-- A result together with what has been reported on the way to it. -/
structure Reported (α : Type u) where
  value : α
  diagnostics : List Diagnostic

namespace Reported

variable {α β : Type u}

protected def pure (a : α) : Reported α := ⟨a, []⟩

protected def bind (r : Reported α) (f : α → Reported β) : Reported β :=
  let s := f r.value
  ⟨s.value, r.diagnostics ++ s.diagnostics⟩

instance : Monad Reported where
  pure := Reported.pure
  bind := Reported.bind

/-- The results of all, reported one after the other. -/
def all (rs : List (Reported α)) : Reported (List α) :=
  ⟨rs.map value, rs.flatMap diagnostics⟩

def concat (rs : List (Reported (List α))) : Reported (List α) :=
  ⟨rs.flatMap value, rs.flatMap diagnostics⟩

end Reported

def report (d : Diagnostic) : Reported PUnit := ⟨⟨⟩, [d]⟩

end PageCompiler
