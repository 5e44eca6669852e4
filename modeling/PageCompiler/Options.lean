import PageCompiler.Json.Record
import PageCompiler.Resolution

/-!
The options of a compiler, and how they are written in JSON.
-/

namespace PageCompiler

structure Options where
  mode : Mode
  /-- The path of the page; without it the first page is taken. -/
  entry : Option String
  maxComponentDepth : Nat
  stylesheets : List String
  scripts : List String
  lang : String
  defaultTitle : String
  deriving DecidableEq, Repr

namespace Options

open Json (Syntax)

protected def default : Options :=
  { mode := .lenient, entry := none, maxComponentDepth := 32, stylesheets := [], scripts := [],
    lang := "en", defaultTitle := "Untitled" }

instance : Inhabited Options := ⟨Options.default⟩

def fieldNames : List String :=
  ["mode", "entry", "maxComponentDepth", "stylesheets", "scripts", "lang", "defaultTitle"]

def modeNamed? : String → Option Mode
  | "lenient" => some .lenient
  | "strict" => some .strict
  | _ => none

/-- The name of a mode, or an object in which it has the value `null`. -/
def mode? : Syntax → Option Mode
  | .object [(pieces, .null)] => (Json.decode? pieces).bind fun name => modeNamed? (.ofList name)
  | s => s.text?.bind modeNamed?

def ofSyntax? (s : Syntax) : Option Options := do
  let fields ← s.fields? fieldNames
  let d := Options.default
  return {
    mode := ← fields.orElse? "mode" mode? d.mode
    entry := ← fields.orElse? "entry" Syntax.optionalText? d.entry
    maxComponentDepth :=
      ← fields.orElse? "maxComponentDepth" (Syntax.naturalBelow? 0x100000000) d.maxComponentDepth
    stylesheets := ← fields.orElse? "stylesheets" Syntax.texts? d.stylesheets
    scripts := ← fields.orElse? "scripts" Syntax.texts? d.scripts
    lang := ← fields.orElse? "lang" Syntax.text? d.lang
    defaultTitle := ← fields.orElse? "defaultTitle" Syntax.text? d.defaultTitle }

/-- A blank text stands for the defaults. -/
def read? (json : String) : Option Options :=
  if Text.isAllBlank json then some .default else (Syntax.read? json).bind ofSyntax?

end Options

end PageCompiler
