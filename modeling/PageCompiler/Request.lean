import PageCompiler.Compile

/-!
Requests to compile in JSON: the documents, the data and the options, each as a text of its own.
-/

namespace PageCompiler

open Json (Syntax Object Value)

def Document.fieldNames : List String := ["path", "markup", "stylesheet", "script"]

def Document.ofSyntax? (s : Syntax) : Option Document := do
  let fields ← s.fields? fieldNames
  let path ← fields.required? "path" Syntax.text?
  let markup ← fields.required? "markup" Syntax.text?
  let stylesheet ← fields.orElse? "stylesheet" Syntax.optionalText? none
  let script ← fields.orElse? "script" Syntax.optionalText? none
  return ⟨path, markup, stylesheet, script⟩

def Document.readAll? (json : String) : Option (List Document) := do
  match ← Syntax.read? json with
  | .array items => items.mapM ofSyntax?
  | _ => none

def dataOf? : Value → Option Object
  | .object members => some members
  | .null => some []
  | _ => none

/-- Blank text stands for no data. -/
def readData (json : String) : Except CompileError Object :=
  if Text.isAllBlank json then .ok []
  else
    match Value.read? json with
    | none => .error .badData
    | some v =>
      match dataOf? v with
      | some data => .ok data
      | none => .error .dataNotObject

def orFail {α : Type} (e : CompileError) : Option α → Except CompileError α
  | some a => .ok a
  | none => .error e

/-- Of several wrong texts the first counts. -/
def compileJson (documents data options : String) : Compiler.Result := do
  let documents ← orFail .badDocuments (Document.readAll? documents)
  let data ← readData data
  let options ← orFail .badOptions (Options.read? options)
  compile options documents data

end PageCompiler
