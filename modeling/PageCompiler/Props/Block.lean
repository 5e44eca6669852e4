import PageCompiler.Expr.Parse
import PageCompiler.Text.Word
import PageCompiler.Template

/-!
The declarations of a component's props: a name, a type and maybe a default on each line.
-/

namespace PageCompiler

structure PropDefinition where
  name : String
  type : PropType
  default : Option Json.Value
  optional : Bool

/-- A prop has to be given if nothing else says what it is. -/
def PropDefinition.isRequired (p : PropDefinition) : Bool := p.default.isNone && !p.optional

namespace Props

structure Declaration where
  name : String
  type : List Char
  default : Option (List Char)

/-- The part of a line that declares something: no comment, no comma or semicolon at its end. -/
def declarationText (line : List Char) : List Char :=
  let code :=
    match Text.cutAt? ['/', '/'] line with
    | some (before, _) => before
    | none => line
  Text.trim (Text.dropEndWhile (fun c => c = ',' || c = ';') (Text.trim code))

/-- Reads `name: type` or `name: type = default`. The type goes on to the first equals sign and
is at least one character long, as is the default. -/
def readDeclaration? (line : List Char) : Option Declaration := do
  let (name, rest) ← Text.identifier? line
  match Text.trimStart rest with
  | ':' :: rest =>
    let type := rest.takeWhile (· != '=')
    if type.isEmpty then none
    else
      match rest.drop type.length with
      | [] => some ⟨.ofList name, Text.trim type, none⟩
      | [_] => none
      | _ :: value => some ⟨.ofList name, Text.trim type, some (Text.trim value)⟩
  | _ => none

/-- A default is a literal, or else plain text. -/
def readDefault (type : PropType) (text : List Char) : Except Mismatch Json.Value :=
  let text := String.ofList text
  match Expr.parseLiteral? text with
  | some (.string s) => type.ofText s
  | some value => type.ofValue value
  | none => type.ofText text

/-- The default of a declared prop, where `None` stands for nothing in an optional one. -/
def defaultOf (type : PropType) (optional : Bool) :
    Option (List Char) → Except Mismatch (Option Json.Value)
  | none => .ok none
  | some text =>
    if optional && text = "None".toList then .ok (some .null)
    else (readDefault type text).map some

/-- The prop that a line declares behind those of `declared`, or what is wrong with it. -/
def readLine (declared : List PropDefinition) (line : List Char) :
    Except String PropDefinition :=
  match readDeclaration? line with
  | none => .error ("Invalid prop declaration `" ++ .ofList line ++ "`.")
  | some d =>
    match PropType.ofDeclaration? d.type with
    | none =>
      .error ("Unknown type `" ++ .ofList d.type ++ "` for prop `" ++ d.name ++ "`.")
    | some (type, optional) =>
      if declared.any fun p => p.name = d.name then
        .error ("Prop `" ++ d.name ++ "` is declared twice.")
      else
        match defaultOf type optional d.default with
        | .ok default => .ok ⟨d.name, type, default, optional⟩
        | .error m =>
          .error ("Default for `" ++ d.name ++ "` does not match its type: " ++ m.message ++ ".")

/-- The props that the lines declare, the first of them being line `number` of the file. -/
def readLines (file : String) (number : Nat) (declared : List PropDefinition) :
    List (List Char) → Reported (List PropDefinition)
  | [] => return declared
  | line :: lines => do
    let text := declarationText line
    if text.isEmpty then readLines file (number + 1) declared lines
    else
      match readLine declared text with
      | .ok p => readLines file (number + 1) (declared ++ [p]) lines
      | .error message =>
        report ((Diagnostic.error .discovery .invalidPropDeclaration message).placed file
          ⟨number, 1⟩)
        readLines file (number + 1) declared lines

def ofBlock (file : String) (block : PropsBlock) : Reported (List PropDefinition) :=
  readLines file block.location.line [] (Text.lines block.source.toList)

end Props

end PageCompiler
