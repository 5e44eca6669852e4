import PageCompiler.Text.Blank
import PageCompiler.Text.Search
import PageCompiler.Number.Numeral
import PageCompiler.Json.Read
import PageCompiler.Json.Text

/-!
The types of component props, how they are spelled, and how attribute texts and values become
values of a type.
-/

namespace PageCompiler

inductive PropType
  | string
  | bool
  | int
  | float
  | any
  deriving DecidableEq, Repr

inductive Mismatch
  | notBool (text : String)
  | notInteger (text : String)
  | notNumber (text : String)
  | collection
  | otherKind (expected : String) (value : Json.Value)

namespace Text

theorem length_trim_le (cs : List Char) : (trim cs).length ≤ cs.length := by
  have h₁ := length_dropWhile_le isBlank cs
  have h₂ := length_dropWhile_le isBlank (cs.dropWhile isBlank).reverse
  simp only [trim, trimEnd, trimStart, dropEndWhile, List.length_reverse] at *
  omega

end Text

namespace PropType

def name : PropType → String
  | string => "String"
  | bool => "bool"
  | int => "integer"
  | float => "number"
  | any => "any"

def ofName? (declared : String) : Option PropType :=
  match declared with
  | "String" | "string" | "str" | "&str" | "&'static str" => some string
  | "bool" | "boolean" => some bool
  | "i8" | "i16" | "i32" | "i64" | "i128" | "isize" | "u8" | "u16" | "u32" | "u64" | "u128"
  | "usize" | "int" => some int
  | "f32" | "f64" | "float" | "number" => some float
  | "Any" | "Value" | "serde_json::Value" | "Array" | "Object" | "object" => some any
  | other =>
    if Text.startsWith other "Vec<" || Text.startsWith other "HashMap<" then some any else none

/-- The type that a declaration names, and whether it is optional, that is, wrapped. -/
def ofDeclaration? (declared : List Char) : Option (PropType × Bool) :=
  match _h : Text.after? "Option<".toList (Text.trim declared) with
  | some rest =>
    if rest.getLast? = some '>' then
      (ofDeclaration? rest.dropLast).map fun (type, _) => (type, true)
    else (ofName? (.ofList (Text.trim declared))).map fun type => (type, false)
  | none => (ofName? (.ofList (Text.trim declared))).map fun type => (type, false)
termination_by declared.length
decreasing_by
  have := Text.length_of_after? _h
  have := Text.length_trim_le declared
  simp at *
  omega

open Json (Value Number)

/-- The value that attribute text stands for. Text of any type is JSON if it can be. -/
def ofText (type : PropType) (text : String) : Except Mismatch Value :=
  let trimmed := Text.trimmed text
  match type with
  | string => .ok (.string text)
  | bool =>
    if trimmed = "true" then .ok (.bool true)
    else if trimmed = "false" then .ok (.bool false)
    else .error (.notBool trimmed)
  | int =>
    match Number.ofIntegerText? trimmed.toList with
    | some n => .ok (.number (.integer n))
    | none => .error (.notInteger trimmed)
  | float =>
    match Number.ofFloatText? trimmed.toList with
    | some x => .ok (.number (.float x))
    | none => .error (.notNumber trimmed)
  | any => .ok ((Value.read? text).getD (.string text))

def integerOf (n : Number) : Except Mismatch Int :=
  match n with
  | .integer i =>
    if Number.leastInteger ≤ i ∧ i ≤ Number.greatestSigned then .ok i
    else .ok (Double.toInt (Double.ofInt i))
  | .float x =>
    if Double.isWhole x then .ok (Double.toInt x)
    else .error (.notInteger (.ofList (Number.float x).onPage))

/-- An evaluated value as a value of the type. Nothing fits every type, and text is read. -/
def ofValue (type : PropType) (value : Value) : Except Mismatch Value :=
  match type, value with
  | _, .null => .ok .null
  | any, value => .ok value
  | string, value =>
    match value.scalarText? with
    | some text => .ok (.string text)
    | none => .error .collection
  | bool, .bool b => .ok (.bool b)
  | int, .number n => (integerOf n).map fun i => .number (.integer i)
  | float, .number n => .ok (.number n)
  | type, .string text => type.ofText text
  | type, value => .error (.otherKind type.name value)

end PropType

def Mismatch.message : Mismatch → String
  | notBool text => "expected `true` or `false`, got `" ++ text ++ "`"
  | notInteger text => "expected an integer, got `" ++ text ++ "`"
  | notNumber text => "expected a number, got `" ++ text ++ "`"
  | collection => "expected a string, got a collection"
  | otherKind expected value => "expected " ++ expected ++ ", got `" ++ value.text ++ "`"

end PageCompiler
