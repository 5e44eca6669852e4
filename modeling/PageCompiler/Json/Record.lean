import PageCompiler.Json.Read

/-!
Records in JSON: an object with fields by name, or an array with the fields in order. A field may
be given once; fields that are not known are skipped.
-/

namespace PageCompiler.Json

abbrev Fields := List (String × Syntax)

namespace Syntax

def text? : Syntax → Option String
  | string pieces => (decode? pieces).map .ofList
  | _ => none

/-- A text, or `null` for none. -/
def optionalText? : Syntax → Option (Option String)
  | null => some none
  | s => s.text?.map some

def texts? : Syntax → Option (List String)
  | array items => items.mapM text?
  | _ => none

/-- An integer below the bound that is written without point and exponent. -/
def naturalBelow? (bound : Nat) : Syntax → Option Nat
  | number n =>
    match n.number? with
    | some (.integer i) => if 0 ≤ i ∧ i < bound then some i.toNat else none
    | _ => none
  | _ => none

/-- The members whose names are known. Every name has to be a text. -/
def knownMembers? (names : List String) : List (List Piece × Syntax) → Option Fields
  | [] => some []
  | (pieces, value) :: rest => do
    let name := String.ofList (← decode? pieces)
    let fields ← knownMembers? names rest
    if !names.contains name then return fields
    else if fields.any fun (n, _) => n = name then none
    else return (name, value) :: fields

def fields? (names : List String) : Syntax → Option Fields
  | object members => knownMembers? names members
  | array items => if items.length ≤ names.length then some (names.zip items) else none
  | _ => none

end Syntax

namespace Fields

def required? {α : Type} (fields : Fields) (name : String) (read : Syntax → Option α) :
    Option α :=
  (fields.lookup name).bind read

/-- A field that has the value `default` where it is not given. -/
def orElse? {α : Type} (fields : Fields) (name : String) (read : Syntax → Option α)
    (default : α) : Option α :=
  match fields.lookup name with
  | some value => read value
  | none => some default

end Fields

end PageCompiler.Json
