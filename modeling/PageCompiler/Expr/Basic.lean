import PageCompiler.Text.Blank
import PageCompiler.Text.Case
import PageCompiler.Json.Value

/-!
Template expressions: paths into the data, literals, comparisons, boolean logic and a few methods
without arguments. Their value depends on the names in scope only.
-/

namespace PageCompiler

inductive Comparison
  | eq
  | ne
  | lt
  | le
  | gt
  | ge
  deriving DecidableEq, Repr

inductive Method
  | length
  | isEmpty
  | upper
  | lower
  | trim
  | first
  | last
  deriving DecidableEq, Repr

inductive Expr
  | literal (value : Json.Value)
  | ident (name : String)
  | field (base : Expr) (name : String)
  | index (base : Expr) (position : Expr)
  | call (base : Expr) (method : Method)
  | not (operand : Expr)
  | compare (op : Comparison) (left right : Expr)
  | and (left right : Expr)
  | or (left right : Expr)

structure Unresolved where
  name : String
  deriving DecidableEq, Repr

def Unresolved.message (u : Unresolved) : String := "`" ++ u.name ++ "` is not defined"

def Method.ofName? : String → Option Method
  | "len" | "length" | "count" => some length
  | "is_empty" | "isEmpty" => some isEmpty
  | "to_uppercase" | "toUpperCase" | "upper" => some upper
  | "to_lowercase" | "toLowerCase" | "lower" => some lower
  | "trim" => some trim
  | "first" => some first
  | "last" => some last
  | _ => none

def Comparison.holds {α : Type} [BEq α] [LT α] [LE α] [DecidableLT α] [DecidableLE α]
    (op : Comparison) (left right : α) : Bool :=
  match op with
  | eq => left == right
  | ne => !(left == right)
  | lt => left < right
  | le => left ≤ right
  | gt => right < left
  | ge => right ≤ left

open Json (Value)

/-- Numbers are compared as floating-point numbers, texts by code points; values of other kinds
are equal or not, and never in order. -/
def Comparison.test (op : Comparison) (left right : Value) : Bool :=
  match left, right with
  | .number l, .number r => op.holds l.toDouble r.toDouble
  | .string l, .string r => op.holds l r
  | l, r =>
    match op with
    | eq => l == r
    | ne => !(l == r)
    | _ => false

def countOf (n : Nat) : Value := .number (.integer n)

/-- A member of an object, or the length of a list or text; anything else has no fields. -/
def fieldOf (base : Value) (name : String) : Value :=
  match base with
  | .object members => (Json.Object.get? members name).getD .null
  | .array items => if name = "length" then countOf items.length else .null
  | .string s => if name = "length" then countOf s.length else .null
  | _ => .null

/-- An item of a list by its number or a member of an object by its name. -/
def itemOf (base position : Value) : Value :=
  match base, position with
  | .array items, .number n => (n.index?.bind fun i => items[i]?).getD .null
  | .object _, .string name => fieldOf base name
  | _, _ => .null

namespace Method

def lengthOf : Value → Nat
  | .array items => items.length
  | .string s => s.length
  | .object members => members.length
  | _ => 0

def holdsNothing : Value → Bool
  | .array items => items.isEmpty
  | .string s => s.isEmpty
  | .object members => members.isEmpty
  | .null => true
  | _ => false

/-- A method that does not fit the value leaves it as it is. -/
def apply (m : Method) (base : Value) : Value :=
  match m, base with
  | length, v => countOf (lengthOf v)
  | isEmpty, v => .bool (holdsNothing v)
  | upper, .string s => .string (Text.upper s)
  | lower, .string s => .string (Text.lower s)
  | trim, .string s => .string (Text.trimmed s)
  | first, .array items => items.head?.getD .null
  | last, .array items => items.getLast?.getD .null
  | _, v => v

end Method

namespace Expr

/-- Every identifier, in order and with repetitions. -/
def idents : Expr → List String
  | literal _ => []
  | ident name => [name]
  | field base _ => base.idents
  | index base position => base.idents ++ position.idents
  | call base _ => base.idents
  | not operand => operand.idents
  | compare _ left right => left.idents ++ right.idents
  | and left right => left.idents ++ right.idents
  | or left right => left.idents ++ right.idents

/-- The free names in order of their first appearance. -/
def roots (e : Expr) : List String := e.idents.eraseDups

/-- The value under the bindings `lookup`. A connective leaves out its right operand if the left
one decides. -/
def evaluate (lookup : String → Option Value) : Expr → Except Unresolved Value
  | literal value => .ok value
  | ident name =>
    match lookup name with
    | some value => .ok value
    | none => .error ⟨name⟩
  | field base name => do return fieldOf (← base.evaluate lookup) name
  | index base position => do
    let base ← base.evaluate lookup
    let position ← position.evaluate lookup
    return itemOf base position
  | call base method => do return method.apply (← base.evaluate lookup)
  | not operand => do return .bool !(← operand.evaluate lookup).isTruthy
  | compare op left right => do
    let left ← left.evaluate lookup
    let right ← right.evaluate lookup
    return .bool (op.test left right)
  | and left right => do
    let left ← left.evaluate lookup
    if left.isTruthy then
      let right ← right.evaluate lookup
      return .bool right.isTruthy
    else
      return .bool false
  | or left right => do
    let left ← left.evaluate lookup
    if left.isTruthy then
      return .bool true
    else
      let right ← right.evaluate lookup
      return .bool right.isTruthy

end Expr

end PageCompiler
