import PageCompiler.Json.Number

/-!
Values of a data context: the values of JSON. The members of an object are kept in ascending order
of their names, each name once.
-/

namespace PageCompiler.Json

inductive Value
  | null
  | bool (b : Bool)
  | number (n : Number)
  | string (s : String)
  | array (items : List Value)
  | object (members : List (String × Value))

abbrev Object := List (String × Value)

namespace Object

def get? (o : Object) (name : String) : Option Value := o.lookup name

/-- Puts a member in its place; a member of that name is replaced. -/
def insert (name : String) (value : Value) : Object → Object
  | [] => [(name, value)]
  | (n, v) :: rest =>
    if n = name then (name, value) :: rest
    else if name < n then (name, value) :: (n, v) :: rest
    else (n, v) :: insert name value rest

/-- Of several members of one name the last counts. -/
def ofList (members : List (String × Value)) : Object :=
  members.foldl (fun o (name, value) => insert name value o) []

end Object

namespace Value

mutual

protected def beq : Value → Value → Bool
  | null, null => true
  | bool a, bool b => a == b
  | number a, number b => a == b
  | string a, string b => a == b
  | array a, array b => Value.itemsBeq a b
  | object a, object b => Value.membersBeq a b
  | _, _ => false
termination_by structural v => v

protected def itemsBeq : List Value → List Value → Bool
  | [], [] => true
  | a :: as, b :: bs => Value.beq a b && Value.itemsBeq as bs
  | _, _ => false
termination_by structural vs => vs

protected def membersBeq : List (String × Value) → List (String × Value) → Bool
  | [], [] => true
  | (m, a) :: as, (n, b) :: bs => m == n && Value.beq a b && Value.membersBeq as bs
  | _, _ => false
termination_by structural ms => ms

end

instance : BEq Value := ⟨Value.beq⟩

instance : Inhabited Value := ⟨null⟩

/-- False are `null`, `false`, zero and whatever is empty. -/
def isTruthy : Value → Bool
  | null => false
  | bool b => b
  | number n => !(n.toDouble == 0)
  | string s => !s.isEmpty
  | array items => !items.isEmpty
  | object members => !members.isEmpty

/-- The text of a scalar value on a page; a collection has none. -/
def scalarText? : Value → Option String
  | null => some ""
  | bool b => some (if b then "true" else "false")
  | number n => some (.ofList n.onPage)
  | string s => some s
  | array _ => none
  | object _ => none

end Value

end PageCompiler.Json
