import PageCompiler.Resolution
import PageCompiler.Scope

/-!
Loops, conditionals and component instances. Each iteration of a loop and each instance has a frame
of its own. Expressions with a local name are replaced here, since the name means nothing outside
of its frame; all others are left for later.
-/

namespace PageCompiler.ControlFlow

open Json (Value Object)

def isLocalTo (s : Scope) (e : Expr) : Bool := e.roots.any s.isLocal

/-- What may be replaced in a scope: expressions with a local name. -/
def bindingsIn (s : Scope) : Resolver.Bindings := ⟨s.get?, isLocalTo s⟩

/-- The items that a loop goes over; those of an object are its members. -/
def items? : Value → Option (List Value)
  | .array items => some items
  | .null => some []
  | .object members => some (members.map fun (key, value) =>
      .object [("key", .string key), ("value", value)])
  | _ => none

/-- What a loop tells its body about the item at `index`. -/
def progress (index length : Nat) : Value :=
  .object [("first", .bool (index = 0)), ("index", countOf (index + 1)),
    ("index0", countOf index), ("last", .bool (index + 1 = length)), ("length", countOf length)]

def iterations (s : Scope) (item : String) (items : List Value) : List Scope :=
  items.mapIdx fun index value =>
    (s.openChild.bind item value).bind "loop" (progress index items.length)

/-- The items of a loop, or what is wrong with them. A loop written with tags takes a name that is
bound nowhere for an empty collection. -/
def collection (s : Scope) (source : String) (d : Dialect) :
    Except (Problem × String) (List Value) :=
  match Expr.parse source with
  | .error e => .error (.invalidExpression, Resolver.invalidText "loop source" source e)
  | .ok e =>
    match e.evaluate s.get?, d with
    | .error _, .tag => .ok []
    | .error u, .delimiter =>
      .error (.controlFlowSyntax, "Loop collection `" ++ u.name ++ "` is not defined.")
    | .ok v, _ =>
      match items? v with
      | some items => .ok items
      | none =>
        .error (.controlFlowSyntax,
          "`" ++ Text.trimmed source ++ "` is not a collection (found `" ++ v.text ++ "`).")

/-- A condition with a name that is bound nowhere does not hold, nor does one that is wrong. -/
def holds (r : Resolver) (s : Scope) (condition : String) (l : Location) : Reported Bool :=
  match Expr.parse condition with
  | .error e => do
    r.fail .invalidExpression (Resolver.invalidText "condition" condition e) l
    return false
  | .ok e =>
    match e.evaluate s.get? with
    | .ok v => return v.isTruthy
    | .error _ => return false

def writtenValue (r : Resolver) (s : Scope) (prop : String) (l : Location) :
    AttributeValue → Reported Value
  | .expression code =>
    match Expr.parse code with
    | .error e => do
      r.fail .invalidExpression
        ("Invalid expression for prop `" ++ prop ++ "`: " ++ e.message ++ ".") l
      return .null
    | .ok e =>
      match e.evaluate s.get? with
      | .ok v => return v
      | .error u => do
        r.reportUnresolved u l
        return .null
  | .interpolated parts => do
    match ← r.attributeValue? ⟨s.get?, fun _ => true⟩ l (.interpolated parts) with
    | some (.static text) => return .string (Text.unescapeHtml text)
    | _ => return .null
  | .static text => return .string (Text.unescapeHtml text)
  | .bare => return .bool true

/-- A prop with its value, which is null if it does not fit the type. -/
def boundProp (r : Resolver) (s : Scope) (component : String) (l : Location) (b : PropBinding) :
    Reported (String × Value) :=
  match b.value with
  | .resolved value => return (b.name, value)
  | .deferred written type => do
    match type.ofValue (← writtenValue r s b.name l written) with
    | .ok value => return (b.name, value)
    | .error m =>
      r.fail .invalidPropType
        ("Prop `" ++ b.name ++ "` of <" ++ component ++ ">: " ++ m.message ++ ".") l
      return (b.name, .null)

/-- The frame of a component instance that is used in the scope `s`. -/
def instanceFrame (s : Scope) (props : List (String × Value)) : Scope :=
  props.foldl (fun frame (name, value) => frame.bind name value) s.openIsolated

mutual

def expand (r : Resolver) (s : Scope) : Node → Reported (List Node)
  | .loop item source body d l =>
    match collection s source d with
    | .ok items =>
      .concat ((iterations s item items).map fun frame => expandAll r frame body)
    | .error (problem, message) => return [← r.failHere problem message l]
  | .conditional branches alternate _ l => do
    match ← expandBranches r s l branches with
    | some nodes => return nodes
    | none =>
      match alternate with
      | some nodes => expandAll r s nodes
      | none => return []
  | .isolated component bindings children l => do
    let props ← Reported.all (bindings.map (boundProp r s component l))
    expandAll r (instanceFrame s props) children
  | .callerScope children => expandAll r (s.caller?.getD s) children
  | .expression code raw l =>
    match Expr.parse code with
    | .ok e =>
      if isLocalTo s e then return [← r.expression s.get? e code raw l]
      else return [.expression code raw l]
    | .error _ => return [.expression code raw l]
  | .element tag as children closing l => do
    let as ← r.attributes (bindingsIn s) as
    return [.element tag as (← expandAll r s children) closing l]
  | .component name as children l => return [.component name as (← expandAll r s children) l]
  | .slot name fallback l => return [.slot name (← expandAll r s fallback) l]
  | .island strategy script children l =>
    return [.island strategy script (← expandAll r s children) l]
  | n => return [n]
termination_by structural n => n

def expandAll (r : Resolver) (s : Scope) : List Node → Reported (List Node)
  | [] => return []
  | n :: ns => do
    let nodes ← expand r s n
    return nodes ++ (← expandAll r s ns)
termination_by structural ns => ns

def expandBranches (r : Resolver) (s : Scope) (l : Location) :
    List (String × List Node) → Reported (Option (List Node))
  | [] => return none
  | (condition, body) :: rest => do
    if ← holds r s condition l then return some (← expandAll r s body)
    else expandBranches r s l rest
termination_by structural bs => bs

end

def expandNodes (mode : Mode) (data : Object) (file : String) (nodes : List Node) :
    Reported (List Node) :=
  expandAll ⟨mode, .controlFlow, file⟩ (.ofData data) nodes

end PageCompiler.ControlFlow
