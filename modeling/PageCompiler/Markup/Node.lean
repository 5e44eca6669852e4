import PageCompiler.Diagnostic
import PageCompiler.Props.Type

/-!
The tree of a template, from its reading to the finished page. Components, slots, loops,
conditionals, islands and expressions disappear on the way; what is left can be written as HTML.
-/

namespace PageCompiler

inductive Part
  | text (text : String)
  | expression (code : String)
  deriving DecidableEq, Repr

inductive AttributeValue
  /-- Text as in HTML; only quotes have yet to be escaped. -/
  | static (text : String)
  | bare
  | interpolated (parts : List Part)
  | expression (code : String)
  deriving DecidableEq, Repr

structure Attribute where
  name : String
  value : AttributeValue
  location : Location
  deriving DecidableEq, Repr

def Attribute.new (name : String) (value : AttributeValue) : Attribute := ⟨name, value, .unknown⟩

inductive Strategy
  | load
  | visible
  | idle
  | media (query : String)
  deriving DecidableEq, Repr

/-- Control flow is written with tags or between delimiters. -/
inductive Dialect
  | tag
  | delimiter
  deriving DecidableEq, Repr

/-- The value of a prop at a usage: known, or still to be evaluated in the scope of the usage. -/
inductive PropValue
  | resolved (value : Json.Value)
  | deferred (written : AttributeValue) (type : PropType)

structure PropBinding where
  name : String
  value : PropValue

inductive Node
  | element (tag : String) (attributes : List Attribute) (children : List Node)
      (selfClosing : Bool) (location : Location)
  | text (text : String) (location : Location)
  /-- An expression and how it was written, with its delimiters. -/
  | expression (code raw : String) (location : Location)
  | comment (text : String) (location : Location)
  | doctype (text : String) (location : Location)
  | component (name : String) (attributes : List Attribute) (children : List Node)
      (location : Location)
  /-- A place for content; without a name it is the default slot. -/
  | slot (name : Option String) (fallback : List Node) (location : Location)
  | loop (item source : String) (body : List Node) (dialect : Dialect) (location : Location)
  /-- Conditions with what they guard, and what is left if none holds. -/
  | conditional (branches : List (String × List Node)) (alternate : Option (List Node))
      (dialect : Dialect) (location : Location)
  | island (strategy : Strategy) (script : String) (children : List Node) (location : Location)
  /-- The body of a component instance, to be evaluated in a frame of its own. -/
  | isolated (component : String) (bindings : List PropBinding) (children : List Node)
      (location : Location)
  /-- Content of a slot, to be evaluated in the frame of the usage. -/
  | callerScope (children : List Node)
  | error (problem : Problem) (message : String) (location : Location)

namespace Node

def newText (text : String) : Node := .text text .unknown

def newComment (text : String) : Node := .comment text .unknown

/-- Slot content stands where its first node stands. -/
def location : Node → Location
  | element _ _ _ _ l => l
  | text _ l => l
  | expression _ _ l => l
  | comment _ l => l
  | doctype _ l => l
  | component _ _ _ l => l
  | slot _ _ l => l
  | loop _ _ _ _ l => l
  | conditional _ _ _ l => l
  | island _ _ _ l => l
  | isolated _ _ _ l => l
  | callerScope [] => .unknown
  | callerScope (n :: _) => n.location
  | error _ _ l => l

def isBlank : Node → Bool
  | text s _ => Text.isAllBlank s
  | _ => false

/-- The lists of nodes below a node, in the order of the source. -/
def childLists : Node → List (List Node)
  | element _ _ children _ _ => [children]
  | component _ _ children _ => [children]
  | slot _ fallback _ => [fallback]
  | loop _ _ body _ _ => [body]
  | conditional branches alternate _ _ => branches.map Prod.snd ++ alternate.toList
  | island _ _ children _ => [children]
  | isolated _ _ children _ => [children]
  | callerScope children => [children]
  | _ => []

mutual

/-- A node and all nodes below it, each before those below it. -/
def descendants : Node → List Node
  | element t as children s l => element t as children s l :: listDescendants children
  | component n as children l => component n as children l :: listDescendants children
  | slot n fallback l => slot n fallback l :: listDescendants fallback
  | loop i s body d l => loop i s body d l :: listDescendants body
  | conditional branches alternate d l =>
    conditional branches alternate d l :: (branchDescendants branches ++
      match alternate with
      | some nodes => listDescendants nodes
      | none => [])
  | island st sc children l => island st sc children l :: listDescendants children
  | isolated c bs children l => isolated c bs children l :: listDescendants children
  | callerScope children => callerScope children :: listDescendants children
  | n => [n]
termination_by structural n => n

def listDescendants : List Node → List Node
  | [] => []
  | n :: ns => descendants n ++ listDescendants ns
termination_by structural ns => ns

def branchDescendants : List (String × List Node) → List Node
  | [] => []
  | (_, body) :: rest => listDescendants body ++ branchDescendants rest
termination_by structural bs => bs

end

end Node

end PageCompiler
