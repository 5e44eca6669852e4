import PageCompiler.Island.Extract
import PageCompiler.Proofs.Emission
import PageCompiler.Proofs.Words
import PageCompiler.Component.Expand

/-!
Markers: the attributes of elements by which an island is found in the finished page. Names of
attributes are compared as browsers do, ignoring case.
-/

namespace PageCompiler

def Attribute.isNamed (name : String) (a : Attribute) : Bool :=
  Text.eqIgnoringAsciiCase a.name name

@[simp] theorem Attribute.name_new (name : String) (v : AttributeValue) :
    (Attribute.new name v).name = name := rfl

@[simp] theorem Attribute.value_new (name : String) (v : AttributeValue) :
    (Attribute.new name v).value = v := rfl

def Attribute.valuesOf (name : String) (as : List Attribute) : List AttributeValue :=
  (as.filter (isNamed name)).map value

theorem Attribute.valuesOf_append (name : String) (as bs : List Attribute) :
    valuesOf name (as ++ bs) = valuesOf name as ++ valuesOf name bs := by
  rw [valuesOf, List.filter_append, List.map_append, valuesOf, valuesOf]

theorem Attribute.valuesOf_eq_nil {name : String} {as : List Attribute} :
    valuesOf name as = [] ↔ ∀ a ∈ as, ¬a.isNamed name := by
  rw [valuesOf, List.map_eq_nil_iff, List.filter_eq_nil_iff]

theorem Attribute.valuesOf_of_subset {name : String} {as bs : List Attribute} (hs : bs ⊆ as)
    (h : valuesOf name as = []) : valuesOf name bs = [] :=
  valuesOf_eq_nil.2 fun a ha => valuesOf_eq_nil.1 h a (hs ha)

/-- The words that an attribute has between spaces. -/
def AttributeValue.words : AttributeValue → List String
  | .static text => Text.words text
  | _ => []

namespace Node

/-- The attributes of an element; those of a usage are props. -/
def attributes : Node → List Attribute
  | .element _ as _ _ _ => as
  | _ => []

/-- The values of the attributes of this name that an element has. -/
def marks (name : String) (n : Node) : List AttributeValue := Attribute.valuesOf name n.attributes

/-- The ids of actions in the markers of an element. -/
def actionIds (n : Node) : List String := (n.marks "data-ncl-action").flatMap AttributeValue.words

/-- An element without markers, or no element. -/
structure IsUnmarked (n : Node) : Prop where
  island : n.marks "data-ncl-island" = []
  action : n.marks "data-ncl-action" = []
  bind : n.marks "data-ncl-bind" = []

instance (n : Node) : Decidable n.IsUnmarked :=
  decidable_of_iff (n.marks "data-ncl-island" = [] ∧ n.marks "data-ncl-action" = [] ∧
      n.marks "data-ncl-bind" = [])
    ⟨fun h => ⟨h.1, h.2.1, h.2.2⟩, fun h => ⟨h.island, h.action, h.bind⟩⟩

theorem IsUnmarked.actionIds {n : Node} (h : n.IsUnmarked) : n.actionIds = [] := by
  rw [Node.actionIds, h.action, List.flatMap_nil]

theorem attributes_mapChildren (f : List Node → List Node) (n : Node) :
    (n.mapChildren f).attributes = n.attributes := by
  cases n <;> rfl

theorem attributes_of_shell {n m : Node} (h : m.shell = n.shell) :
    m.attributes = n.attributes := by
  rw [← attributes_mapChildren (fun _ => []) m, ← attributes_mapChildren (fun _ => []) n]
  exact congrArg attributes h

theorem marks_of_shell {n m : Node} (h : m.shell = n.shell) (name : String) :
    m.marks name = n.marks name := by
  rw [marks, attributes_of_shell h, marks]

theorem actionIds_of_shell {n m : Node} (h : m.shell = n.shell) : m.actionIds = n.actionIds := by
  rw [actionIds, marks_of_shell h, actionIds]

section Collect

variable {α : Type} (f : Node → List α)

/-- What `f` gives for a node and for all nodes below it, in the order of the document. -/
def collect (n : Node) : List α := n.descendants.flatMap f

theorem flatMap_listDescendants (ns : List Node) :
    (listDescendants ns).flatMap f = ns.flatMap (collect f) := by
  rw [listDescendants_eq, List.flatMap_assoc]
  rfl

theorem collect_eq (n : Node) :
    n.collect f = f n ++ n.childLists.flatMap fun ns => ns.flatMap (collect f) := by
  rw [collect, descendants_eq, List.flatMap_cons, List.flatMap_assoc]
  simp only [flatMap_listDescendants]

theorem collect_eq_nil {n : Node} (h : n.Everywhere (f · = [])) : n.collect f = [] :=
  List.flatMap_eq_nil_iff.2 h

end Collect

end Node

namespace Island

open Node (marks actionIds collect)

/-- What becomes of an island: an element and a module, or an error block and errors. -/
inductive Outcome
  | wrapped (wrapper : Node) (m : Module)
  | failed (block : Node) (problems : List Diagnostic)

namespace Outcome

def node : Outcome → Node
  | wrapped wrapper _ => wrapper
  | failed block _ => block

def modules : Outcome → List Module
  | wrapped _ m => [m]
  | failed _ _ => []

def problems : Outcome → List Diagnostic
  | wrapped _ _ => []
  | failed _ problems => problems

end Outcome

/-- An element whose markers agree with the module. -/
structure Wraps (w : Node) (m : Module) : Prop where
  element : w.kind = .element
  own : w.marks "data-ncl-island" = [.static m.id]
  alone : w.collect (marks "data-ncl-island") = [.static m.id]
  actions : w.collect actionIds = m.actions.map Action.id
  distinct : (m.actions.map Action.id).Nodup
  targets : ∀ a ∈ m.actions, a.mutation.target ∈ m.script.states.map State.name
  names : ∀ v ∈ w.collect (marks "data-ncl-bind"), ∃ name ∈ m.script.names, v = .static name
  closed : ∀ n ∈ w.descendants, n.kind ≠ .expression ∧
    ∀ a ∈ n.attributes, Component.isFixed a ∧ Content.event? a.name = none

/-- An error block has errors and no module. -/
def Outcome.IsSound : Outcome → Prop
  | wrapped w m => Wraps w m
  | failed block problems =>
    block.problem? = some .islandParse ∧ problems ≠ [] ∧
      ∀ d ∈ problems, d.isError ∧ d.problem = .islandParse

/-- The node `m` is `n` with the outcomes in place of the islands that are not inside of others. -/
inductive Becomes : Node → Node → List Outcome → Prop
  | island : n.kind = .island → Becomes n o.node [o]
  | node : n.kind ≠ .island → m.shell = n.shell →
    Gather (Gather Becomes) n.childLists m.childLists os → Becomes n m os

theorem Becomes.collect {α : Type} {f : Node → List α}
    (hf : ∀ n m : Node, m.shell = n.shell → f m = f n) {n : Node}
    (hn : n.Everywhere (f · = [])) {m : Node} {os : List Outcome} (h : Becomes n m os) :
    m.collect f = os.flatMap fun o => o.node.collect f := by
  induction n using Node.induct_children generalizing m os with
  | node n ih =>
    cases h with
    | island => exact (List.flatMap_singleton _ _).symm
    | node _ hs hg =>
      obtain ⟨hn, hc⟩ := Node.everywhere_iff.1 hn
      rw [Node.collect_eq, hf n m hs, hn, List.nil_append]
      exact hg.flatMap fun ns hns ms os h =>
        h.flatMap fun n hm m os => ih ns hns n hm (hc ns hns n hm)

end Island

end PageCompiler
