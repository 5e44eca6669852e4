import PageCompiler.Proofs.Lexical

/-!
The content of slots means what it means where it is written. Control flow comes to it in a scope
far inside of the component, but from there the usage site is found again: behind one instance for
content of that component, and behind several if the content has been handed on.
-/

namespace PageCompiler

open Json (Value)

/-- Content that is handed on through `k` component instances. -/
def Node.forwarded (content : List Node) : Nat → List Node
  | 0 => content
  | k + 1 => [.callerScope (forwarded content k)]

namespace Scope

/-- The scope in which the `k`-th component instance around a place is used. -/
def usageSite? (s : Scope) : Nat → Option Scope
  | 0 => some s
  | k + 1 => s.caller?.bind fun caller => caller.usageSite? k

theorem usageSite?_iterations {s frame : Scope} {item : String} {items : List Value}
    (h : frame ∈ ControlFlow.iterations s item items) (k : Nat) :
    frame.usageSite? (k + 1) = s.usageSite? (k + 1) := by
  obtain ⟨index, _, rfl⟩ := List.mem_mapIdx.1 h
  rfl

theorem usageSite?_instanceFrame (s : Scope) (props : List (String × Value)) (k : Nat) :
    (ControlFlow.instanceFrame s props).usageSite? (k + 1) = s.usageSite? k := by
  rw [instanceFrame_eq]
  rfl

end Scope

namespace ControlFlow

def propsOf (r : Resolver) (s : Scope) (component : String) (l : Location)
    (bindings : List PropBinding) : Reported (List (String × Value)) :=
  .all (bindings.map (boundProp r s component l))

/-- Expanding one node in a scope comes to another node in its scope. On the way `k` component
instances are entered and any loops, conditionals and elements. -/
inductive Reaches (r : Resolver) : Scope → Node → Nat → Scope → Node → Prop
  | here : Reaches r s n 0 s n
  | element : n ∈ children → Reaches r s n k g m →
    Reaches r s (.element tag as children closing l) k g m
  | component : n ∈ children → Reaches r s n k g m →
    Reaches r s (.component name as children l) k g m
  | slot : n ∈ fallback → Reaches r s n k g m → Reaches r s (.slot name fallback l) k g m
  | island : n ∈ children → Reaches r s n k g m →
    Reaches r s (.island strategy script children l) k g m
  | loop : collection s source d = .ok items → frame ∈ iterations s item items → n ∈ body →
    Reaches r frame n k g m → Reaches r s (.loop item source body d l) k g m
  | branch : b ∈ branches → n ∈ b.2 → Reaches r s n k g m →
    Reaches r s (.conditional branches alternate d l) k g m
  | alternate : n ∈ nodes → Reaches r s n k g m →
    Reaches r s (.conditional branches (some nodes) d l) k g m
  | isolated : n ∈ children →
    Reaches r (instanceFrame s (propsOf r s component l bindings).value) n k g m →
    Reaches r s (.isolated component bindings children l) (k + 1) g m

variable {r : Resolver} {s g : Scope} {n m : Node} {k : Nat}

/-- Only instances put a usage site between a place and those behind it. -/
theorem Reaches.usageSite? (h : Reaches r s n k g m) (j : Nat) :
    g.usageSite? (k + (j + 1)) = s.usageSite? (j + 1) := by
  induction h generalizing j with
  | here => rw [Nat.zero_add]
  | element _ _ ih | component _ _ ih | slot _ _ ih | island _ _ ih | branch _ _ _ ih
  | alternate _ _ ih => exact ih j
  -- the frame of an iteration is no instance: its caller is that of the scope around it
  | loop _ hf _ _ ih => rw [ih j, Scope.usageSite?_iterations hf]
  | isolated _ _ ih =>
    rw [Nat.add_right_comm, Nat.add_assoc, ih (j + 1), Scope.usageSite?_instanceFrame]

theorem expandAll_singleton (r : Resolver) (s : Scope) (n : Node) :
    expandAll r s [n] = expand r s n := by
  simp [expandAll]

theorem expandAll_forwarded {content : List Node} (h : g.usageSite? k = some s) :
    expandAll r g (Node.forwarded content k) = expandAll r s content := by
  induction k generalizing g with
  | zero =>
    cases h
    rfl
  | succ k ih =>
    obtain ⟨caller, hc, hs⟩ := Option.bind_eq_some_iff.1 h
    rw [Node.forwarded, expandAll_singleton, expand, hc, Option.getD_some, ih hs]

/-- The body of an instance is expanded over its props, and in it all content of its slots as at
the usage site; content that comes through further instances as well. -/
theorem slotContent_expands_at_usage (r : Resolver) (s : Scope) (component : String)
    (bindings : List PropBinding) (children : List Node) (l : Location) :
    (expand r s (.isolated component bindings children l) = do
      let props ← propsOf r s component l bindings
      Lexical.expandAll r (s.frame :: s.sites) (.ofProps s.data props) children) ∧
    (∀ f content, Lexical.expand r (s.frame :: s.sites) f (.callerScope content) =
      expandAll r s content) ∧
    ∀ k g content,
      Reaches r s (.isolated component bindings children l) (k + 1) g
        (.callerScope (Node.forwarded content k)) →
      expand r g (.callerScope (Node.forwarded content k)) = expandAll r s content := by
  refine ⟨?_, ?_, ?_⟩
  · rw [Lexical.expand_eq, Lexical.expand, boundProp_frame, Scope.data_frame]
    rfl
  · intro f content
    rw [Lexical.expand, Lexical.expandAll_of_each fun n _ => Lexical.expand_eq r s n]
  · intro k g content h
    have hg : g.usageSite? (k + 1) = some s := by
      cases h with
      | isolated _ h => rw [h.usageSite? 0, Scope.usageSite?_instanceFrame, Scope.usageSite?]
    rw [← expandAll_forwarded hg, Node.forwarded, expandAll_singleton]

/-- Content of a slot that the component passes on to a component in a conditional of its body. -/
theorem slotContent_passed_on :
    let r : Resolver := ⟨.strict, .controlFlow, ""⟩
    let s : Scope := .ofData [("x", .bool true)]
    let content : List Node := [.expression "x" "x" .unknown]
    let passed : Node := .callerScope (Node.forwarded content 1)
    let inner : Node := .isolated "Inner" [] [passed] .unknown
    let body : Node := .conditional [("x", [inner])] none .tag .unknown
    ∃ g, Reaches r s (.isolated "Outer" [] [body] .unknown) 2 g passed ∧
      expand r g passed = expandAll r s content := by
  intro r s content passed inner body
  have h : Reaches r s (.isolated "Outer" [] [body] .unknown) 2 _ passed :=
    .isolated (List.mem_singleton_self _) <|
      .branch (List.mem_singleton_self _) (List.mem_singleton_self _) <|
        .isolated (List.mem_singleton_self _) .here
  exact ⟨_, h, (slotContent_expands_at_usage r s "Outer" [] [body] .unknown).2.2 1 _ _ h⟩

end ControlFlow

end PageCompiler
