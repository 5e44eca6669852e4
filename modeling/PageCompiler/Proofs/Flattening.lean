import PageCompiler.ControlFlow
import PageCompiler.Proofs.Resolution
import PageCompiler.Proofs.Traversal

/-!
Control flow leaves nothing of loops, conditionals, component instances and slot content.
-/

namespace PageCompiler

/-- What control flow is carried out on. -/
def Node.Kind.IsExpanded (k : Node.Kind) : Prop := k ≠ .component ∧ k ≠ .slot

/-- Trees of what control flow leaves. -/
inductive Node.IsFlat : Node → Prop
  | element : (∀ n ∈ children, n.IsFlat) → IsFlat (.element tag as children closing l)
  | text : IsFlat (.text s l)
  | expression : IsFlat (.expression code raw l)
  | comment : IsFlat (.comment s l)
  | doctype : IsFlat (.doctype s l)
  | island : (∀ n ∈ children, n.IsFlat) → IsFlat (.island strategy script children l)
  | error : IsFlat (.error problem message l)

/-- What control flow leaves. -/
def Node.Kind.IsFlat (k : Node.Kind) : Prop :=
  k.IsExpanded ∧ k ≠ .loop ∧ k ≠ .conditional ∧ k ≠ .isolated ∧ k ≠ .callerScope

theorem Node.isFlat_of_kind {n : Node} (hk : n.kind.IsFlat)
    (hn : ∀ ns ∈ n.childLists, ∀ m ∈ ns, m.IsFlat) : n.IsFlat := by
  obtain ⟨⟨hcomponent, hslot⟩, hloop, hconditional, hisolated, hcaller⟩ := hk
  cases n with
  | element => exact .element (List.forall_mem_singleton.1 hn)
  | island => exact .island (List.forall_mem_singleton.1 hn)
  | text => exact .text
  | expression => exact .expression
  | comment => exact .comment
  | doctype => exact .doctype
  | error => exact .error
  | component => exact absurd rfl hcomponent
  | slot => exact absurd rfl hslot
  | loop => exact absurd rfl hloop
  | conditional => exact absurd rfl hconditional
  | isolated => exact absurd rfl hisolated
  | callerScope => exact absurd rfl hcaller

theorem Node.IsFlat.ofKinds {n : Node} (h : n.IsFlat) : n.OfKinds Kind.IsFlat := by
  have hkind {k : Kind} (hk : k = .element ∨ k = .text ∨ k = .expression ∨ k = .comment ∨
      k = .doctype ∨ k = .island ∨ k = .error) : k.IsFlat := by
    rcases hk with rfl | rfl | rfl | rfl | rfl | rfl | rfl <;> simp [Kind.IsFlat, Kind.IsExpanded]
  induction h with
  | element _ ih => exact Node.everywhere_element.2 ⟨hkind (by simp), ih⟩
  | island _ ih => exact Node.everywhere_island.2 ⟨hkind (by simp), ih⟩
  | _ => exact (Node.everywhere_leaf rfl).2 (hkind (by simp))

/-- What a resolver makes of nodes with the property `p`: nodes with the property `V`, and reports
that have `P`. Nodes of the kinds of `K` are only rebuilt. -/
structure Resolver.Treats (r : Resolver) (K : Node.Kind → Prop) (p V : Node → Prop)
    (P : Diagnostic → Prop) : Prop where
  allows : p n → n.kind ≠ .callerScope → r.Allows P n.location
  given : p n → ∀ a ∈ n.given, r.Allows P a.location
  error : p n → n.kind ≠ .callerScope → ∀ problem message, V (.error problem message n.location)
  text : p (.expression code raw l) → ∀ s, V (.text s l)
  expression : p (.expression code raw l) → V (.expression code raw l)
  element : p (.element tag as children closing l) →
    (∀ a ∈ new, ∃ b ∈ as, ∃ value, a = { b with value }) → (∀ n ∈ ns, V n) →
    V (.element tag new ns closing l)
  rebuilt : p n → K n.kind → n.Rebuilds (∀ k ∈ ·, V k) m → V m

namespace ControlFlow

open Node (Kind)

section Reports

variable {r : Resolver} {P : Diagnostic → Prop} {V : Node → Prop}

theorem expandAll_sat {s : Scope} {ns : List Node}
    (h : ∀ n ∈ ns, (expand r s n).Sat (∀ m ∈ ·, V m) P) :
    (expandAll r s ns).Sat (∀ m ∈ ·, V m) P := by
  induction ns with
  | nil => exact .pure (List.forall_mem_nil _)
  | cons n ns ih =>
    rw [List.forall_mem_cons] at h
    rw [expandAll]
    exact .bind h.1 fun _ ha => .bind (ih h.2) fun _ hb =>
      .pure (List.forall_mem_append.2 ⟨ha, hb⟩)

variable {l : Location} (hr : r.Allows P l)

include hr

theorem holds_sat (s : Scope) (condition : String) :
    (holds r s condition l).Sat (fun _ => True) P := by
  unfold holds
  split
  · exact .bind (Resolver.fail_sat hr) fun _ _ => .pure trivial
  · split
    · exact .pure trivial
    · exact .pure trivial

theorem writtenValue_sat (s : Scope) (prop : String) (v : AttributeValue) :
    (writtenValue r s prop l v).Sat (fun _ => True) P := by
  unfold writtenValue
  split
  · split
    · exact .bind (Resolver.fail_sat hr) fun _ _ => .pure trivial
    · split
      · exact .pure trivial
      · exact .bind (Resolver.reportUnresolved_sat hr _) fun _ _ => .pure trivial
  · refine .bind (Resolver.attributeValue?_sat hr _ _) fun _ _ => ?_
    split
    · exact .pure trivial
    · exact .pure trivial
  · exact .pure trivial
  · exact .pure trivial

theorem boundProp_sat (s : Scope) (component : String) (b : PropBinding) :
    (boundProp r s component l b).Sat (fun _ => True) P := by
  unfold boundProp
  split
  · exact .pure trivial
  · refine .bind (writtenValue_sat hr _ _ _) fun _ _ => ?_
    split
    · exact .pure trivial
    · exact .bind (Resolver.fail_sat hr) fun _ _ => .pure trivial

theorem boundProps_sat (s : Scope) (component : String) (bindings : List PropBinding) :
    (Reported.all (bindings.map (boundProp r s component l))).Sat (fun _ => True) P :=
  Reported.sat_all (List.forall_mem_map.2 fun b _ => (boundProp_sat hr s component b).each)

theorem expandBranches_sat {s : Scope} {bs : List (String × List Node)}
    (h : ∀ b ∈ bs, ∀ n ∈ b.2, (expand r s n).Sat (∀ m ∈ ·, V m) P) :
    (expandBranches r s l bs).Sat (∀ ns ∈ ·, ∀ m ∈ ns, V m) P := by
  induction bs with
  | nil => exact .pure nofun
  | cons b bs ih =>
    rw [List.forall_mem_cons] at h
    rw [expandBranches]
    refine .bind (holds_sat hr s b.1) fun _ _ => ?_
    split
    · exact .bind (expandAll_sat h.1) fun _ ha => .pure fun _ he => Option.some.inj he ▸ ha
    · exact ih h.2

end Reports

section Flatten

variable {r : Resolver} {p V : Node → Prop} {P : Diagnostic → Prop}

/-- What control flow replaces. -/
def IsReplaced (k : Kind) : Prop :=
  k = .loop ∨ k = .conditional ∨ k = .isolated ∨ k = .callerScope ∨ k = .expression ∨ k = .element

theorem expand_of_not_isReplaced {n : Node} (hk : ¬IsReplaced n.kind) (r : Resolver) (s : Scope) :
    expand r s n = do return [← n.traverse (expandAll r s)] := by
  cases n with
  | loop | conditional | isolated | callerScope | expression | element =>
    exact absurd (by simp [IsReplaced]) hk
  | _ => simp [expand, Node.traverse]

theorem expand_treats (h : r.Treats (¬IsReplaced ·) p V P) {n : Node} (hn : n.Everywhere p)
    (s : Scope) : (expand r s n).Sat (∀ m ∈ ·, V m) P := by
  induction n using Node.induct_children generalizing s with
  | node n ih =>
    obtain ⟨hp, hn⟩ := Node.everywhere_iff.1 hn
    have hchild (ns) (hns : ns ∈ n.childLists) (s : Scope) :
        (expandAll r s ns).Sat (∀ m ∈ ·, V m) P :=
      expandAll_sat fun m hm => ih ns hns m hm (hn ns hns m hm) s
    by_cases hk : IsReplaced n.kind
    · cases n with
      | loop item source body d l =>
        rw [expand]
        split
        · refine Reported.sat_concat (List.forall_mem_map.2 fun frame _ => ?_)
          exact hchild body (List.mem_singleton_self _) frame
        · exact .bind (Resolver.failHere_sat (h.allows hp nofun) (h.error hp nofun _ _)) fun _ h =>
            .pure (List.forall_mem_singleton.2 h)
      | conditional branches alternate d l =>
        have hbs := expandBranches_sat (h.allows hp nofun) fun b hb n hn' =>
          have hmem := List.mem_append_left alternate.toList (List.mem_map_of_mem hb)
          ih b.2 hmem n hn' (hn b.2 hmem n hn') s
        cases alternate with
        | none =>
          rw [expand]
          refine .bind hbs fun o ho => ?_
          cases o with
          | none => exact .pure (List.forall_mem_nil _)
          | some nodes => exact .pure (ho nodes rfl)
        | some alternate =>
          rw [expand]
          refine .bind hbs fun o ho => ?_
          cases o with
          | none => exact hchild alternate (List.mem_append_right _ (List.mem_singleton_self _)) s
          | some nodes => exact .pure (ho nodes rfl)
      | isolated component bindings children l =>
        rw [expand]
        exact .bind (boundProps_sat (h.allows hp nofun) s component bindings) fun _ _ =>
          hchild children (List.mem_singleton_self _) _
      | callerScope children =>
        rw [expand]
        exact hchild children (List.mem_singleton_self _) _
      | expression code raw l =>
        have hkept : (pure [.expression code raw l] : Reported (List Node)).Sat (∀ m ∈ ·, V m) P :=
          .pure (List.forall_mem_singleton.2 (h.expression hp))
        rw [expand]
        split
        · split
          · exact .bind (Resolver.expression_sat (h.allows hp nofun) (h.text hp)
              (h.error hp nofun) _ _ _ _) fun _ h => .pure (List.forall_mem_singleton.2 h)
          · exact hkept
        · exact hkept
      | element tag as children closing l =>
        rw [expand]
        have has : (r.attributes (bindingsIn s) as).Sat
            (∀ a ∈ ·, ∃ b ∈ as, ∃ value, a = { b with value }) P :=
          Resolver.attributes_sat _ (h.given hp) fun a ha value => ⟨a, ha, value, rfl⟩
        refine .bind has fun new hnew => ?_
        refine .bind (hchild children (List.mem_singleton_self _) s) fun ns hns => ?_
        exact .pure (List.forall_mem_singleton.2 (h.element hp hnew hns))
      | _ => simp [IsReplaced] at hk
    · rw [expand_of_not_isReplaced hk]
      refine .bind ((Reported.satisfying P).traverse fun ns hns => hchild ns hns s) fun m hm => ?_
      exact .pure (List.forall_mem_singleton.2 (h.rebuilt hp hk hm))

end Flatten

theorem treats_isFlat {r : Resolver} (hr : r.stage ≠ .assembly) :
    r.Treats (¬IsReplaced ·) (·.kind.IsExpanded) Node.IsFlat Diagnostic.IsEarly where
  allows _ _ := Resolver.allows_isEarly hr _
  given _ a _ := Resolver.allows_isEarly hr a.location
  error _ _ _ _ := .error
  text _ _ := .text
  expression _ := .expression
  element _ _ := .element
  rebuilt {n m} hn hk hm := by
    refine Node.isFlat_of_kind (hm.kind ▸ ⟨hn, ?_⟩) hm.lists
    simp only [IsReplaced, not_or] at hk
    exact ⟨hk.1, hk.2.1, hk.2.2.1, hk.2.2.2.1⟩

end ControlFlow

/-- Where no component and no slot is left, control flow leaves none of its own nodes. -/
theorem ControlFlow.expandNodes_sat {ns : List Node} (h : ∀ n ∈ ns, n.OfKinds Node.Kind.IsExpanded)
    (mode : Mode) (data : Json.Object) (file : String) :
    (expandNodes mode data file ns).Sat (∀ n ∈ ·, n.IsFlat)
      Diagnostic.IsEarly :=
  expandAll_sat fun n hn => expand_treats (treats_isFlat (by simp)) (h n hn) _

end PageCompiler
