import PageCompiler.Definition
import PageCompiler.Proofs.Tree

/-!
Which component uses which. Slot content that has its place already counts for nothing here, since
the components in it have been expanded at the usage site.
-/

namespace PageCompiler

namespace Node

/-- A node or some node below it is a usage of the name, slot content left aside. -/
inductive Uses : Node → String → Prop
  | here : n.usedName? = some name → Uses n name
  | inside : n.kind ≠ .callerScope → ns ∈ n.childLists → m ∈ ns → Uses m name → Uses n name

/-- What may stand outside of slot content: usages of the names of `A`, and nodes of other kinds
if they are of `K`. -/
structure Allowed (A : String → Prop) (K : Kind → Prop) (n : Node) : Prop where
  name : ∀ name, n.usedName? = some name → A name
  kind : n.kind ≠ .component → K n.kind

/-- All nodes are allowed where they stand, and slot content has nodes of the kinds of `L`. -/
abbrev Fits (A : String → Prop) (K L : Kind → Prop) : Node → Prop :=
  Outside .callerScope (Allowed A K) fun n => ∀ ns ∈ n.childLists, ∀ m ∈ ns, m.OfKinds L

section Fits

variable {A : String → Prop} {K K' L : Kind → Prop} {n : Node}

theorem Allowed.of_eq (h : n.Allowed A K) {m : Node} (hm : m.usedName? = n.usedName?)
    (hk : m.kind = n.kind) (hK : K n.kind → K' n.kind) : m.Allowed A K' where
  name name hn := h.name name (hm ▸ hn)
  kind hc := hk ▸ hK (h.kind (hk ▸ hc))

theorem Allowed.kind_ne (h : n.Allowed (fun _ => False) K) : n.kind ≠ .component :=
  usedName?_eq_none.1 (Option.eq_none_iff_forall_ne_some.2 h.name)

theorem Fits.ofKinds (hK : ∀ k, k ≠ .component → K k → L k) (hL : L .callerScope)
    (h : n.Fits (fun _ => False) K L) : n.OfKinds L := by
  induction h with
  | within hk h => exact everywhere_iff.2 ⟨hk ▸ hL, h⟩
  | node _ h _ ih => exact everywhere_iff.2 ⟨hK _ h.kind_ne (h.kind h.kind_ne), ih⟩

theorem fits_of_uses (h : ∀ name, n.Uses name → A name) :
    n.Fits A (fun _ => True) fun _ => True := by
  induction n using induct_children with
  | node n ih =>
    by_cases hk : n.kind = .callerScope
    · exact .within hk fun _ _ m _ _ _ => trivial
    · refine .node hk ⟨fun name hn => h name (.here hn), fun _ => trivial⟩ fun ns hns m hm => ?_
      exact ih ns hns m hm fun name hu => h name (.inside hk hns hm hu)

theorem OfKinds.fits {K'' : Kind → Prop} (hK : ∀ k, K'' k → k ≠ .callerScope ∧ K k)
    (h : n.OfKinds K'') : n.Fits (fun _ => True) K L := by
  induction n using induct_children with
  | node n ih =>
    obtain ⟨hk, h⟩ := everywhere_iff.1 h
    obtain ⟨hc, hk⟩ := hK _ hk
    exact .node hc ⟨fun _ _ => trivial, fun _ => hk⟩ fun ns hns m hm =>
      ih ns hns m hm (h ns hns m hm)

theorem Fits.not_uses (h : n.Fits (fun _ => False) K L) (name : String) : ¬n.Uses name := by
  intro hu
  induction hu with
  | here hn =>
    cases h with
    | within hk =>
      rw [usedName?_eq_none.2 (by rw [hk]; decide)] at hn
      cases hn
    | node _ h => exact h.name _ hn
  | inside hk hns hm _ ih => exact ih ((h.of_ne hk).2 _ hns _ hm)

end Fits

end Node

namespace Registry

variable {r : Registry} {d e : Definition} {name : String}

def Uses (r : Registry) (d e : Definition) : Prop :=
  ∃ name, (∃ n ∈ d.nodes, n.Uses name) ∧ r.component? name = some e

theorem component?_mem (h : r.component? name = some d) : d ∈ r.components := by
  rw [component?, Option.or_eq_some_iff] at h
  obtain h | ⟨-, h⟩ := h
  · exact List.mem_of_find?_eq_some h
  · exact List.mem_of_find?_eq_some h

theorem component?_name (h : r.component? name = some d) : r.component? d.name = some d := by
  rw [component?, Option.or_eq_some_iff] at h
  obtain h | ⟨-, h⟩ := h
  · have hd : d.name = name := by simpa using List.find?_some h
    rw [component?, hd, h, Option.some_or]
  · obtain ⟨hd, before, after, hr, hb⟩ := List.find?_eq_some_iff_append.1 h
    have hf : r.components.find? (fun e => e.name = d.name) = some d := by
      refine List.find?_eq_some_iff_append.2 ⟨by simp, before, after, hr, fun e he => ?_⟩
      have he := hb e he
      simp only [decide_eq_true_eq, Bool.not_eq_true', decide_eq_false_iff_not] at hd he ⊢
      rw [← hd] at he
      exact fun hn => he (by rw [hn])
    rw [component?, hf, Option.some_or]

end Registry

end PageCompiler
