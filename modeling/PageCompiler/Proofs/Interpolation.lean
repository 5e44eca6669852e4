import PageCompiler.Proofs.Evaluation
import PageCompiler.Proofs.Flattening

/-!
Interpolation leaves nothing open outside of islands. Inside of islands expressions wait for the
script.
-/

namespace PageCompiler

/-- Trees in which nothing is left to do but to extract the islands. -/
inductive Node.AwaitsIslands : Node → Prop
  | element : (∀ a ∈ as, Component.isFixed a) → (∀ n ∈ children, n.AwaitsIslands) →
    AwaitsIslands (.element tag as children closing l)
  | text : AwaitsIslands (.text s l)
  | comment : AwaitsIslands (.comment s l)
  | doctype : AwaitsIslands (.doctype s l)
  | island : (∀ n ∈ children, n.IsFlat) → AwaitsIslands (.island strategy script children l)
  | error : AwaitsIslands (.error problem message l)

namespace Interpolation

open Node (Kind)
open Json (Object)

variable {r : Resolver} {data : Object} {mode : Mode} {file : String}

theorem resolveAttributes_sat {P : Diagnostic → Prop} {V : Attribute → Prop} (own : IslandNames)
    {as : List Attribute} (ha : ∀ a ∈ as, r.Allows P a.location)
    (hV : ∀ a ∈ as, ∀ value, V { a with value }) :
    (resolveAttributes r data own as).Sat (∀ a ∈ ·, V a) P := by
  refine Reported.sat_concat (List.forall_mem_map.2 fun a h => ?_)
  split
  · exact .pure (List.forall_mem_singleton.2 (hV a h a.value))
  · exact Resolver.attributes_sat _ (List.forall_mem_singleton.2 (ha a h))
      (List.forall_mem_singleton.2 (hV a h))

theorem resolveAll_sat {V : Node → Prop} {P : Diagnostic → Prop} {own : IslandNames}
    {ns : List Node} (h : ∀ n ∈ ns, (resolve r data own n).Sat V P) :
    (resolveAll r data own ns).Sat (∀ m ∈ ·, V m) P := by
  induction ns with
  | nil => exact .pure (List.forall_mem_nil _)
  | cons n ns ih =>
    rw [List.forall_mem_cons] at h
    rw [resolveAll]
    exact .bind h.1 fun _ hm => .bind (ih h.2) fun _ hms =>
      .pure (List.forall_mem_cons.2 ⟨hm, hms⟩)

theorem resolveBranches_eq (own : IslandNames) (bs : List (String × List Node)) :
    resolveBranches r data own bs =
      bs.mapM fun b => do return (b.1, ← resolveAll r data own b.2) := by
  induction bs with
  | nil => rfl
  | cons b bs ih => simp [resolveBranches, ih]

/-- The names of islands change in an island only. -/
theorem resolve_of_ne {n : Node} (hx : n.kind ≠ .expression) (he : n.kind ≠ .element)
    (own : IslandNames) :
    ∃ inner, resolve r data own n = n.traverse (resolveAll r data inner) := by
  cases n with
  | expression => exact absurd rfl hx
  | element => exact absurd rfl he
  | island strategy script children l => exact ⟨enter own script, by simp [resolve, Node.traverse]⟩
  | conditional branches alternate d l =>
    exact ⟨own, by cases alternate <;> simp [resolve, resolveBranches_eq, Node.traverse]⟩
  | _ => exact ⟨own, by simp [resolve, Node.traverse]⟩

/-- What interpolation takes apart or replaces. -/
def IsResolved (k : Kind) : Prop := k = .expression ∨ k = .element

theorem resolve_treats {p V : Node → Prop} {P : Diagnostic → Prop}
    (h : r.Treats (¬IsResolved ·) p V P) {n : Node} (hn : n.Everywhere p) (own : IslandNames) :
    (resolve r data own n).Sat V P := by
  induction n using Node.induct_children generalizing own with
  | node n ih =>
    obtain ⟨hp, hn⟩ := Node.everywhere_iff.1 hn
    have hchild (ns) (hns : ns ∈ n.childLists) (own : IslandNames) :
        (resolveAll r data own ns).Sat (∀ m ∈ ·, V m) P :=
      resolveAll_sat fun m hm => ih ns hns m hm (hn ns hns m hm) own
    by_cases hk : IsResolved n.kind
    · cases n with
      | expression code raw l =>
        rw [resolve]
        split
        · exact Resolver.failHere_sat (h.allows hp (by simp)) (h.error hp (by simp) _ _)
        · split
          · exact .pure (h.expression hp)
          · exact Resolver.expression_sat (h.allows hp (by simp)) (h.text hp) (h.error hp (by simp)) _ _ _ _
      | element tag as children closing l =>
        rw [resolve]
        have has : (resolveAttributes r data own as).Sat
            (∀ a ∈ ·, ∃ b ∈ as, ∃ value, a = { b with value }) P :=
          resolveAttributes_sat own (h.given hp) fun a ha value => ⟨a, ha, value, rfl⟩
        refine .bind has fun new hnew => ?_
        refine .bind (hchild children (List.mem_singleton_self _) own) fun ns hns => ?_
        exact .pure (h.element hp hnew hns)
      | _ => simp [IsResolved] at hk
    · obtain ⟨hx, he⟩ := not_or.1 hk
      obtain ⟨inner, hinner⟩ := @resolve_of_ne r data n hx he own
      rw [hinner, ← bind_pure (n.traverse _)]
      exact .bind ((Reported.satisfying P).traverse fun ns hns => hchild ns hns inner)
        fun m hm => .pure (h.rebuilt hp hk hm)

theorem resolve_sat (hr : r.stage ≠ .assembly) {n : Node} (hn : n.IsFlat) (own : IslandNames) :
    (resolve r data own n).Sat (·.IsFlat) Diagnostic.IsEarly := by
  refine resolve_treats (p := fun n => n.kind.IsFlat) ?_ hn.ofKinds own
  exact {
    allows := fun _ _ => Resolver.allows_isEarly hr _
    given := fun _ a _ => Resolver.allows_isEarly hr a.location
    error := fun _ _ _ _ => .error
    text := fun _ _ => .text
    expression := fun _ => .expression
    element := fun _ _ => .element
    rebuilt := fun hn _ hm => Node.isFlat_of_kind (hm.kind ▸ hn) hm.lists }

theorem isFixed_resolveAttributes (as : List Attribute) :
    ∀ a ∈ (resolveAttributes (resolver mode file) data none as).value, Component.isFixed a := by
  rw [Evaluation.attributes_last]
  intro a ha
  obtain ⟨b, -, hb⟩ := List.mem_filterMap.1 ha
  obtain ⟨v, hv, rfl⟩ := Option.map_eq_some_iff.1 hb
  obtain ⟨s, rfl⟩ | rfl := Evaluation.value?_eq_some hv
  · rfl
  · rfl

theorem resolve_awaitsIslands {n : Node} (hn : n.IsFlat) :
    (resolve (resolver mode file) data none n).Sat Node.AwaitsIslands Diagnostic.IsEarly := by
  have hr : (resolver mode file).stage ≠ .assembly := by simp [resolver]
  induction hn with
  | @element children tag as closing l _ ih =>
    rw [resolve]
    have has : (resolveAttributes (resolver mode file) data none as).Sat
        (∀ a ∈ ·, Component.isFixed a) Diagnostic.IsEarly :=
      ⟨isFixed_resolveAttributes as, (resolveAttributes_sat (V := fun _ => True) none
        (fun a _ => Resolver.allows_isEarly hr a.location) fun _ _ _ => trivial).each⟩
    refine .bind has fun as has => ?_
    refine .bind (resolveAll_sat ih) fun children hc => ?_
    exact .pure (.element has hc)
  | island hn _ =>
    rw [resolve]
    refine .bind (resolveAll_sat fun n h => resolve_sat hr (hn n h) _) fun children hc => ?_
    exact .pure (.island hc)
  | expression =>
    rw [resolve]
    split
    · exact Resolver.failHere_sat (Resolver.allows_isEarly hr _) .error
    · next e _ =>
      have hown : ¬isIslandExpression none e := by simp [isIslandExpression, isIslandName]
      rw [if_neg hown]
      exact Resolver.expression_sat (Resolver.allows_isEarly hr _) (fun _ => .text)
        (fun _ _ => .error) _ _ _ _
  | text => exact .pure .text
  | comment => exact .pure .comment
  | doctype => exact .pure .doctype
  | error => exact .pure .error

end Interpolation

/-- Where no component and no slot is left, evaluation leaves nothing open outside of islands. -/
theorem evaluateNodes_sat {ns : List Node} (h : ∀ n ∈ ns, n.OfKinds Node.Kind.IsExpanded)
    (mode : Mode) (data : Json.Object) (file : String) :
    (evaluateNodes mode data file ns).Sat (∀ n ∈ ·, n.AwaitsIslands) Diagnostic.IsEarly :=
  .bind (ControlFlow.expandNodes_sat h mode data file) fun _ hns =>
    Interpolation.resolveAll_sat fun n hn => Interpolation.resolve_awaitsIslands (hns n hn)

end PageCompiler
