import PageCompiler.Component.Expand
import PageCompiler.Proofs.Component.Filling

/-!
The way through a tree that expands its components. What holds of each usage holds of the expansion
of the tree, whichever lists of slot content are made of its parts.
-/

namespace PageCompiler

namespace Expanded

variable {α β : Type u}

theorem ext {r s : Expanded α} (hv : r.value = s.value) (hu : r.used = s.used)
    (hd : r.diagnostics = s.diagnostics) : r = s := by
  cases r
  cases s
  simp_all

instance : LawfulMonad Expanded :=
  .mk' _ (fun _ => ext rfl (List.append_nil _) (List.append_nil _)) (fun _ _ => ext rfl rfl rfl)
    (fun _ _ _ => ext rfl (List.append_assoc _ _ _) (List.append_assoc _ _ _))

end Expanded

namespace Component

variable {setting : Setting} {inside : Option ExpandBody} {site : Site}

theorem expandBranches_eq (bs : List (String × List Node)) :
    expandBranches setting inside site bs =
      bs.mapM fun b => do return (b.1, ← expandAll setting inside site b.2) := by
  induction bs with
  | nil => rfl
  | cons b bs ih => simp [expandBranches, ih]

theorem expand_of_ne {n : Node} (hc : n.kind ≠ .component) (hs : n.kind ≠ .callerScope) :
    expand setting inside site n = n.traverse (expandAll setting inside site) := by
  cases n with
  | component => exact absurd rfl hc
  | callerScope => exact absurd rfl hs
  | conditional branches alternate d l =>
    cases alternate <;> simp [expand, expandBranches_eq, Node.traverse]
  | _ => simp [expand, Node.traverse]

theorem mergeInto?_eq {as : List Attribute} {n m : Node} (h : mergeInto? as n = some m) :
    m.form = n.form ∧ m.usedName? = n.usedName? ∧ m.childLists = n.childLists := by
  cases n with
  | element | component =>
    cases h
    exact ⟨rfl, rfl, rfl⟩
  | _ => cases h

/-- Attributes that are forwarded change nothing of a body but attributes. -/
theorem forward_holds (J : Judgement Expanded) {p : Node → Prop} {d : Definition} {l : Location}
    {others : List Attribute}
    (hwarn : ∀ message, J.Holds (fun _ => True) (warn site .structuralDirective message l))
    (hdynamic : ∀ a ∈ others, ¬isFixed a → ∀ message,
      J.Holds (fun _ => True) (warn site .structuralDirective message a.location))
    (hmerge : ∀ n m, mergeInto? (others.filter isFixed) n = some m → p n → p m)
    {body : List Node} (hb : ∀ n ∈ body, p n) :
    J.Holds (∀ n ∈ ·, p n) (forward site d l others body) := by
  rw [forward]
  refine J.bind (J.forM fun a ha => ?_) fun _ _ => ?_
  · obtain ⟨ha, hfixed⟩ := List.mem_filter.1 ha
    exact hdynamic a ha (by simpa using hfixed) _
  dsimp only
  split
  · exact J.pure hb
  · split
    · next root hr =>
      have hroot : root ∈ body := (List.mem_filter.1 (hr ▸ List.mem_singleton_self root)).1
      split
      · next merged hm =>
        refine J.pure (List.forall_mem_map.2 fun n hn => ?_)
        split
        · exact hmerge root merged hm (hb root hroot)
        · exact hb n hn
      · exact J.bind (hwarn _) fun _ _ => J.pure hb
    · exact J.bind (hwarn _) fun _ _ => J.pure hb

/-- A statement about trees that a walk can establish: `p` is of nodes in front of it, `q` of those
behind it, and `C` of the content of slots. -/
structure Walk (J : Judgement Expanded) (setting : Setting) (inside : Option ExpandBody)
    (site : Site) (p q : Node → Prop) (C : SlotContent → Prop) : Prop where
  use : p (.component name as children l) → ∀ given ⊆ as, ∀ content, J.Holds C content →
    J.Holds q (useName setting inside site name given content l)
  below : p n → n.kind ≠ .callerScope → ∀ ns ∈ n.childLists, ∀ m ∈ ns, p m
  rebuilt : p n → n.kind ≠ .component → n.kind ≠ .callerScope → n.Trims m →
    (∀ ns ∈ m.childLists, ∀ k ∈ ns, q k) → q m
  /-- What is in slot content has been expanded at its usage. -/
  callerScope : p (.callerScope children) → q (.callerScope children)
  content : (∀ n ∈ rest, q n) → (∀ piece ∈ pieces, ∀ n ∈ piece.2, q n) →
    C (.ofPieces rest pieces)

/-- All lists that are made of the nodes `ns`. -/
structure Walked (J : Judgement Expanded) (setting : Setting) (inside : Option ExpandBody)
    (site : Site) (q : Node → Prop) (ns : List Node) : Prop where
  all : J.Holds (∀ n ∈ ·, q n) (expandAll setting inside site ns)
  named : ∀ parent, J.Holds (∀ piece ∈ ·, ∀ n ∈ piece.2, q n)
    (namedContent setting inside site parent ns)
  default : ∀ parent, J.Holds (∀ n ∈ ·, q n) (defaultContent setting inside site parent ns)

namespace Walk

variable {J : Judgement Expanded} {p q : Node → Prop} {C : SlotContent → Prop}
  (h : Walk J setting inside site p q C)

include h

theorem content_holds {parent : String} {ns : List Node}
    (hns : Walked J setting inside site q ns) :
    J.Holds C (do
      let pieces ← namedContent setting inside site parent ns
      let rest ← defaultContent setting inside site parent ns
      return SlotContent.ofPieces rest pieces) :=
  J.bind (hns.named parent) fun _ hp => J.bind (hns.default parent) fun _ hd =>
    J.pure (h.content hd hp)

theorem expand_holds {n : Node} (hn : p n)
    (hc : n.kind ≠ .callerScope → ∀ ns ∈ n.childLists, Walked J setting inside site q ns) :
    J.Holds q (expand setting inside site n) := by
  by_cases hcomponent : n.kind = .component
  · cases n with
    | component name as children l =>
      rw [expand]
      have hc := hc (by simp) children (List.mem_singleton_self _)
      exact h.use hn as (List.Subset.refl as) _ (h.content_holds hc)
    | _ => cases hcomponent
  by_cases hcaller : n.kind = .callerScope
  · cases n with
    | callerScope children => exact J.pure (h.callerScope hn)
    | _ => cases hcaller
  rw [expand_of_ne hcomponent hcaller, ← bind_pure (n.traverse _)]
  refine J.bind (J.traverse fun ns hns => (hc hcaller ns hns).all) fun m hm => J.pure ?_
  exact h.rebuilt hn hcomponent hcaller (Node.trims_of_shell hm.shell) hm.lists

theorem named_cons {parent : String} {n : Node} {ns : List Node} (hn : p n)
    (hc : n.kind ≠ .callerScope → ∀ cs ∈ n.childLists, Walked J setting inside site q cs)
    (hns : J.Holds (∀ piece ∈ ·, ∀ n ∈ piece.2, q n)
      (namedContent setting inside site parent ns)) :
    J.Holds (∀ piece ∈ ·, ∀ n ∈ piece.2, q n)
      (namedContent setting inside site parent (n :: ns)) := by
  cases n with
  | component name as children l =>
    have hc := hc (by simp) children (List.mem_singleton_self _)
    rw [namedContent]
    split
    · exact J.bind hc.all fun _ ha => J.bind hns fun _ hb =>
        J.pure (List.forall_mem_cons.2 ⟨ha, hb⟩)
    · have hsub : withoutSlot as ⊆ as := List.eraseP_subset
      refine J.bind (h.use hn _ hsub _ (h.content_holds hc)) fun _ ha => J.bind hns fun _ hb => ?_
      exact J.pure (List.forall_mem_cons.2 ⟨List.forall_mem_singleton.2 ha, hb⟩)
    · exact hns
  | element tag as children closing l =>
    have hc := hc (by simp) children (List.mem_singleton_self _)
    rw [namedContent]
    split
    · refine J.bind hc.all fun _ ha => J.bind hns fun _ hb => J.pure ?_
      refine List.forall_mem_cons.2 ⟨List.forall_mem_singleton.2 ?_, hb⟩
      exact h.rebuilt hn (by simp) (by simp) ⟨rfl, fun _ => rfl, List.eraseP_subset⟩
        (List.forall_mem_singleton.2 ha)
    · exact hns
  | _ => exact hns

/-- What holds of the usages holds of all nodes that are expanded. -/
theorem walked {ns : List Node} (hns : ∀ n ∈ ns, p n) : Walked J setting inside site q ns := by
  induction ns using Node.induct_lists
    (motive := fun n => p n → J.Holds q (expand setting inside site n)) with
  | node n ih hn =>
    exact h.expand_holds hn fun hne ns hns => ih ns hns (h.below hn hne ns hns)
  | nil =>
    exact ⟨J.pure (List.forall_mem_nil _), fun _ => J.pure (List.forall_mem_nil _),
      fun _ => J.pure (List.forall_mem_nil _)⟩
  | cons n ns hn hcs ih =>
    rw [List.forall_mem_cons] at hns
    have hcs (hne : n.kind ≠ .callerScope) (cs : List Node) (hmem : cs ∈ n.childLists) :=
      hcs cs hmem (h.below hns.1 hne cs hmem)
    refine ⟨?_, fun parent => ?_, fun parent => ?_⟩
    · rw [expandAll]
      exact J.bind (hn hns.1) fun _ ha => J.bind (ih hns.2).all fun _ hb =>
        J.pure (List.forall_mem_cons.2 ⟨ha, hb⟩)
    · exact h.named_cons hns.1 hcs ((ih hns.2).named parent)
    · rw [defaultContent]
      split
      · exact (ih hns.2).default parent
      · exact J.bind (hn hns.1) fun _ ha => J.bind ((ih hns.2).default parent) fun _ hb =>
          J.pure (List.forall_mem_cons.2 ⟨ha, hb⟩)

end Walk

end Component

end PageCompiler
