import PageCompiler.Proofs.Template

/-!
The nodes of a template once more as a document. Main statement: they come out as they are, and
there is nothing more to find among them.
-/

namespace PageCompiler.Template

variable {role : Role} {n : Node} {ns : List Node}

/-- Nodes that are all kept are a template without findings. -/
theorem ofNodes_of_isKept (path : String) (h : ∀ n ∈ ns, n.Everywhere (IsKept role)) :
    ofNodes role path ns = ⟨path, ns, findingsOf path [], [], none⟩ := by
  have hstrip : stripAll role ns = ns := by
    rw [stripAll_eq]
    apply flatMap_eq_self
    intro n hn
    exact Node.eq_self_of_mapChildren (stripAll_eq role) (fun _ => strip_of_isKept) (h n hn)
  have hfound : foundInAll role ns = [] := by
    rw [foundInAll_eq, List.flatMap_eq_nil_iff]
    intro n hn
    exact Node.eq_nil_of_childLists (foundInAll_eq role) (fun _ => found_of_isKept) (h n hn)
  rw [ofNodes, hstrip, hfound]
  rfl

/-- Whether an element is a directive does not depend on its content, and of its attributes only a
source decides. -/
theorem directive?_eq_none {tag : String} {as bs : List Attribute} {children others : List Node}
    (h : directive? tag as children = none) (hs : hasAttribute "src" as → hasAttribute "src" bs) :
    directive? tag bs others = none := by
  unfold directive? at h ⊢
  split at h
  · cases h
  · cases h
  · cases h
  · cases h
  · split at h <;> cases h
  · split at h
    · next hsrc => rw [if_pos (hs hsrc)]
    · cases h
  · split at h
    · cases h
    · next hlower => rw [if_neg hlower]

theorem isKept_mapChildren {f : List Node → List Node} (h : IsKept role n) :
    IsKept role (n.mapChildren f) := by
  cases n with
  | element tag as children closing l => exact directive?_eq_none h id
  | _ => exact h

theorem hasAttribute_append {name : String} {as : List Attribute} (bs : List Attribute)
    (h : hasAttribute name as) : hasAttribute name (as ++ bs) := by
  rw [hasAttribute, attributeNamed?] at h ⊢
  rw [List.find?_append, Option.isSome_or, h]
  rfl

/-- All that stripping leaves is kept by stripping. -/
theorem strip_isKept (role : Role) (n : Node) :
    ∀ m ∈ strip role n, m.Everywhere (IsKept role) := by
  refine strip_everywhere (p := fun _ => True) (fun _ => trivial) ?_ fun _ _ => trivial
  intro n f hn _
  exact isKept_mapChildren hn

theorem stamp_isKept (attr : String) (h : n.Everywhere (IsKept role)) :
    (stamp attr n).Everywhere (IsKept role) := by
  refine stamp_everywhere ?_ ?_ h
  · intro tag as children closing l hn more _ cs
    exact directive?_eq_none hn (hasAttribute_append more)
  · intro n f _ hn
    exact isKept_mapChildren hn

theorem ofNodes_isKept (role : Role) (path : String) (nodes : List Node) :
    ∀ n ∈ (ofNodes role path nodes).nodes, n.Everywhere (IsKept role) := by
  have hstripped := forall_mem_stripAll fun n (_ : n ∈ nodes) => strip_isKept role n
  unfold ofNodes
  dsimp only
  split
  · exact hstripped
  · apply forall_mem_stampAll
    intro n hn
    exact stamp_isKept _ (hstripped n hn)

/-- One pass is complete: a second one, for the same path and role, leaves the nodes of a template
as they are, and finds nothing. -/
theorem ofNodes_ofNodes (role : Role) (path : String) (nodes : List Node) :
    ofNodes role path (ofNodes role path nodes).nodes =
      { path
        nodes := (ofNodes role path nodes).nodes
        findings :=
          { title := none, description := none, layout := none, props := none
            inlineComponents := [], styles := [], scopedStyles := [], scripts := []
            diagnostics := [] }
        styles := []
        scopeAttribute := none } :=
  ofNodes_of_isKept path (ofNodes_isKept role path nodes)

end PageCompiler.Template
