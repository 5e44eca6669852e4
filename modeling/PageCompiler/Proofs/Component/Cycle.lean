import Mathlib.Data.List.Chain
import Mathlib.Data.List.Perm.Subperm
import PageCompiler.Proofs.Component.Expansion

/-!
Components that use each other. The components around a usage are pairwise different and each uses
the next, so a component that comes again closes a circle of the usage graph, and no more levels
of nesting are needed than there are components.
-/

namespace PageCompiler.Component

variable {r : Registry} {stack : List String} {d e : Definition} {name : String}

/-- The definition uses the name somewhere in its body. -/
def Mentions (d : Definition) (name : String) : Prop := ∃ n ∈ d.nodes, n.Uses name

/-- The components around a place are registered and pairwise different. -/
structure IsNesting (r : Registry) (stack : List String) : Prop where
  nodup : stack.Nodup
  registered : stack ⊆ r.components.map Definition.name

namespace IsNesting

theorem cons (h : IsNesting r stack) (hd : r.component? name = some d) (hs : d.name ∉ stack) :
    IsNesting r (d.name :: stack) where
  nodup := List.nodup_cons.2 ⟨hs, h.nodup⟩
  registered :=
    List.cons_subset.2 ⟨List.mem_map_of_mem (Registry.component?_mem hd), h.registered⟩

theorem enter (h : IsNesting r stack) (hd : r.component? name = some d) (hs : d.name ∉ stack) :
    IsNesting r (stack ++ [d.name]) :=
  have hp := List.perm_append_singleton d.name stack
  ⟨hp.nodup_iff.2 (h.cons hd hs).nodup, fun _ hn => (h.cons hd hs).registered (hp.subset hn)⟩

theorem length_lt (h : IsNesting r stack) (hd : r.component? name = some d)
    (hs : d.name ∉ stack) : stack.length < r.components.length := by
  have hl := ((h.cons hd hs).nodup.subperm (h.cons hd hs).registered).length_le
  rw [List.length_cons, List.length_map] at hl
  exact hl

end IsNesting

/-- The stack is a path of the usage graph, and goes on to every component that `A` names. -/
structure IsPath (r : Registry) (stack : List String) (A : String → Prop) : Prop
    extends IsNesting r stack where
  path : ∃ ds : List Definition, stack = ds.map Definition.name ∧
    (∀ d ∈ ds, r.component? d.name = some d) ∧
    ∀ name e, A name → r.component? name = some e → (ds ++ [e]).IsChain r.Uses

namespace IsPath

theorem start (A : String → Prop) : IsPath r [] A :=
  ⟨⟨.nil, List.nil_subset _⟩, [], rfl, nofun, fun _ e _ _ => .singleton e⟩

theorem enter (h : IsPath r stack A) (hA : A name) (hd : r.component? name = some d)
    (hs : d.name ∉ stack) : IsPath r (stack ++ [d.name]) (Mentions d) where
  toIsNesting := h.toIsNesting.enter hd hs
  path := by
    obtain ⟨ds, rfl, hr, hc⟩ := h.path
    refine ⟨ds ++ [d], by simp, ?_, fun name' e hn he => ?_⟩
    · exact List.forall_mem_append.2
        ⟨hr, List.forall_mem_singleton.2 (Registry.component?_name hd)⟩
    · rw [List.append_assoc, List.singleton_append, List.isChain_split]
      exact ⟨hc name d hA hd, .cons_cons ⟨name', hn, he⟩ (.singleton e)⟩

end IsPath

theorem circleMessage_eq {before after : List String} (h : name ∉ before) :
    circleMessage (before ++ name :: after) name =
      "Circular component dependency: " ++ Text.join " -> " (name :: after ++ [name]) := by
  have hw : ∀ n ∈ before, (n != name) = true := fun n hn => bne_iff_ne.2 fun he => h (he ▸ hn)
  have hd : (before ++ name :: after).dropWhile (· != name) = name :: after := by
    rw [List.dropWhile_append_of_pos hw, List.dropWhile_cons_of_neg (by simp)]
  unfold circleMessage
  rw [hd]

/-- Each of the registered definitions `d :: ds` uses the next, and the last one uses `d`. -/
def IsCircle (r : Registry) (d : Definition) (ds : List Definition) : Prop :=
  (∀ e ∈ d :: ds, r.component? e.name = some e) ∧ (d :: ds ++ [d]).IsChain r.Uses

theorem IsPath.circle (h : IsPath r stack A) (hA : A name) (hd : r.component? name = some d)
    (hs : d.name ∈ stack) : ∃ ds, IsCircle r d ds ∧
      circleMessage stack d.name = "Circular component dependency: " ++
        Text.join " -> " ((d :: ds ++ [d]).map Definition.name) := by
  obtain ⟨ds, rfl, hr, hc⟩ := h.path
  obtain ⟨before, after, hb, hf⟩ := List.eq_append_cons_of_mem hs
  obtain ⟨bs, cs, rfl, rfl, hcs⟩ := List.map_eq_append_iff.1 hb
  obtain ⟨c, cs, rfl, hn, rfl⟩ := List.map_eq_cons_iff.1 hcs
  rw [List.forall_mem_append, List.forall_mem_cons] at hr
  have hcd : c = d := by
    have := hr.2.1
    rw [hn, Registry.component?_name hd] at this
    exact (Option.some.inj this).symm
  subst hcd
  refine ⟨cs, ⟨List.forall_mem_cons.2 hr.2, ?_⟩, ?_⟩
  · have := hc name c hA hd
    rw [List.append_assoc] at this
    exact this.right_of_append
  · rw [hb, circleMessage_eq hf]
    simp

/-- A report of a circle tells of one, and the limit of nesting is only reported if it is less than
the number of components. -/
def IsExplained (r : Registry) (maxDepth : Nat) (x : Diagnostic) : Prop :=
  x.problem = .circularComponentDependency →
    (∃ d ds, IsCircle r d ds ∧ x.message = "Circular component dependency: " ++
      Text.join " -> " ((d :: ds ++ [d]).map Definition.name)) ∨
    maxDepth < r.components.length ∧ ∃ name, x.message = depthMessage maxDepth name

theorem accounts_isPath (r : Registry) (maxDepth : Nat) :
    Accounts ⟨r, maxDepth⟩ Mentions (IsExplained r maxDepth) (IsPath r) where
  plain _ h hp := absurd hp h.2
  circle {_ _ _ d} h hA hd hs _ _ _ := by
    obtain ⟨ds, hc, hm⟩ := h.circle hA hd hs
    exact .inl ⟨d, ds, hc, hm⟩
  depth {_ _ _ d} h _ hd hs hl _ _ _ :=
    .inr ⟨Nat.lt_of_le_of_lt (Nat.le_of_eq hl.symm) (h.length_lt hd hs), d.name, rfl⟩
  enter h hA hd hs := h.enter hA hd hs

theorem accounts_stage (setting : Setting) (names : Definition → String → Prop) :
    Accounts setting names (·.stage = .components) fun _ _ => True where
  plain _ h := h.1
  circle _ _ _ _ _ _ := rfl
  depth _ _ _ _ _ _ _ := rfl
  enter _ _ _ _ := trivial

theorem useName_congr {s t : Setting} (hr : s.registry = t.registry) {i j : Option ExpandBody}
    {site : Site} (h : ∀ name d, s.registry.component? name = some d → d.name ∉ site.stack →
      ∃ f g, i = some f ∧ j = some g ∧ ∀ body,
        f ⟨site.stack ++ [d.name], d.path⟩ body = g ⟨site.stack ++ [d.name], d.path⟩ body) :
    useName s i site = useName t j site := by
  funext name as content l
  rw [useName, useName, ← hr]
  cases hd : s.registry.component? name with
  | none => rfl
  | some d =>
    dsimp only
    split
    · rfl
    · next hs =>
      obtain ⟨f, g, rfl, rfl, hb⟩ := h name d hd fun hm => hs (List.contains_iff_mem.2 hm)
      exact useDefinition_congr hb as content l

/-- Levels of nesting beyond the number of components change nothing. -/
theorem insideBody_congr {s t : Setting} (hr : s.registry = t.registry) (k : Nat) {j : Nat}
    {stack : List String} (h : IsNesting s.registry stack)
    (hk : s.registry.components.length ≤ stack.length + k)
    (hj : s.registry.components.length ≤ stack.length + j) (file : String) :
    useName s (insideBody s k) ⟨stack, file⟩ = useName t (insideBody t j) ⟨stack, file⟩ := by
  induction k generalizing j stack file with
  | zero =>
    -- all components are around the place already, so nothing is entered any more
    refine useName_congr hr fun name d hd hs => ?_
    have hl := h.length_lt hd hs
    omega
  | succ k ih =>
    refine useName_congr hr fun name d hd hs => ?_
    have hl := h.length_lt hd hs
    obtain ⟨j, rfl⟩ := Nat.exists_eq_add_of_lt (show 0 < j by omega)
    rw [Nat.zero_add] at hj ⊢
    refine ⟨_, _, rfl, rfl, fun body => ?_⟩
    have hlen : (stack ++ [d.name]).length = stack.length + 1 := by simp
    exact (expandAll_congr (ih (h.enter hd hs) (by omega) (by omega) d.path) body).all

variable {file : String} {nodes : List Node}

theorem expandNodes_congr {m n : Nat} (hm : r.components.length ≤ m)
    (hn : r.components.length ≤ n) (file : String) (nodes : List Node) :
    expandNodes ⟨r, m⟩ file nodes = expandNodes ⟨r, n⟩ file nodes := by
  have h := @insideBody_congr ⟨r, m⟩ ⟨r, n⟩ rfl m n [] (IsPath.start fun _ => True).toIsNesting
    (by simpa using hm) (by simpa using hn) file
  rw [expandNodes, expandNodes, (expandAll_congr h nodes).all]

theorem expandNodes_explained (r : Registry) (maxDepth : Nat) (file : String)
    (nodes : List Node) :
    (expandNodes ⟨r, maxDepth⟩ file nodes).Sat (∀ n ∈ ·, ∀ name, ¬n.Uses name)
      (IsExplained r maxDepth) := by
  have hdefs : ∀ d ∈ r.components, ∀ n ∈ d.nodes,
      n.Fits (Mentions d) (fun _ => True) fun _ => True :=
    fun d _ n hn => Node.fits_of_uses fun name hu => ⟨n, hn, hu⟩
  have h := expandNodes_sat hdefs (fun _ _ _ => trivial) (fun _ _ _ => trivial) trivial trivial
    trivial (accounts_isPath r maxDepth) (IsPath.start fun _ => True) file
    fun n (_ : n ∈ nodes) => Node.fits_of_uses fun _ _ => trivial
  exact ⟨fun n hn name => (h.value n hn).not_uses name, h.each⟩

/-- Slot content has no usages of components: it is expanded before it has its place. -/
abbrev HasExpandedContent : Node → Prop :=
  Node.Fits (fun _ => True) (fun _ => True) (· ≠ .component)

theorem expandNodes_ofKinds {setting : Setting}
    (hr : ∀ d ∈ setting.registry.components, ∀ n ∈ d.nodes, HasExpandedContent n)
    (hn : ∀ n ∈ nodes, HasExpandedContent n) :
    ∀ n ∈ (expandNodes setting file nodes).value, n.OfKinds (· ≠ .component) := by
  have h := expandNodes_sat hr (fun _ _ _ => trivial) (fun _ h _ => h) trivial trivial nofun
    (accounts_stage setting fun _ _ => True) trivial file hn
  exact fun n hn => (h.value n hn).ofKinds (fun _ h _ => h) nofun

/-- Every expansion ends, within as many levels of nesting as there are components, and leaves no
usage of a component. A circle is only reported where the definitions have one, and the limit of
nesting only if it is less than the number of components; a greater limit makes no difference. -/
theorem expandNodes_bounded (r : Registry) (file : String) (nodes : List Node) :
    (∀ maxDepth,
      (∀ n ∈ (expandNodes ⟨r, maxDepth⟩ file nodes).value, ∀ name, ¬n.Uses name) ∧
      ((∀ d ∈ r.components, ∀ n ∈ d.nodes, HasExpandedContent n) →
        (∀ n ∈ nodes, HasExpandedContent n) →
        ∀ n ∈ (expandNodes ⟨r, maxDepth⟩ file nodes).value, n.OfKinds (· ≠ .component)) ∧
      ∀ x ∈ (expandNodes ⟨r, maxDepth⟩ file nodes).diagnostics, IsExplained r maxDepth x) ∧
    ∀ m n, r.components.length ≤ m → r.components.length ≤ n →
      expandNodes ⟨r, m⟩ file nodes = expandNodes ⟨r, n⟩ file nodes := by
  refine ⟨fun maxDepth => ?_, fun m n hm hn => expandNodes_congr hm hn file nodes⟩
  have h := expandNodes_explained r maxDepth file nodes
  exact ⟨h.value, fun hr hn => expandNodes_ofKinds hr hn, h.each⟩

/-- Two components that use each other, and a page that uses the first. -/
theorem expandNodes_bounded_pair :
    let use (name : String) : Node := .component name [] [] .unknown
    let a : Definition := ⟨"A", "a.html", [], [], [use "B"], [], []⟩
    let b : Definition := ⟨"B", "b.html", [], [], [use "A"], [], []⟩
    let r : Registry := ⟨[a, b], []⟩
    (∀ n ∈ (expandNodes ⟨r, 2⟩ "" [use "A"]).value, n.OfKinds (· ≠ .component)) ∧
      expandNodes ⟨r, 2⟩ "" [use "A"] = expandNodes ⟨r, 3⟩ "" [use "A"] := by
  intro use a b r
  have hu (name : String) : HasExpandedContent (use name) :=
    .node nofun ⟨fun _ _ => trivial, fun _ => trivial⟩ (by simp [use, Node.childLists])
  obtain ⟨h, hd⟩ := expandNodes_bounded r "" [use "A"]
  refine ⟨(h 2).2.1 ?_ (by simp [hu]), hd 2 3 (by decide) (by decide)⟩
  simp [r, a, b, hu]

end PageCompiler.Component
