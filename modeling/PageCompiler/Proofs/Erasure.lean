import PageCompiler.Compile
import PageCompiler.Proofs.Canonical
import PageCompiler.Proofs.Pass
import PageCompiler.Proofs.Tree

/-!
Places do not count. Nodes that are the same up to their places are evaluated to nodes that are,
with the same reports up to their places.
-/

namespace PageCompiler

open Json (Value Object)

def Diagnostic.unplaced (d : Diagnostic) : Diagnostic := { d with location := none }

namespace Node

theorem listUnplaced_eq (ns : List Node) : listUnplaced ns = ns.map unplaced := by
  induction ns with
  | nil => rfl
  | cons n ns ih => rw [listUnplaced, ih, List.map_cons]

theorem branchesUnplaced_eq (bs : List (String × List Node)) :
    branchesUnplaced bs = bs.map fun b => (b.1, listUnplaced b.2) := by
  induction bs with
  | nil => rfl
  | cons b bs ih => rw [branchesUnplaced, ih, List.map_cons]

end Node

namespace Reported

variable {α β γ δ ι : Type} {f : α → γ} {g : β → δ} {r s t : Reported α}

/-- Two runs with results that `R` relates, and with the same reports up to their places. -/
structure Related (R : α → β → Prop) (r : Reported α) (s : Reported β) : Prop where
  value : R r.value s.value
  diagnostics : r.diagnostics.map Diagnostic.unplaced = s.diagnostics.map Diagnostic.unplaced

namespace Related

variable {R : α → β → Prop} {S : γ → δ → Prop}

theorem eq (r : Reported α) : r.Related Eq r := ⟨rfl, rfl⟩

theorem pure {a : α} {b : β} (h : R a b) : Related R (Pure.pure a) (Pure.pure b) := ⟨h, rfl⟩

theorem bind {r : Reported α} {s : Reported β} {k : α → Reported γ} {k' : β → Reported δ}
    (h : r.Related R s) (hk : ∀ a b, R a b → (k a).Related S (k' b)) :
    (r >>= k).Related S (s >>= k') where
  value := (hk _ _ h.value).value
  diagnostics := by
    simp only [diagnostics_bind, List.map_append, h.diagnostics, (hk _ _ h.value).diagnostics]

theorem foldlM {k : α → ι → Reported α} {k' : β → ι → Reported β} {xs : List ι} {a : α} {b : β}
    (hab : R a b) (h : ∀ x ∈ xs, ∀ a b, R a b → (k a x).Related R (k' b x)) :
    (xs.foldlM k a).Related R (xs.foldlM k' b) := by
  induction xs generalizing a b with
  | nil => exact .pure hab
  | cons x xs ih =>
    rw [List.forall_mem_cons] at h
    exact .bind (h.1 a b hab) fun _ _ hcd => ih hcd h.2

end Related

/-- Two runs with results that are the same to `f`, and with the same reports up to their places. -/
def SameTo (f : α → γ) : Reported α → Reported α → Prop := Related fun a b => f a = f b

namespace SameTo

@[refl] theorem refl (r : Reported α) : r.SameTo f r := ⟨rfl, rfl⟩

theorem symm (h : r.SameTo f s) : s.SameTo f r := ⟨h.value.symm, h.diagnostics.symm⟩

theorem trans (h : r.SameTo f s) (h' : s.SameTo f t) : r.SameTo f t :=
  ⟨h.value.trans h'.value, h.diagnostics.trans h'.diagnostics⟩

theorem pure {a b : α} (h : f a = f b) : SameTo f (Pure.pure a) (Pure.pure b) := ⟨h, rfl⟩

theorem bind {k k' : α → Reported β} (h : r.SameTo f s)
    (hk : ∀ a b, f a = f b → (k a).SameTo g (k' b)) : (r >>= k).SameTo g (s >>= k') :=
  Related.bind h hk

theorem report (d : Diagnostic) (file : String) (l l' : Location) :
    (PageCompiler.report (d.placed file l)).SameTo (fun u => u)
      (PageCompiler.report (d.placed file l')) :=
  ⟨rfl, rfl⟩

theorem all {xs : List ι} {k k' : ι → Reported α} (h : ∀ x ∈ xs, (k x).SameTo f (k' x)) :
    (Reported.all (xs.map k)).SameTo (List.map f) (Reported.all (xs.map k')) := by
  induction xs with
  | nil => rfl
  | cons x xs ih =>
    rw [List.forall_mem_cons] at h
    obtain ⟨hv, hd⟩ := ih h.2
    constructor
    · simp_all [h.1.value]
    · simp_all [Reported.all, h.1.diagnostics]

theorem concat {xs : List ι} {k k' : ι → Reported (List α)}
    (h : ∀ x ∈ xs, (k x).SameTo (List.map f) (k' x)) :
    (Reported.concat (xs.map k)).SameTo (List.map f) (Reported.concat (xs.map k')) := by
  rw [concat_eq, concat_eq]
  refine .bind (all h) fun as bs hab => .pure ?_
  simpa [List.map_flatten] using congrArg List.flatten hab

end SameTo

end Reported

namespace Resolver

variable {r : Resolver} {b : Bindings} {l l' : Location}

open Reported (SameTo)

theorem fail_sameTo (problem : Problem) (message : String) :
    (r.fail problem message l).SameTo (fun u => u) (r.fail problem message l') :=
  .report _ _ _ _

theorem failHere_sameTo (problem : Problem) (message : String) :
    (r.failHere problem message l).SameTo Node.unplaced (r.failHere problem message l') :=
  .bind (fail_sameTo problem message) fun _ _ _ => .pure rfl

theorem reportUnresolved_sameTo (u : Unresolved) :
    (r.reportUnresolved u l).SameTo (fun u => u) (r.reportUnresolved u l') := by
  unfold reportUnresolved
  split
  · exact fail_sameTo _ _
  · exact ⟨rfl, rfl⟩

theorem expression_sameTo (lookup : String → Option Value) (e : Expr) (code raw : String) :
    (r.expression lookup e code raw l).SameTo Node.unplaced
      (r.expression lookup e code raw l') := by
  unfold expression
  split
  · split
    · exact .pure rfl
    · exact failHere_sameTo _ _
  · split
    · exact failHere_sameTo _ _
    · exact .bind (reportUnresolved_sameTo _) fun _ _ _ => .pure rfl

theorem valueText_sameTo (code : String) (v : Value) :
    (r.valueText code v l).SameTo (fun s => s) (r.valueText code v l') := by
  unfold valueText
  split
  · rfl
  · exact .bind (fail_sameTo _ _) fun _ _ _ => .pure rfl

theorem unresolvedText_sameTo (code : String) (u : Unresolved) :
    (r.unresolvedText code u l).SameTo (fun s => s) (r.unresolvedText code u l') := by
  unfold unresolvedText
  refine .bind (reportUnresolved_sameTo _) fun _ _ _ => ?_
  rfl

theorem part_sameTo (p : Part) : (r.part b l p).SameTo (fun p => p) (r.part b l' p) := by
  unfold part
  split
  · rfl
  · split
    · rfl
    · exact .bind (fail_sameTo _ _) fun _ _ _ => .pure rfl
    · exact .bind (unresolvedText_sameTo _ _) fun _ _ h => .pure (congrArg Part.text h)
    · exact .bind (valueText_sameTo _ _) fun _ _ h => .pure (congrArg Part.text h)

theorem attributeValue?_sameTo (v : AttributeValue) :
    (r.attributeValue? b l v).SameTo (fun v => v) (r.attributeValue? b l' v) := by
  unfold attributeValue?
  split
  · refine .bind (.all fun p _ => part_sameTo p) fun ps qs h => .pure ?_
    rw [List.map_id', List.map_id'] at h
    rw [h]
  · split
    · rfl
    · exact .bind (fail_sameTo _ _) fun _ _ _ => .pure rfl
    · exact .bind (unresolvedText_sameTo _ _) fun _ _ h => .pure (by rw [h])
    · rfl
    · rfl
    · rfl
    · exact .bind (valueText_sameTo _ _) fun _ _ h => .pure (by rw [h])
  · rfl

theorem attributes_sameTo (as : List Attribute) :
    (r.attributes b (as.map Attribute.unplaced)).SameTo (List.map Attribute.unplaced)
      (r.attributes b as) := by
  unfold attributes
  rw [List.map_map]
  refine .concat fun a _ => .bind (attributeValue?_sameTo a.value) fun v w h => .pure ?_
  subst h
  cases v <;> rfl

end Resolver

namespace ControlFlow

open Reported (SameTo)

variable {r : Resolver} {s : Scope} {l l' : Location}

theorem holds_sameTo (condition : String) :
    (holds r s condition l).SameTo (fun b => b) (holds r s condition l') := by
  unfold holds
  split
  · exact .bind (Resolver.fail_sameTo _ _) fun _ _ _ => .pure rfl
  · split <;> rfl

theorem writtenValue_sameTo (prop : String) (v : AttributeValue) :
    (writtenValue r s prop l v).SameTo (fun v => v) (writtenValue r s prop l' v) := by
  unfold writtenValue
  split
  · split
    · exact .bind (Resolver.fail_sameTo _ _) fun _ _ _ => .pure rfl
    · split
      · rfl
      · exact .bind (Resolver.reportUnresolved_sameTo _) fun _ _ _ => .pure rfl
  · refine .bind (Resolver.attributeValue?_sameTo _) fun v w h => ?_
    subst h
    rfl
  · rfl
  · rfl

theorem boundProp_sameTo (component : String) (b : PropBinding) :
    (boundProp r s component l b).SameTo (fun p => p) (boundProp r s component l' b) := by
  unfold boundProp
  split
  · rfl
  · refine .bind (writtenValue_sameTo _ _) fun v w h => ?_
    subst h
    split
    · rfl
    · exact .bind (Resolver.fail_sameTo _ _) fun _ _ _ => .pure rfl

theorem expandAll_sameTo {ns : List Node}
    (h : ∀ n ∈ ns, (expand r s n.unplaced).SameTo (List.map Node.unplaced) (expand r s n)) :
    (expandAll r s (Node.listUnplaced ns)).SameTo (List.map Node.unplaced) (expandAll r s ns) := by
  induction ns with
  | nil => rfl
  | cons n ns ih =>
    rw [List.forall_mem_cons] at h
    rw [Node.listUnplaced, expandAll, expandAll]
    refine .bind h.1 fun as bs hab => .bind (ih h.2) fun cs ds hcd => .pure ?_
    rw [List.map_append, List.map_append, hab, hcd]

theorem expandBranches_sameTo {bs : List (String × List Node)}
    (h : ∀ b ∈ bs, ∀ n ∈ b.2,
      (expand r s n.unplaced).SameTo (List.map Node.unplaced) (expand r s n)) :
    (expandBranches r s l (Node.branchesUnplaced bs)).SameTo (Option.map (List.map Node.unplaced))
      (expandBranches r s l' bs) := by
  induction bs with
  | nil => rfl
  | cons b bs ih =>
    rw [List.forall_mem_cons] at h
    rw [Node.branchesUnplaced, expandBranches, expandBranches]
    refine .bind (holds_sameTo b.1) fun c d hcd => ?_
    subst hcd
    split
    · exact .bind (expandAll_sameTo h.1) fun _ _ h => .pure (congrArg some h)
    · exact ih h.2

theorem expand_sameTo (s : Scope) (n : Node) :
    (expand r s n.unplaced).SameTo (List.map Node.unplaced) (expand r s n) := by
  induction n generalizing s with
  | loop item source body d l ih =>
    rw [Node.unplaced, expand, expand]
    cases collection s source d with
    | ok items => exact .concat fun frame _ => expandAll_sameTo fun n hn => ih n hn frame
    | error e =>
      exact .bind (Resolver.failHere_sameTo _ _) fun _ _ h => .pure (by simp [h])
  | conditional branches alternate d l ihb iha =>
    have hbs : (expandBranches r s .unknown (Node.branchesUnplaced branches)).SameTo
        (Option.map (List.map Node.unplaced)) (expandBranches r s l branches) :=
      expandBranches_sameTo fun b hb n hn => ihb b hb n hn s
    cases alternate with
    | none =>
      rw [Node.unplaced, expand, expand]
      refine .bind hbs fun taken taken' h => ?_
      cases taken <;> cases taken' <;> simp at h
      · rfl
      · exact .pure h
    | some alternate =>
      rw [Node.unplaced, expand, expand]
      refine .bind hbs fun taken taken' h => ?_
      cases taken <;> cases taken' <;> simp at h
      · exact expandAll_sameTo fun n hn => iha alternate rfl n hn s
      · exact .pure h
  | isolated component bindings children l ih =>
    rw [Node.unplaced, expand, expand]
    refine .bind (.all fun b _ => boundProp_sameTo component b) fun props props' h => ?_
    rw [List.map_id', List.map_id'] at h
    subst h
    exact expandAll_sameTo fun n hn => ih n hn _
  | callerScope children ih =>
    rw [Node.unplaced, expand, expand]
    exact expandAll_sameTo fun n hn => ih n hn _
  | expression code raw l =>
    rw [Node.unplaced, expand, expand]
    cases Expr.parse code with
    | error e => exact .pure rfl
    | ok e =>
      dsimp only
      split
      · exact .bind (Resolver.expression_sameTo _ e code raw) fun _ _ h => .pure (by simp [h])
      · exact .pure rfl
  | element tag as children closing l ih =>
    rw [Node.unplaced, expand, expand]
    refine .bind (Resolver.attributes_sameTo as) fun as bs hab => ?_
    refine .bind (expandAll_sameTo fun n hn => ih n hn s) fun ns ms hnm => .pure ?_
    simp [Node.unplaced, Node.listUnplaced_eq, hab, hnm]
  | component name as children l ih =>
    rw [Node.unplaced, expand, expand]
    refine .bind (expandAll_sameTo fun n hn => ih n hn s) fun ns ms hnm => .pure ?_
    simp [Node.unplaced, Node.listUnplaced_eq, hnm, Attribute.unplaced]
  | slot name fallback l ih =>
    rw [Node.unplaced, expand, expand]
    refine .bind (expandAll_sameTo fun n hn => ih n hn s) fun ns ms hnm => .pure ?_
    simp [Node.unplaced, Node.listUnplaced_eq, hnm]
  | island strategy script children l ih =>
    rw [Node.unplaced, expand, expand]
    refine .bind (expandAll_sameTo fun n hn => ih n hn s) fun ns ms hnm => .pure ?_
    simp [Node.unplaced, Node.listUnplaced_eq, hnm]
  | text | comment | doctype | error =>
    rw [Node.unplaced, expand, expand]
    · exact .pure rfl
    all_goals nofun

end ControlFlow

namespace Interpolation

open Reported (SameTo)

variable {r : Resolver} {data : Object} {own : IslandNames}

theorem resolveAttributes_sameTo (as : List Attribute) :
    (resolveAttributes r data own (as.map Attribute.unplaced)).SameTo
      (List.map Attribute.unplaced) (resolveAttributes r data own as) := by
  unfold resolveAttributes
  rw [List.map_map]
  refine .concat fun a _ => ?_
  have hevent : isEvent own a.unplaced = isEvent own a := rfl
  rw [Function.comp_apply, hevent]
  split
  · exact .pure rfl
  · exact Resolver.attributes_sameTo [a]

theorem resolveAll_sameTo {ns : List Node}
    (h : ∀ n ∈ ns, (resolve r data own n.unplaced).SameTo Node.unplaced (resolve r data own n)) :
    (resolveAll r data own (Node.listUnplaced ns)).SameTo (List.map Node.unplaced)
      (resolveAll r data own ns) := by
  induction ns with
  | nil => rfl
  | cons n ns ih =>
    rw [List.forall_mem_cons] at h
    rw [Node.listUnplaced, resolveAll, resolveAll]
    refine .bind h.1 fun a b hab => .bind (ih h.2) fun as bs habs => .pure ?_
    rw [List.map_cons, List.map_cons, hab, habs]

theorem resolveBranches_sameTo {bs : List (String × List Node)}
    (h : ∀ b ∈ bs, ∀ n ∈ b.2,
      (resolve r data own n.unplaced).SameTo Node.unplaced (resolve r data own n)) :
    (resolveBranches r data own (Node.branchesUnplaced bs)).SameTo
      (List.map fun b => (b.1, b.2.map Node.unplaced)) (resolveBranches r data own bs) := by
  induction bs with
  | nil => rfl
  | cons b bs ih =>
    rw [List.forall_mem_cons] at h
    rw [Node.branchesUnplaced, resolveBranches, resolveBranches]
    refine .bind (resolveAll_sameTo h.1) fun as bs hab => .bind (ih h.2) fun cs ds hcd => .pure ?_
    rw [List.map_cons, List.map_cons, hab, hcd]

theorem resolve_sameTo (own : IslandNames) (n : Node) :
    (resolve r data own n.unplaced).SameTo Node.unplaced (resolve r data own n) := by
  induction n generalizing own with
  | expression code raw l =>
    rw [Node.unplaced, resolve, resolve]
    cases Expr.parse code with
    | error e => exact Resolver.failHere_sameTo _ _
    | ok e =>
      dsimp only
      split
      · exact .pure rfl
      · exact Resolver.expression_sameTo _ e code raw
  | element tag as children closing l ih =>
    rw [Node.unplaced, resolve, resolve]
    refine .bind (resolveAttributes_sameTo as) fun as bs hab => ?_
    refine .bind (resolveAll_sameTo fun n hn => ih n hn own) fun ns ms hnm => .pure ?_
    simp [Node.unplaced, Node.listUnplaced_eq, hab, hnm]
  | island strategy script children l ih =>
    rw [Node.unplaced, resolve, resolve]
    refine .bind (resolveAll_sameTo fun n hn => ih n hn _) fun ns ms hnm => .pure ?_
    simp [Node.unplaced, Node.listUnplaced_eq, hnm]
  | conditional branches alternate d l ihb iha =>
    have hbs := resolveBranches_sameTo fun b hb n hn => ihb b hb n hn own
    cases alternate with
    | none =>
      rw [Node.unplaced, resolve, resolve]
      refine .bind hbs fun bs cs h => .pure ?_
      simp [Node.unplaced, Node.listUnplaced_eq, Node.branchesUnplaced_eq, h]
    | some nodes =>
      rw [Node.unplaced, resolve, resolve]
      refine .bind hbs fun bs cs h => ?_
      refine .bind (resolveAll_sameTo fun n hn => iha nodes rfl n hn own) fun ns ms hnm => .pure ?_
      simp [Node.unplaced, Node.listUnplaced_eq, Node.branchesUnplaced_eq, h, hnm]
  | component _ _ _ _ ih | slot _ _ _ ih | loop _ _ _ _ _ ih | isolated _ _ _ _ ih
  | callerScope _ ih =>
    rw [Node.unplaced, resolve, resolve]
    refine .bind (resolveAll_sameTo fun n hn => ih n hn own) fun ns ms hnm => .pure ?_
    simp [Node.unplaced, Node.listUnplaced_eq, hnm, Attribute.unplaced]
  | text | comment | doctype | error =>
    rw [Node.unplaced, resolve, resolve]
    · exact .pure rfl
    all_goals nofun

end Interpolation

open Reported (SameTo)

theorem evaluateNodes_unplaced (mode : Mode) (data : Object) (file : String) (ns : List Node) :
    (evaluateNodes mode data file (Node.listUnplaced ns)).SameTo (List.map Node.unplaced)
      (evaluateNodes mode data file ns) := by
  have hresolve (ms : List Node) :
      (Interpolation.resolveNodes mode data file (ms.map Node.unplaced)).SameTo
        (List.map Node.unplaced) (Interpolation.resolveNodes mode data file ms) := by
    rw [← Node.listUnplaced_eq]
    exact Interpolation.resolveAll_sameTo fun n _ => Interpolation.resolve_sameTo none n
  refine .bind (ControlFlow.expandAll_sameTo fun n _ => ControlFlow.expand_sameTo _ n)
    fun as bs hab => ?_
  have has := hresolve as
  rw [hab] at has
  exact has.symm.trans (hresolve bs)

/-! ### What is written -/

theorem Markup.renderAll_unplaced_of {ns : List Node}
    (h : ∀ n ∈ ns, render n.unplaced = render n) :
    renderAll (Node.listUnplaced ns) = renderAll ns := by
  induction ns with
  | nil => rfl
  | cons n ns ih =>
    rw [List.forall_mem_cons] at h
    rw [Node.listUnplaced, renderAll, renderAll, h.1, ih h.2]

theorem Markup.render_unplaced (n : Node) : render n.unplaced = render n := by
  induction n with
  | element tag as children closing l ih =>
    have has : renderAttributes (as.map Attribute.unplaced) = renderAttributes as := by
      rw [renderAttributes, List.map_map]
      rfl
    rw [Node.unplaced, render, render, has, renderAll_unplaced_of ih]
  | slot _ _ _ ih | island _ _ _ _ ih | isolated _ _ _ _ ih | callerScope _ ih =>
    rw [Node.unplaced, render, render, renderAll_unplaced_of ih]
  | _ => rfl

theorem Markup.renderAll_congr {ns ms : List Node}
    (h : ns.map Node.unplaced = ms.map Node.unplaced) : renderAll ns = renderAll ms := by
  rw [← renderAll_unplaced_of fun n _ => render_unplaced n, Node.listUnplaced_eq, h,
    ← Node.listUnplaced_eq, renderAll_unplaced_of fun n _ => render_unplaced n]

namespace Node

variable {ns ms : List Node}

theorem childLists_unplaced (n : Node) : n.unplaced.childLists = n.childLists.map listUnplaced := by
  cases n with
  | conditional branches alternate d l =>
    cases alternate <;> simp [unplaced, childLists, branchesUnplaced_eq]
  | _ => rfl

theorem descendants_unplaced (n : Node) : n.unplaced.descendants = n.descendants.map unplaced := by
  induction n using induct_children with
  | node n ih =>
    have hlists : ∀ ns ∈ n.childLists,
        listDescendants (listUnplaced ns) = (listDescendants ns).map unplaced := by
      intro ns hns
      rw [listUnplaced_eq, listDescendants_eq, listDescendants_eq, List.flatMap_map,
        List.map_flatMap, List.flatMap_def, List.flatMap_def, List.map_congr_left (ih ns hns)]
    rw [descendants_eq, descendants_eq, childLists_unplaced, List.flatMap_map, List.map_cons,
      List.map_flatMap, List.flatMap_def, List.flatMap_def, List.map_congr_left hlists]

theorem filter_congr {p : Node → Bool} (hp : ∀ n, p n.unplaced = p n)
    (h : ns.map unplaced = ms.map unplaced) :
    (ns.filter p).map unplaced = (ms.filter p).map unplaced := by
  have hfilter (ks : List Node) : (ks.filter p).map unplaced = (ks.map unplaced).filter p := by
    rw [List.filter_map]
    exact congrArg _ (List.filter_congr fun n _ => (hp n).symm)
  rw [hfilter, hfilter, h]

theorem any_descendants_congr {p : Node → Bool} (hp : ∀ n, p n.unplaced = p n)
    (h : ns.map unplaced = ms.map unplaced) :
    (listDescendants ns).any p = (listDescendants ms).any p := by
  have hany (ks : List Node) :
      (listDescendants ks).any p = (listDescendants (ks.map unplaced)).any p := by
    simp [listDescendants_eq, List.flatMap_map, descendants_unplaced, List.any_flatMap,
      List.any_map, Function.comp_def, hp]
  rw [hany ns, h, ← hany ms]

end Node

end PageCompiler
