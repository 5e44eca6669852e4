import PageCompiler.Proofs.Erasure
import PageCompiler.Proofs.InlineComponents
import PageCompiler.Proofs.Normalization
import PageCompiler.Proofs.Output

/-!
Pages of elements, text, expressions and control flow, and of nothing else. All stages but the
evaluation leave their nodes as they are.
-/

namespace PageCompiler

open Json (Object)

/-! ### Stages that find nothing to do -/

theorem mapM_eq_pure {m : Type → Type} [Monad m] [LawfulMonad m] {α : Type} {f : α → m α}
    {as : List α} (h : ∀ a ∈ as, f a = pure a) : as.mapM f = pure as := by
  induction as with
  | nil => rfl
  | cons a as ih =>
    rw [List.forall_mem_cons] at h
    rw [List.mapM_cons, h.1, ih h.2, pure_bind, pure_bind]

namespace Node

section Stages

variable {m : Type → Type} [Monad m] [LawfulMonad m] {p : Node → Prop} {n : Node}

theorem traverse_pure (n : Node) : n.traverse (m := m) pure = pure n := by
  cases n with
  | conditional branches alternate d l =>
    have hbs : branches.mapM (m := m) (fun b => pure (b.1, b.2)) = pure branches :=
      mapM_eq_pure fun _ _ => rfl
    cases alternate <;> simp only [traverse, pure_bind, hbs]
  | text | expression | comment | doctype | error => rfl
  | _ => rw [traverse, pure_bind]

/-- A stage that only rebuilds nodes in a monad leaves them as they are. -/
theorem eq_pure_of_traverse {f : Node → m Node} {all : List Node → m (List Node)}
    (hall : ∀ ns, all ns = ns.mapM f) (hf : ∀ n, p n → f n = n.traverse all)
    (h : n.Everywhere p) : f n = pure n := by
  induction n using induct_children with
  | node n ih =>
    obtain ⟨hn, h⟩ := everywhere_iff.1 h
    have hlists : ∀ ns ∈ n.childLists, all ns = pure ns := fun ns hns =>
      (hall ns).trans (mapM_eq_pure fun m hm => ih ns hns m hm (h ns hns m hm))
    rw [hf n hn, traverse_congr hlists, traverse_pure]

end Stages

/-- Only the evaluation has something to do with such a node. -/
def IsOrdinary : Node → Prop
  | element tag as children .. => Template.directive? tag as children = none
  | slot .. | component .. | island .. | callerScope _ => False
  | _ => True

abbrev IsOrdinaryTree : Node → Prop := Everywhere IsOrdinary

theorem IsOrdinary.kind_ne {n : Node} (h : n.IsOrdinary) {k : Kind}
    (hk : k ∈ [.slot, .component, .island, .callerScope]) : n.kind ≠ k := by
  rintro rfl
  cases n <;> first | exact h.elim | simp at hk

end Node

open Node (IsOrdinary IsOrdinaryTree)

variable {n : Node} {ns : List Node}

namespace Template

theorem isKept_of_isOrdinary (role : Role) (h : n.IsOrdinary) : IsKept role n := by
  cases n with
  | slot => exact h.elim
  | element => exact h
  | _ => trivial

theorem ofNodes_of_isOrdinary (role : Role) (path : String) (h : ∀ n ∈ ns, n.IsOrdinaryTree) :
    ofNodes role path ns = ⟨path, ns, findingsOf path [], [], none⟩ :=
  ofNodes_of_isKept path fun n hn m hm => isKept_of_isOrdinary role (h n hn m hm)

end Template

namespace Discovery

theorem dropInlineAll_eq (ns : List Node) : dropInlineAll ns = ns.flatMap dropInline := by
  induction ns with
  | nil => rfl
  | cons n ns ih => rw [dropInlineAll, ih, List.flatMap_cons]

theorem inlineIn_of_isOrdinary (h : n.IsOrdinary) :
    inlineIn n = n.childLists.flatMap inlineInAll := by
  cases n with
  | element tag as children closing l =>
    have hd : Template.directive? tag as children = none := h
    rw [inlineIn, Template.inlineOf?_eq, hd]
    exact (List.append_nil _).symm
  | _ => exact inlineIn_of_ne (by simp)

theorem dropInline_of_isOrdinary (h : n.IsOrdinary) :
    dropInline n = [n.mapChildren dropInlineAll] := by
  cases n with
  | element tag as children closing l =>
    have hd : Template.directive? tag as children = none := h
    rw [dropInline, Template.inlineOf?_eq, hd]
    rfl
  | _ => exact dropInline_of_ne (by simp)

theorem addPage_of_isOrdinary (doc : Document) (d : Discovery) (h : ∀ n ∈ ns, n.IsOrdinaryTree) :
    addPage doc ns d =
      pure { d with pages := d.pages ++ [⟨doc.path, ns, doc.stylesheet, doc.script⟩] } := by
  have hinline : inlineInAll ns = [] := by
    rw [inlineInAll_eq, List.flatMap_eq_nil_iff]
    exact fun n hn => Node.eq_nil_of_childLists inlineInAll_eq (fun _ => inlineIn_of_isOrdinary)
      (h n hn)
  have hdrop : dropInlineAll ns = ns := by
    rw [dropInlineAll_eq]
    exact flatMap_eq_self fun n hn =>
      Node.eq_self_of_mapChildren dropInlineAll_eq (fun _ => dropInline_of_isOrdinary) (h n hn)
  rw [addPage, hinline, hdrop]
  rfl

end Discovery

namespace Component

variable {setting : Setting} {inside : Option ExpandBody} {site : Site}

theorem expandAll_eq (ns : List Node) :
    expandAll setting inside site ns = ns.mapM (expand setting inside site) := by
  induction ns with
  | nil => rfl
  | cons n ns ih => simp [expandAll, ih]

theorem expandNodes_of_isOrdinary (setting : Setting) (file : String)
    (h : ∀ n ∈ ns, n.IsOrdinaryTree) : expandNodes setting file ns = pure ns := by
  have hall : expandAll setting (insideBody setting setting.maxDepth) ⟨[], file⟩ ns = pure ns := by
    rw [expandAll_eq]
    exact mapM_eq_pure fun n hn => Node.eq_pure_of_traverse expandAll_eq
      (fun _ hn => expand_of_ne (hn.kind_ne (by simp)) (hn.kind_ne (by simp))) (h n hn)
  rw [expandNodes, hall]
  rfl

end Component

theorem arrange_of_isOrdinary (o : Options) (registry : Registry) (page : Page)
    (h : ∀ n ∈ ns, n.IsOrdinaryTree) :
    arrange o registry page ⟨page.path, ns, Template.findingsOf page.path [], [], none⟩ =
      pure ⟨ns, page.stylesheet.toList, page.script.toList⟩ := by
  simp only [arrange, Template.findingsOf, List.foldl_nil, pure_bind,
    Component.expandNodes_of_isOrdinary _ page.path h]
  rfl

/-! ### Islands -/

/-- No island comes from a tree without one. -/
theorem treats_islandless (r : Resolver) (K : Node.Kind → Prop) :
    r.Treats K (·.kind ≠ .island) (·.OfKinds (· ≠ .island)) (fun _ => True) where
  allows _ _ _ _ _ _ := trivial
  given _ _ _ _ _ _ _ := trivial
  error _ _ _ _ := Node.everywhere_error.2 (by simp)
  text _ _ := Node.everywhere_text.2 (by simp)
  expression _ := Node.everywhere_expression.2 (by simp)
  element _ _ hns := Node.everywhere_element.2 ⟨(by simp), hns⟩
  rebuilt hn _ hm := hm.ofForms (F := (·.kind ≠ .island)) hn

theorem evaluateNodes_islandless (mode : Mode) (data : Object) (file : String)
    (h : ∀ n ∈ ns, n.OfKinds (· ≠ .island)) :
    ∀ n ∈ (evaluateNodes mode data file ns).value, n.OfKinds (· ≠ .island) := by
  have hexpanded : (ControlFlow.expandNodes mode data file ns).Sat
      (∀ n ∈ ·, n.OfKinds (· ≠ .island)) fun _ => True :=
    ControlFlow.expandAll_sat fun n hn =>
      ControlFlow.expand_treats (treats_islandless _ _) (h n hn) _
  have hresolved : (evaluateNodes mode data file ns).Sat
      (∀ n ∈ ·, n.OfKinds (· ≠ .island)) fun _ => True :=
    .bind hexpanded fun _ hns => Interpolation.resolveAll_sat fun n hn =>
      Interpolation.resolve_treats (treats_islandless _ _) (hns n hn) _
  exact hresolved.value

theorem Island.extractIslands_of_islandless (file : String)
    (h : ∀ n ∈ ns, n.OfKinds (· ≠ .island)) : extractIslands file ns = ⟨ns, [], []⟩ := by
  have hall : Extraction.extractAll file ns = pure ns := by
    rw [Extraction.extractAll_eq]
    exact mapM_eq_pure fun n hn => Node.eq_pure_of_traverse (Extraction.extractAll_eq file)
      (fun _ hn => Extraction.extract_of_ne hn file) (h n hn)
  rw [extractIslands, hall]
  rfl

theorem finishNodes_of_isOrdinary (mode : Mode) (data : Object) (file : String)
    (h : ∀ n ∈ ns, n.IsOrdinaryTree) :
    finishNodes mode data file ns =
      (fun ms => (ms, [])) <$> evaluateNodes mode data file ns := by
  have hkinds : ∀ n ∈ ns, n.OfKinds Node.Kind.IsExpanded :=
    fun n hn m hm => ⟨(h n hn m hm).kind_ne (by simp), (h n hn m hm).kind_ne (by simp)⟩
  have hislands : ∀ n ∈ ns, n.OfKinds (· ≠ .island) :=
    fun n hn m hm => (h n hn m hm).kind_ne (by simp)
  have hextracted := Island.extractIslands_of_islandless file
    (evaluateNodes_islandless mode data file hislands)
  have hverify := verify_of_isFinal file
    (Island.extractIslands_isFinal file (evaluateNodes_sat hkinds mode data file).value).1
  rw [hextracted] at hverify
  refine Reported.ext ?_ ?_
  · simp [finishNodes, hextracted]
  · simp [finishNodes, hextracted, hverify]

/-- Ordinary nodes that are evaluated to the same up to their places. -/
structure EvaluateAlike (mode : Mode) (data : Object) (file : String) (ns ms : List Node) :
    Prop where
  left : ∀ n ∈ ns, n.IsOrdinaryTree
  right : ∀ m ∈ ms, m.IsOrdinaryTree
  evaluated : (evaluateNodes mode data file ns).SameTo (List.map Node.unplaced)
    (evaluateNodes mode data file ms)

/-- Pages of such nodes come out the same. -/
theorem compilePage_sameTo (o : Options) (data : Object) (registry : Registry) {page : Page}
    {ms : List Node} (h : EvaluateAlike o.mode data page.path page.nodes ms) :
    (compilePage o data registry page).SameTo (fun r => r)
      (compilePage o data registry { page with nodes := ms }) := by
  obtain ⟨hns, hms, h⟩ := h
  have harranged := arrange_of_isOrdinary o registry { page with nodes := ms } hms
  dsimp only at harranged
  simp only [compilePage, Template.ofNodes_of_isOrdinary .page page.path hns,
    Template.ofNodes_of_isOrdinary .page page.path hms, arrange_of_isOrdinary o registry page hns,
    harranged, pure_bind, finishNodes_of_isOrdinary o.mode data page.path hns,
    finishNodes_of_isOrdinary o.mode data page.path hms, bind_map_left]
  have hreports := Reported.SameTo.refl (f := id)
    ((Template.findingsOf page.path []).diagnostics.forM report)
  refine .bind hreports fun _ _ _ => .bind h fun as bs hab => ?_
  have hkept := Node.filter_congr (p := fun n => !n.isDoctype) (fun n => by cases n <;> rfl) hab
  have herrors := Node.any_descendants_congr (p := Node.isError) (fun n => by cases n <;> rfl) hkept
  rw [herrors, Markup.renderAll_congr hkept]
  exact .refl _

end PageCompiler
