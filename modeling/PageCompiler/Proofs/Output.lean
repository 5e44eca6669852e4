import PageCompiler.Compile
import PageCompiler.Proofs.Component.Cycle
import PageCompiler.Proofs.Islands
import PageCompiler.Proofs.Layout
import PageCompiler.Proofs.Pass

/-!
The tree that is written. Main statement: whatever the documents, the data and the options are, all
nodes in it are final, so that the check before a page is written has nothing to report.
-/

namespace PageCompiler

open Json (Object)

theorem Node.IsFinal.leftover? {n : Node} (h : n.IsFinal) : n.leftover? = none := by
  cases n with
  | element | text | expression | comment | doctype | island | error => rfl
  | _ => exact h.elim

theorem verify_of_isFinal (file : String) {ns : List Node}
    (h : ∀ n ∈ ns, n.Everywhere Node.IsFinal) : verify file ns = [] := by
  refine List.filterMap_eq_nil_iff.2 fun n hn => ?_
  rw [Node.leftoverIn?, (Node.forall_listDescendants.2 h n hn).leftover?, Option.map_none]

theorem finishNodes_sat {ns : List Node} (h : ∀ n ∈ ns, n.OfKinds Node.Kind.IsExpanded)
    (mode : Mode) (data : Object) (file : String) :
    (finishNodes mode data file ns).Sat (fun r => ∀ n ∈ r.1, n.Everywhere Node.IsFinal)
      Diagnostic.IsEarly := by
  refine .bind (evaluateNodes_sat h mode data file) fun ns hns => ?_
  obtain ⟨hn, hd⟩ := Island.extractIslands_isFinal file hns
  refine .bind (Reported.sat_reports hd) fun _ _ => ?_
  rw [verify_of_isFinal file hn]
  exact .pure hn

/-- What a page can have outside of its layout, or together with it. -/
def Node.Kind.IsSlotless (k : Node.Kind) : Prop := k ≠ .slot ∧ k.IsWritten

section Page

variable {o : Options} {registry : Registry} {page : Page} {t : Template}

theorem expandComponents_sat (hr : registry.IsWritten) {ns : List Node}
    (hn : ∀ n ∈ ns, n.OfKinds Node.Kind.IsSlotless) (maxDepth : Nat) (file : String) :
    (Component.expandNodes ⟨registry, maxDepth⟩ file ns).Sat
      (∀ n ∈ ·, n.OfKinds Node.Kind.IsExpanded) Diagnostic.IsEarly := by
  have hdefs : ∀ d ∈ registry.components, ∀ n ∈ d.nodes,
      n.Fits (fun _ => True) Node.Kind.IsWritten Node.Kind.IsExpanded :=
    fun d hd n hn =>
      have hw : n.IsWritten := hr.components d hd n hn
      hw.fits fun _ hk => ⟨hk.2, hk⟩
  have h := Component.expandNodes_sat (K := (· ≠ .slot)) hdefs (fun _ hs _ => hs)
    (fun _ hc hs => ⟨hc, hs⟩) nofun nofun ⟨nofun, nofun⟩
    (Component.accounts_stage ⟨registry, maxDepth⟩ _) trivial file
    fun n h => (hn n h).fits fun _ hk => ⟨hk.2.2, hk.1⟩
  exact ⟨fun n hn => (h.value n hn).ofKinds (fun _ hc hs => ⟨hc, hs⟩) ⟨nofun, nofun⟩,
    fun d hd => by simp [h.each d hd]⟩

theorem arrange_sat (o : Options) (page : Page) (hr : registry.IsWritten)
    (ht : ∀ n ∈ t.nodes, n.OfKinds Node.Kind.IsSlotless) :
    (arrange o registry page t).Sat (fun a => ∀ n ∈ a.nodes, n.OfKinds Node.Kind.IsExpanded)
      Diagnostic.IsEarly := by
  have h {ns : List Node} (hn : ∀ n ∈ ns, n.OfKinds Node.Kind.IsSlotless) :=
    expandComponents_sat hr hn o.maxComponentDepth page.path
  unfold arrange
  split
  · next name _ =>
    have hlayout :=
      Layout.apply_sat (F := (·.kind.IsSlotless)) hr name page.path (fun _ hs hw => ⟨hs, hw⟩) ht
    exact .bind hlayout fun _ ha =>
      .bind (Reported.sat_reports (h ha).each) fun _ _ => .pure (h ha).value
  · exact .bind (.pure ht) fun _ ha =>
      .bind (Reported.sat_reports (h ha).each) fun _ _ => .pure (h ha).value

section Metadata

variable {P : Diagnostic → Prop} {data : Object} {file : String}
  (hr : (Interpolation.resolver o.mode file).Allows P .unknown)

include hr

theorem metadata_sat (value : AttributeValue) :
    (Interpolation.metadata o.mode data file value).Sat (fun _ => True) P := by
  refine .bind (Resolver.attributeValue?_sat hr _ _) fun _ _ => ?_
  split
  · exact .pure trivial
  · exact .pure trivial

theorem titleOf_sat : (titleOf o data file t).Sat (fun _ => True) P := by
  unfold titleOf
  split
  · exact metadata_sat hr _
  · exact .pure trivial

theorem descriptionOf_sat : (descriptionOf o data file t).Sat (fun _ => True) P := by
  unfold descriptionOf
  split
  · exact .bind (metadata_sat hr _) fun _ _ => .pure trivial
  · exact .pure trivial

end Metadata

/-- The tree of a page behind the extraction of islands. -/
def writtenTree (o : Options) (data : Object) (registry : Registry) (page : Page) : List Node :=
  let t := Template.ofNodes .page page.path page.nodes
  (finishNodes o.mode data page.path (arrange o registry page t).value.nodes).value.1

variable (hr : registry.IsWritten) (hp : ∀ n ∈ page.nodes, n.IsWritten)

include hp in
theorem template_isSlotless :
    ∀ n ∈ (Template.ofNodes .page page.path page.nodes).nodes,
      n.OfKinds Node.Kind.IsSlotless :=
  Template.ofNodes_ofForms (F := (·.kind.IsWritten)) (G := (·.kind.IsSlotless)) .page page.path
    ⟨nofun, nofun, nofun⟩ (fun _ hs hw => ⟨fun h => hs h rfl, hw⟩) hp

include hr hp in
theorem writtenTree_isFinal (o : Options) (data : Object) :
    ∀ n ∈ writtenTree o data registry page, n.Everywhere Node.IsFinal :=
  have ha := arrange_sat o page hr (template_isSlotless hp)
  (finishNodes_sat ha.value o.mode data page.path).value

include hr hp in
/-- The document that is written shows the tree without its doctypes. -/
theorem compilePage_sat (o : Options) (data : Object) :
    (compilePage o data registry page).Sat (fun r => ∃ shell : Shell, r.html =
      shell.document (Markup.renderAll
        ((writtenTree o data registry page).filter fun n => !n.isDoctype))) Diagnostic.IsEarly where
  value := ⟨_, rfl⟩
  each := by
    have ht := Template.ofNodes_findings (F := (·.kind.IsWritten)) .page page.path hp
    have ha := arrange_sat o page hr (template_isSlotless hp)
    have hf := finishNodes_sat ha.value o.mode data page.path
    refine Reported.each_bind.2 ⟨(Reported.sat_reports ht.early).each, ?_⟩
    refine Reported.each_bind.2 ⟨ha.each, Reported.each_bind.2 ⟨hf.each, ?_⟩⟩
    have hmetadata := Resolver.allows_isEarly
      (show (Interpolation.resolver o.mode page.path).stage ≠ .assembly by nofun) .unknown
    refine Reported.each_bind.2 ⟨(titleOf_sat hmetadata).each, ?_⟩
    exact Reported.each_bind.2 ⟨(descriptionOf_sat hmetadata).each, Reported.each_pure _⟩

end Page

namespace Page

theorem select_mem {entry : Option String} {pages : List Page} {page : Page}
    (h : select entry pages = .ok (some page)) : page ∈ pages := by
  unfold select at h
  split at h
  · exact List.mem_of_head? (Except.ok.inj h)
  · split at h
    · next hf =>
      cases h
      exact List.mem_of_find?_eq_some hf
    · cases h

theorem orEmpty_sat {selected : Option Page}
    (h : ∀ page ∈ selected, ∀ n ∈ page.nodes, n.IsWritten) :
    (orEmpty selected).Sat (fun page => ∀ n ∈ page.nodes, n.IsWritten) Diagnostic.IsEarly := by
  cases selected with
  | none => exact .bind (Reported.sat_report nofun) fun _ _ => .pure (List.forall_mem_nil _)
  | some page => exact .pure (h page rfl)

end Page

namespace Compiler

/-- A compiler behind any number of passes. -/
inductive Reachable : Compiler → Prop
  | new (o : Options) : Reachable (.new o)
  | compile (documents : List Document) (data : Object) :
    Reachable c → Reachable (c.compile documents data).2

variable {c : Compiler} {documents : List Document} {data : Object}

theorem compile_cache (hc : c.cache.IsWritten) :
    (c.compile documents data).2.cache.IsWritten := by
  unfold compile
  dsimp only
  split
  · exact hc
  · split
    · exact hc
    · exact (discover_sat hc documents).value.parsed

theorem Reachable.cache_isWritten (h : c.Reachable) : c.cache.IsWritten := by
  induction h with
  | new => exact List.forall_mem_nil _
  | compile documents data _ ih => exact compile_cache ih

/-- Every node of the tree that is written is an element, a text, a comment, a doctype or an error,
and every attribute in it is a text or a bare name. The check before a page is written has nothing
to report, and so nothing in the report of a pass comes from it. -/
theorem compile_isFinal (hc : c.Reachable) {selected : Option Page}
    (hs : Page.select c.options.entry (discover c.cache documents).value.pages = .ok selected) :
    let page := (Page.orEmpty selected).value
    let tree := writtenTree c.options data (discover c.cache documents).value.registry page
    (∀ n ∈ Node.listDescendants tree, n.IsFinal) ∧ verify page.path tree = [] ∧
    ∃ r : Reported Compiled, (c.compile documents data).1 = judge c.options.mode r ∧
      (∃ shell : Shell, r.value.html =
        shell.document (Markup.renderAll (tree.filter fun n => !n.isDoctype))) ∧
      ∀ d ∈ r.diagnostics, d.stage ≠ .assembly := by
  intro page tree
  have hd := discover_sat hc.cache_isWritten documents
  have hp := Page.orEmpty_sat fun page (h : selected = some page) =>
    hd.value.pages page (Page.select_mem (h ▸ hs))
  have hf := writtenTree_isFinal hd.value.registry hp.value c.options data
  refine ⟨Node.forall_listDescendants.2 hf, verify_of_isFinal page.path hf, ?_⟩
  have hr := compilePage_sat hd.value.registry hp.value c.options data
  let r : Reported Compiled := do
    let d ← discover c.cache documents
    compilePage c.options data d.registry (← Page.orEmpty selected)
  have hres : (c.compile documents data).1 = judge c.options.mode r := by
    simp only [compile, hs, r]
    split <;> rfl
  exact ⟨r, hres, hr.value,
    Reported.each_bind.2 ⟨hd.each, Reported.each_bind.2 ⟨hp.each, hr.each⟩⟩⟩

/-- A page with an island in a loop, compiled for the second time. -/
theorem compile_isFinal_island :
    let page := Document.ofMarkup "pages/a.html"
      "<n:for item=\"x\" in=\"xs\"><n:island><b id=\"\x7b\x7bx\x7d\x7d\"></b></n:island></n:for>"
    let c := ((new default).compile [page] []).2
    let d := (discover c.cache [page]).value
    Page.select c.options.entry d.pages = .ok d.pages.head? ∧
      ∀ n ∈ Node.listDescendants
        (writtenTree c.options [] d.registry (Page.orEmpty d.pages.head?).value), n.IsFinal := by
  intro page c d
  have hc : c.Reachable := .compile [page] [] (.new default)
  have ho : c.options.entry = none := congrArg Options.entry compile_options
  have hs : Page.select c.options.entry d.pages = .ok d.pages.head? := by rw [ho, Page.select]
  exact ⟨hs, (compile_isFinal hc hs).1⟩

end Compiler

end PageCompiler
