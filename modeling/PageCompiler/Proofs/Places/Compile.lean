import PageCompiler.Proofs.Places.Discovery
import PageCompiler.Proofs.Places.Evaluation
import PageCompiler.Proofs.Places.Expansion

/-!
Where the diagnostics of a pass stand. Main statement: the file of a diagnostic is the document that
has its place, but for usages in a layout, for attributes that are forwarded into a component, and
for all that is found in the evaluation of a page: that is reported of the page, even if it stands
in the body of a component.
-/

namespace PageCompiler

open Json (Object)

/-- The document goes into the page: it is the page, or a layout or component is written in it. -/
inductive Document.Joins (registry : Registry) (page : Page) (doc : Document) : Prop
  | page : doc.Shows page → Joins registry page doc
  | layout : e ∈ registry.layouts → doc.Defines e → Joins registry page doc
  | component : e ∈ registry.components → doc.Defines e → Joins registry page doc

/-- How the place `l` of a diagnostic goes with its file, in a pass that selects the page. -/
inductive Diagnostic.Located (documents : List Document) (registry : Registry)
    (selected : Option Page) (d : Diagnostic) (l : Location) : Prop
  /-- The place is one of the document that the file names. -/
  | right : doc ∈ documents → doc.Names d.file → doc.Has l →
      Located documents registry selected d l
  /-- A usage in a layout is reported of the page. -/
  | inLayout : d.stage = .components → page ∈ selected → d.file = page.path → doc ∈ documents →
      e ∈ registry.layouts → doc.Defines e → doc.Has l → Located documents registry selected d l
  /-- An attribute of a usage is reported of the body into which it is forwarded. -/
  | forwarded : d.stage = .components → d.problem = .invalidPropType → e ∈ registry.components →
      d.file = e.path → page ∈ selected → origin ∈ documents → origin.Joins registry page →
      origin.Has l → Located documents registry selected d l
  /-- What is evaluated is reported of the page. -/
  | evaluated : d.stage.IsEvaluation → page ∈ selected → d.file = page.path → origin ∈ documents →
      origin.Joins registry page → origin.Has l → Located documents registry selected d l

/-- The place goes with the file, if there is one. -/
def Diagnostic.IsLocated (documents : List Document) (registry : Registry)
    (selected : Option Page) (d : Diagnostic) : Prop :=
  ∀ l, d.location = some l → d.Located documents registry selected l

section Page

variable {documents : List Document} {registry : Registry} {page : Page} {doc : Document}

theorem Diagnostic.Traced.isLocated {d : Diagnostic} (h : d.Traced documents)
    (registry : Registry) (selected : Option Page) : d.IsLocated documents registry selected := by
  intro l hl
  obtain ⟨doc, hdoc, hfile, hl⟩ := h l hl
  exact .right hdoc hfile hl

/-- A place in a document that goes into the page. -/
def IsPlace (documents : List Document) (registry : Registry) (page : Page) (l : Location) : Prop :=
  ∃ doc ∈ documents, doc.Joins registry page ∧ doc.Has l

/-- A place in one of the layouts. -/
def IsLayoutPlace (documents : List Document) (registry : Registry) (l : Location) : Prop :=
  ∃ doc ∈ documents, (∃ e ∈ registry.layouts, doc.Defines e) ∧ doc.Has l

/-- What stands in a file when components are expanded: layouts then belong to the page. -/
def StandsIn (documents : List Document) (registry : Registry) (page : Page) (file : String)
    (l : Location) : Prop :=
  (∃ doc ∈ documents, doc.Joins registry page ∧ doc.Names file ∧ doc.Has l) ∨
    file = page.path ∧ IsLayoutPlace documents registry l

/-- What may be forwarded into the file. -/
def MayReach (documents : List Document) (registry : Registry) (page : Page) (file : String)
    (l : Location) : Prop :=
  (∃ e ∈ registry.components, file = e.path) ∧ IsPlace documents registry page l

theorem StandsIn.isPlace {file : String} {l : Location}
    (h : StandsIn documents registry page file l) : IsPlace documents registry page l := by
  obtain ⟨doc, hdoc, hjoins, -, hl⟩ | ⟨-, doc, hdoc, ⟨e, he, hd⟩, hl⟩ := h
  · exact ⟨doc, hdoc, hjoins, hl⟩
  · exact ⟨doc, hdoc, .layout he hd, hl⟩

theorem accommodates (h : ∀ e ∈ registry.components, ∃ doc ∈ documents, doc.Defines e)
    (page : Page) : Component.Accommodates registry (StandsIn documents registry page)
      (MayReach documents registry page) (IsPlace documents registry page) where
  place := StandsIn.isPlace
  forwarded := And.right
  forwards he hl := ⟨⟨_, he, rfl⟩, hl⟩
  nodes he n hn := by
    obtain ⟨doc, hdoc, hd⟩ := h _ he
    exact (hd.nodes n hn).imp fun _ hat => hat.mono fun l hl =>
      .inl ⟨doc, hdoc, .component he hd, hd.path, hl⟩

theorem Component.Reports.isLocated {d : Diagnostic}
    (h : Reports (StandsIn documents registry page) (MayReach documents registry page) d) :
    d.IsLocated documents registry (some page) := by
  intro l hl
  obtain (⟨doc, hdoc, -, hfile, hl⟩ | ⟨hfile, doc, hdoc, ⟨e, he, hd⟩, hl⟩) |
    ⟨hp, ⟨e, he, hfile⟩, origin, horigin, hjoins, hl⟩ := h.place l hl
  · exact .right hdoc hfile hl
  · exact .inLayout h.stage rfl hfile hdoc he hd hl
  · exact .forwarded h.stage hp he hfile rfl horigin hjoins hl

theorem Diagnostic.OfEvaluation.isLocated {d : Diagnostic}
    (h : d.OfEvaluation page.path (IsPlace documents registry page)) :
    d.IsLocated documents registry (some page) := by
  intro l hl
  obtain ⟨hfile, origin, horigin, hjoins, hl⟩ := h.place l hl
  exact .evaluated h.stage rfl hfile horigin hjoins hl

variable {d : Discovery} (hd : d.Sourced documents) (hdoc : doc ∈ documents)
  (hp : doc.Shows page)

include hd hdoc hp in
theorem arrange_places (o : Options) :
    (arrange o d.registry page (Template.ofNodes .page page.path page.nodes)).Sat
      (fun a => ∀ n ∈ a.nodes, n.AllAt (IsPlace documents d.registry page))
      (Diagnostic.IsLocated documents d.registry (some page)) := by
  have hpage : ∀ n ∈ (Template.ofNodes .page page.path page.nodes).nodes,
      n.AllAt (StandsIn documents d.registry page page.path) := fun n hn =>
    (Template.ofNodes_allAt .unknown .page page.path hp.nodes n hn).imp fun _ hat =>
      hat.mono fun l hl => .inl ⟨doc, hdoc, .page hp, .inl hp.path, hl⟩
  have hlayout : ∀ name e, d.registry.layout? name = some e →
      ∀ n ∈ e.nodes, n.AllAt (IsLayoutPlace documents d.registry) := by
    intro name e he n hn
    have he := List.mem_of_find?_eq_some he
    obtain ⟨doc, hdoc, hdefines⟩ := hd.layouts e he
    exact (hdefines.nodes n hn).imp fun _ hat => hat.mono fun l hl =>
      ⟨doc, hdoc, ⟨e, he, hdefines⟩, hl⟩
  have haccommodates := accommodates hd.components page
  have hexpanded {ns : List Node}
      (hn : ∀ n ∈ ns, n.AllAt (StandsIn documents d.registry page page.path)) :=
    Component.expandNodes_places haccommodates o.maxComponentDepth
      fun n h => haccommodates.of_allAt (hn n h)
  unfold arrange
  split
  · next name _ =>
    refine .bind (Layout.apply_everywhere (fun x _ hx l hl => ?_) (hlayout name)
      (fun n m _ hat hm => ?_) hpage) fun applied ha => ?_
    · cases hx.symm.trans hl
    · exact (hat.trims (Node.trims_of_shell hm)).mono fun l hl => .inr ⟨rfl, hl⟩
    exact .bind (Reported.sat_reports fun x hx => ((hexpanded ha).each x hx).isLocated) fun _ _ =>
      .pure (hexpanded ha).value
  · exact .bind (.pure hpage) fun applied ha =>
      .bind (Reported.sat_reports fun x hx => ((hexpanded ha).each x hx).isLocated) fun _ _ =>
        .pure (hexpanded ha).value

include hd hdoc hp in
theorem compilePage_located (hr : d.registry.IsWritten) (hw : ∀ n ∈ page.nodes, n.IsWritten)
    (o : Options) (data : Object) :
    (compilePage o data d.registry page).Each
      (Diagnostic.IsLocated documents d.registry (some page)) := by
  have hright {x : Diagnostic} (hx : x.StandsAt page.path doc.Has) :
      x.IsLocated documents d.registry (some page) :=
    (hx.traced hdoc (.inl hp.path)).isLocated _ _
  have hfindings := Template.findings_standsAt .page page.path hp.nodes
  have harranged := arrange_places hd hdoc hp o
  have hexpanded := arrange_sat o page hr (template_isSlotless hw)
  have hfinished := finishNodes_inFile hexpanded.value harranged.value o.mode data page.path
  have hmetadata : (Interpolation.resolver o.mode page.path).Allows
      (Diagnostic.IsLocated documents d.registry (some page)) .unknown :=
    fun x _ hfile hx => hright fun l hl =>
      ⟨hfile, Option.some.inj (hx.symm.trans hl) ▸ .unknown⟩
  refine Reported.each_bind.2 ⟨(Reported.sat_reports fun x hx => hright (hfindings x hx)).each, ?_⟩
  refine Reported.each_bind.2 ⟨harranged.each, Reported.each_bind.2 ⟨?_, ?_⟩⟩
  · exact fun x hx => (hfinished x hx).isLocated
  · refine Reported.each_bind.2 ⟨(titleOf_sat hmetadata).each, ?_⟩
    exact Reported.each_bind.2 ⟨(descriptionOf_sat hmetadata).each, Reported.each_pure _⟩

theorem compilePage_empty (o : Options) (data : Object) (registry : Registry) :
    (compilePage o data registry .empty).diagnostics = [] := rfl

end Page

namespace Compiler

/-- What is told of the documents, whether or not there is a page. -/
def reported : Result → List Diagnostic
  | .ok r => r.diagnostics
  | .error (.refused ds) => ds
  | .error _ => []

theorem reported_judge (mode : Mode) (r : Reported Compiled) :
    reported (judge mode r) = r.diagnostics := by
  unfold judge
  split <;> rfl

variable {c : Compiler} {documents : List Document}

/-- A page that is not there is not reported. -/
theorem reported_compile (c : Compiler) (documents : List Document) (data : Object) :
    reported (c.compile documents data).1 =
      match selectPage c.options (discover c.cache documents).value with
      | .ok selected =>
        (pageReport c.options data (discover c.cache documents) selected).diagnostics
      | .error _ => [] := by
  cases hs : selectPage c.options (discover c.cache documents).value with
  | error e =>
    obtain ⟨path, rfl⟩ := Page.select_eq_error hs
    rw [compile_of_error hs]
    rfl
  | ok selected => rw [compile_of_ok hs, reported_judge]

theorem pageReport_located {o : Options} {selected : Option Page}
    (hs : selectPage o (discover [] documents).value = .ok selected) (data : Object) :
    (pageReport o data (discover [] documents) selected).Each
      (Diagnostic.IsLocated documents (discover [] documents).value.registry selected) := by
  have htraced := discover_traced documents
  have hwritten := discover_sat (show ParseTable.IsWritten [] from List.forall_mem_nil _) documents
  refine Reported.each_bind.2 ⟨fun x hx => (htraced.each x hx).isLocated _ _, ?_⟩
  cases selected with
  | none =>
    refine Reported.each_bind.2 ⟨List.forall_mem_singleton.2 nofun, fun x hx => ?_⟩
    rw [Page.orEmpty, Reported.value_bind, Reported.value_pure, compilePage_empty] at hx
    cases hx
  | some page =>
    have hpage : page ∈ (discover [] documents).value.pages := Page.select_mem hs
    obtain ⟨doc, hdoc, hp⟩ := htraced.value.pages page hpage
    refine Reported.each_bind.2 ⟨Reported.each_pure _, ?_⟩
    exact compilePage_located htraced.value hdoc hp hwritten.value.registry
      (hwritten.value.pages page hpage) o data

theorem reported_located (hc : c.cache.IsRightFor documents) (data : Object) {d : Diagnostic}
    (hd : d ∈ reported (c.compile documents data).1) :
    ∃ selected, selectPage c.options (discover c.cache documents).value = .ok selected ∧
      d.IsLocated documents (discover c.cache documents).value.registry selected := by
  rw [reported_compile] at hd
  rw [discover_known hc] at hd ⊢
  split at hd
  · next selected hs => exact ⟨selected, hs, pageReport_located hs data d hd⟩
  · cases hd

/-- The file of every diagnostic with a place is the document that has the place, or else the
diagnostic is one of the three kinds that are reported elsewhere. -/
theorem compile_located (hc : c.cache.IsRightFor documents) (data : Object) {d : Diagnostic}
    (hd : d ∈ reported (c.compile documents data).1) {l : Location} (hl : d.location = some l) :
    ∃ selected, selectPage c.options (discover c.cache documents).value = .ok selected ∧
      d.Located documents (discover c.cache documents).value.registry selected l := by
  obtain ⟨selected, hs, h⟩ := reported_located hc data hd
  exact ⟨selected, hs, h l hl⟩

/-- A page alone, with a name that is bound nowhere. -/
theorem compile_located_page :
    let doc := Document.ofMarkup "index.ncl" "<p>\x7b\x7b ghost \x7d\x7d</p>"
    let c := new default
    ∃ d ∈ reported (c.compile [doc] []).1, d.location = some ⟨1, 4⟩ ∧
      ∃ selected, selectPage c.options (discover c.cache [doc]).value = .ok selected ∧
        d.Located [doc] (discover c.cache [doc]).value.registry selected ⟨1, 4⟩ := by
  intro doc c
  have hreported : ∃ d ∈ reported (c.compile [doc] []).1, d.location = some ⟨1, 4⟩ := by
    decide +kernel
  obtain ⟨d, hd, hl⟩ := hreported
  exact ⟨d, hd, hl, compile_located (ParseTable.isRightFor_nil _) [] hd hl⟩

/-- A name that is bound nowhere in the body of a component is reported of the page, which has no
such place. -/
theorem compile_not_traced :
    let card := Document.ofMarkup "components/Card.ncl" "\n\n<p>\x7b\x7b ghost \x7d\x7d</p>"
    let index := Document.ofMarkup "index.ncl" "<Card/>"
    ∃ d ∈ reported ((new default).compile [card, index] []).1,
      d.file = "index.ncl" ∧ d.location = some ⟨3, 4⟩ ∧ ¬d.Traced [card, index] := by
  intro card index
  have hdiscover : discover [] [card, index] =
      [card, index].foldlM (Discovery.addDocument []) .empty := by
    rw [discover, Discovery.inOrder, List.mergeSort_of_pairwise (by decide +kernel)]
  have hreported : ∃ d ∈ reported ((new default).compile [card, index] []).1,
      d.file = "index.ncl" ∧ d.location = some ⟨3, 4⟩ := by
    rw [reported_compile, new, hdiscover]
    decide +kernel
  obtain ⟨d, hd, hfile, hl⟩ := hreported
  refine ⟨d, hd, hfile, hl, fun h => ?_⟩
  have hnodes : index.parsed.value = [.component "Card" [] [] ⟨1, 1⟩] := by
    show (Markup.parse "<Card/>" "index.ncl").value = _
    with_unfolding_all rfl
  have hclean : index.parsed.diagnostics = [] := by decide +kernel
  obtain ⟨doc, hdoc, hnames, hhas⟩ := h ⟨3, 4⟩ hl
  rw [hfile] at hnames
  obtain rfl | hdoc := List.mem_cons.1 hdoc
  · obtain h | ⟨name, h⟩ := hnames
    · exact absurd h (by decide)
    · have h := congrArg (String.toList · |>.head?) h
      simp [card, Document.ofMarkup] at h
  obtain rfl := List.mem_singleton.1 hdoc
  generalize hplace : (⟨3, 4⟩ : Location) = l at hhas
  cases hhas with
  | unknown => cases hplace
  | node hn ht =>
    rw [hnodes] at hn
    obtain rfl := List.mem_singleton.1 hn
    cases ht with
    | node => cases hplace
    | given ha => cases ha
  | report hd =>
    rw [hclean] at hd
    cases hd

/-- Where there are no components and no layouts the file of every diagnostic with a place is the
document that has the place. -/
theorem compile_traced (hc : c.cache.IsRightFor documents)
    (he : (discover c.cache documents).value.registry = .empty) (data : Object) :
    ∀ d ∈ reported (c.compile documents data).1, d.Traced documents := by
  intro d hd l hl
  obtain ⟨selected, -, h⟩ := reported_located hc data hd
  rw [he] at h
  have hjoins {page : Page} {origin : Document} (h : origin.Joins .empty page) :
      origin.Shows page := by
    cases h with
    | page h => exact h
    | layout he => cases he
    | component he => cases he
  cases h l hl with
  | right hdoc hfile hl => exact ⟨_, hdoc, hfile, hl⟩
  | inLayout _ _ _ _ he => cases he
  | forwarded _ _ he => cases he
  | evaluated _ _ hfile horigin h hl =>
    exact ⟨_, horigin, .inl (hfile.trans (hjoins h).path), hl⟩

end Compiler

end PageCompiler
