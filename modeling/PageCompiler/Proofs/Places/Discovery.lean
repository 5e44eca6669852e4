import PageCompiler.Proofs.Cache
import PageCompiler.Proofs.InlineComponents
import PageCompiler.Proofs.Places.Template

/-!
Where the definitions and pages of a set of documents come from. What is reported while documents
are read and put into the registry is of the document in which it is written.
-/

namespace PageCompiler

/-- A place in the source that a node tells of: its own, that of an attribute, or a line of the text
in an element, counted from where the element stands. -/
inductive Node.Tells : Node → Location → Prop
  | node : n.kind ≠ .callerScope → Tells n n.location
  | given : a ∈ n.given → Tells n a.location
  | line : i < (Text.lines (Markup.textOf children).toList).length →
      Tells (.element tag as children closing l) ⟨l.line + i, 1⟩

namespace Document

/-- The place is one in the document, or it is unknown. -/
inductive Has (doc : Document) : Location → Prop
  | unknown : Has doc .unknown
  | node : n ∈ Node.listDescendants doc.parsed.value → n.Tells l → Has doc l
  | report : d ∈ doc.parsed.diagnostics → d.location = some l → Has doc l

/-- The file is the document, or stands for an inline component in it. -/
def Names (doc : Document) (file : String) : Prop :=
  file = doc.path ∨ ∃ name, file = doc.path ++ "#" ++ name

/-- The node is in the document. -/
abbrev Writes (doc : Document) (n : Node) : Prop :=
  n ∈ Node.listDescendants doc.parsed.value

variable {doc : Document} {n : Node}

theorem at_of_writes (h : doc.Writes n) : n.At doc.Has :=
  ⟨fun hc => .node h (.node hc), fun _ ha => .node h (.given ha)⟩

theorem allAt_of_writes (h : n.Everywhere doc.Writes) : n.AllAt doc.Has :=
  h.imp fun _ => at_of_writes

theorem everywhere_writes (hn : n ∈ doc.parsed.value) : n.Everywhere doc.Writes :=
  Node.forall_listDescendants.1 (fun _ h => h) n hn

/-- The definition is written in the document. -/
structure Defines (doc : Document) (d : Definition) : Prop where
  path : doc.Names d.path
  nodes : ∀ n ∈ d.nodes, n.AllAt doc.Has

/-- The page is what is written in the document. -/
structure Shows (doc : Document) (page : Page) : Prop where
  path : page.path = doc.path
  nodes : ∀ n ∈ page.nodes, n.AllAt doc.Has

end Document

section Reports

variable {P : Diagnostic → Prop}

theorem Props.readLines_standsAt (file : String) (number : Nat) (declared : List PropDefinition)
    (lines : List (List Char)) :
    (readLines file number declared lines).Each
      (·.StandsAt file fun l => ∃ i < lines.length, l = ⟨number + i, 1⟩) := by
  induction lines generalizing number declared with
  | nil => exact Reported.each_pure _
  | cons line lines ih =>
    have hmore (declared : List PropDefinition) :
        (readLines file (number + 1) declared lines).Each
          (·.StandsAt file fun l => ∃ i < (line :: lines).length, l = ⟨number + i, 1⟩) := by
      refine fun d hd => (ih (number + 1) declared d hd).mono ?_
      rintro l ⟨i, hi, rfl⟩
      exact ⟨i + 1, Nat.succ_lt_succ hi, by rw [Nat.add_right_comm, Nat.add_assoc]⟩
    rw [readLines]
    split
    · exact hmore _
    · split
      · exact hmore _
      · refine Reported.each_bind.2 ⟨Reported.each_report.2 ?_, hmore _⟩
        exact Diagnostic.standsAt_placed ⟨0, Nat.succ_pos _, rfl⟩ _

theorem Definition.slotsAfter_standsAt (file : String) (slots : List SlotDefinition)
    {L : Location → Prop} {nodes : List Node} (h : ∀ n ∈ nodes, n.At L) :
    (slotsAfter file slots nodes).Each (·.StandsAt file L) := by
  induction nodes generalizing slots with
  | nil => exact Reported.each_pure _
  | cons n nodes ih =>
    rw [List.forall_mem_cons] at h
    cases n with
    | slot name fallback l =>
      rw [slotsAfter]
      split
      · exact Reported.each_bind.2
          ⟨Reported.each_report.2 (Diagnostic.standsAt_placed (h.1.location (by simp)) _), ih _ h.2⟩
      · exact ih _ h.2
    | _ => exact ih _ h.2

theorem Definition.ofTemplate_each (name : String) {t : Template}
    (hd : ∀ d ∈ t.findings.diagnostics, P d)
    (hp : ∀ b ∈ t.findings.props, (Props.ofBlock t.path b).Each P)
    (hs : (slotsAfter t.path [] (Node.listDescendants t.nodes)).Each P) :
    (ofTemplate name t).Each P := by
  have hrest (props : List PropDefinition) : Reported.Each P (do
      let slots ← slotsAfter t.path [] (Node.listDescendants t.nodes)
      return (⟨name, t.path, props, slots, t.nodes, t.styles, t.findings.scripts⟩ : Definition)) :=
    Reported.each_bind.2 ⟨hs, Reported.each_pure _⟩
  refine Reported.each_bind.2 ⟨(Reported.sat_reports hd).each, ?_⟩
  cases hprops : t.findings.props with
  | none => exact Reported.each_bind.2 ⟨Reported.each_pure _, hrest _⟩
  | some b => exact Reported.each_bind.2 ⟨hp b hprops, hrest _⟩

theorem Definition.ofTemplate_nodes (name : String) (t : Template) :
    (ofTemplate name t).value.nodes = t.nodes := by
  simp only [ofTemplate, Reported.value_bind]
  cases t.findings.props <;> rfl

end Reports

namespace Template

theorem directive?_props {tag : String} {as : List Attribute} {children : List Node}
    {source : String} (h : directive? tag as children = some (.props source)) :
    source = Markup.textOf children := by
  unfold directive? at h
  split at h
  · cases h
  · cases h
  · cases h
    rfl
  · cases h
  · split at h <;> cases h
  · split at h <;> cases h
  · split at h <;> cases h

variable {doc : Document} {role : Role} {path : String} {nodes : List Node}

theorem findings_ofNodes (role : Role) (path : String) (nodes : List Node) :
    (ofNodes role path nodes).findings = findingsOf path (foundInAll role nodes) := by
  unfold ofNodes
  dsimp only
  split <;> rfl

theorem exists_node_of_found {f : Finding} (hf : f ∈ foundInAll role nodes) :
    ∃ n ∈ nodes, ∃ tag as closing, .element tag as f.content closing f.location ∈ n.descendants ∧
      directive? tag as f.content = some f.directive := by
  rw [foundInAll_eq] at hf
  obtain ⟨n, hn, hf⟩ := List.mem_flatMap.1 hf
  exact ⟨n, hn, exists_element_of_found role hf⟩

/-- What is reported of directives stands where they are. -/
theorem findings_standsAt {L : Location → Prop} (role : Role) (path : String)
    (h : ∀ n ∈ nodes, n.AllAt L) :
    ∀ d ∈ (ofNodes role path nodes).findings.diagnostics, d.StandsAt path L := by
  rw [findings_ofNodes]
  refine fun d hd => ((findingsOf_at path _).diagnostics d hd).mono ?_
  rintro l ⟨f, hf, rfl⟩
  obtain ⟨n, hn, tag, as, closing, hmem, -⟩ := exists_node_of_found hf
  exact (h n hn _ hmem).location nofun

/-- What is reported of a template that is made of nodes of a document, and of its definition. -/
theorem definition_each (name : String) (h : ∀ n ∈ nodes, n.Everywhere doc.Writes) :
    (Definition.ofTemplate name (ofNodes role path nodes)).Each (·.StandsAt path doc.Has) := by
  have hat : ∀ n ∈ nodes, n.AllAt doc.Has := fun n hn => Document.allAt_of_writes (h n hn)
  have hnodes := ofNodes_allAt .unknown role path hat
  refine Definition.ofTemplate_each name (findings_standsAt role path hat) ?_ ?_
  · rw [findings_ofNodes, ofNodes_path]
    intro b hb
    obtain ⟨f, hf, hd, hl⟩ := (findingsOf_at path _).props b hb
    obtain ⟨n, hn, tag, as, closing, hmem, hdirective⟩ := exists_node_of_found hf
    rw [hd] at hdirective
    have hsource := directive?_props hdirective
    refine fun d hd => (Props.readLines_standsAt _ _ _ _ d hd).mono ?_
    rintro l ⟨i, hi, rfl⟩
    rw [← hl]
    exact .node (h n hn _ hmem) (.line (hsource ▸ hi))
  · rw [ofNodes_path]
    exact Definition.slotsAfter_standsAt _ _ (Node.forall_listDescendants.2 hnodes)

end Template

/-- The file is that of a document in which the diagnostic has its place, if it tells one. -/
def Diagnostic.Traced (documents : List Document) (d : Diagnostic) : Prop :=
  ∀ l, d.location = some l → ∃ doc ∈ documents, doc.Names d.file ∧ doc.Has l

theorem Diagnostic.StandsAt.traced {documents : List Document} {doc : Document} {file : String}
    {d : Diagnostic} (hdoc : doc ∈ documents) (hfile : doc.Names file)
    (h : d.StandsAt file doc.Has) : d.Traced documents := by
  intro l hl
  obtain ⟨rfl, hl⟩ := h l hl
  exact ⟨doc, hdoc, hfile, hl⟩

namespace Discovery

theorem exists_element_of_inlineOf {role : Role} {path : String} {nodes : List Node}
    {c : InlineComponent} (h : c ∈ inlineOf role path nodes) :
    ∃ n ∈ nodes, ∃ tag as closing, .element tag as c.nodes closing c.location ∈ n.descendants := by
  obtain ⟨n, hn, m, hm, hc⟩ := mem_inlineOf.1 h
  have hmem : m ∈ n.descendants := by
    clear hn
    induction hm with
    | here => exact Node.mem_descendants.2 (.inl rfl)
    | inside _ hns hk _ ih => exact Node.mem_descendants.2 (.inr ⟨_, hns, _, hk, ih hc⟩)
  cases m with
  | element tag as children closing l =>
    rw [Node.inline?, inlineOf?] at hc
    split at hc
    · obtain ⟨name, -, rfl⟩ := Option.map_eq_some_iff.1 hc
      exact ⟨n, hn, tag, as, closing, hmem⟩
    · cases hc
  | _ => cases hc

/-- All that is known is written in the documents. -/
structure Sourced (documents : List Document) (d : Discovery) : Prop where
  components : ∀ e ∈ d.registry.components, ∃ doc ∈ documents, doc.Defines e
  layouts : ∀ e ∈ d.registry.layouts, ∃ doc ∈ documents, doc.Defines e
  pages : ∀ page ∈ d.pages, ∃ doc ∈ documents, doc.Shows page

variable {documents : List Document} {doc : Document} (hdoc : doc ∈ documents) {d : Discovery}

theorem Sourced.register? (h : d.Sourced documents) {e : Definition} {registry : Registry}
    (hr : d.registry.register? e = some registry) (he : ∃ doc ∈ documents, doc.Defines e) :
    Sourced documents { d with registry } := by
  obtain ⟨components, hc, rfl⟩ := Option.map_eq_some_iff.1 hr
  exact ⟨Registry.forall_mem_insert? he h.components hc, h.layouts, h.pages⟩

theorem Sourced.registerLayout? (h : d.Sourced documents) {e : Definition} {registry : Registry}
    (hr : d.registry.registerLayout? e = some registry)
    (he : ∃ doc ∈ documents, doc.Defines e) :
    Sourced documents { d with registry } := by
  obtain ⟨layouts, hl, rfl⟩ := Option.map_eq_some_iff.1 hr
  exact ⟨h.components, Registry.forall_mem_insert? he h.layouts hl, h.pages⟩

theorem duplicate_traced (path name : String) : (duplicate path name).Traced documents := nofun

include hdoc in
theorem definition_sat {path : String} (hpath : doc.Names path) (name : String) (role : Role)
    {nodes : List Node} (h : ∀ n ∈ nodes, n.Everywhere doc.Writes) :
    (Definition.ofTemplate name (Template.ofNodes role path nodes)).Sat doc.Defines
      (Diagnostic.Traced documents) where
  value := by
    refine ⟨?_, ?_⟩
    · rwa [Definition.ofTemplate_path, Template.ofNodes_path]
    · rw [Definition.ofTemplate_nodes]
      exact Template.ofNodes_allAt .unknown role path fun n hn => Document.allAt_of_writes (h n hn)
  each d hd := (Template.definition_each name h d hd).traced hdoc hpath

include hdoc in
theorem addInline_sat {c : InlineComponent} (hc : ∀ n ∈ c.nodes, n.Everywhere doc.Writes)
    (h : d.Sourced documents) :
    (addInline doc.path d c).Sat (Sourced documents) (Diagnostic.Traced documents) := by
  unfold addInline
  refine .bind (definition_sat hdoc (.inr ⟨c.name, rfl⟩) c.name .component hc) fun e he => ?_
  split
  · next hr => exact .pure (h.register? hr ⟨doc, hdoc, he⟩)
  · exact .bind (Reported.sat_report (duplicate_traced _ _)) fun _ _ => .pure h

include hdoc in
theorem addInlines_sat (h : d.Sourced documents) :
    ((inlineOf (roleOf doc) doc.path doc.parsed.value).foldlM (addInline doc.path) d).Sat
      (Sourced documents) (Diagnostic.Traced documents) := by
  refine Reported.SatIf.sat (.foldlM h fun d hd c hc => .of_sat (addInline_sat hdoc ?_ hd))
  obtain ⟨n, hn, tag, as, closing, hmem⟩ := exists_element_of_inlineOf hc
  exact (Node.everywhere_element.1 ((Document.everywhere_writes hn).below hmem)).2

include hdoc in
theorem addPage_sat (hr : roleOf doc = .page) (h : d.Sourced documents) :
    (addPage doc doc.parsed.value d).Sat (Sourced documents) (Diagnostic.Traced documents) := by
  have hinline := addInlines_sat hdoc h
  rw [hr] at hinline
  refine .bind hinline fun d h => .pure ⟨h.components, h.layouts, ?_⟩
  refine List.forall_mem_append.2 ⟨h.pages, List.forall_mem_singleton.2 ⟨doc, hdoc, rfl, ?_⟩⟩
  refine forall_mem_dropInlineAll fun n hn => dropInline_everywhere ?_
    (Document.allAt_of_writes (Document.everywhere_writes hn))
  exact fun n f hn => hn.trims (Node.trims_mapChildren f n)

include hdoc in
theorem addDefinition_sat (hr : roleOf doc ≠ .page) (h : d.Sourced documents) :
    (addDefinition (roleOf doc) doc doc.parsed.value d).Sat (Sourced documents)
      (Diagnostic.Traced documents) := by
  have hinline := addInlines_sat hdoc h
  rw [inlineOf_of_ne hr] at hinline
  refine .bind hinline fun d h => ?_
  refine .bind (definition_sat hdoc (.inl rfl) doc.stem (roleOf doc)
    fun n hn => Document.everywhere_writes hn) fun e he => ?_
  have he (styles scripts : List String) : doc.Defines { e with styles, scripts } :=
    ⟨he.path, he.nodes⟩
  dsimp only
  split
  · next registry hregistry =>
    refine .pure ?_
    cases hrole : roleOf doc with
    | page => exact absurd hrole hr
    | layout =>
      rw [hrole] at hregistry
      exact h.registerLayout? hregistry ⟨doc, hdoc, he _ _⟩
    | component =>
      rw [hrole] at hregistry
      exact h.register? hregistry ⟨doc, hdoc, he _ _⟩
  · exact .bind (Reported.sat_report (duplicate_traced _ _)) fun _ _ => .pure h

include hdoc in
theorem addDocument_sat (h : d.Sourced documents) :
    (addDocument [] d doc).Sat (Sourced documents) (Diagnostic.Traced documents) := by
  have hread : doc.parsed.Sat (· = doc.parsed.value) (Diagnostic.Traced documents) := by
    refine ⟨rfl, fun d hd l hl => ⟨doc, hdoc, .inl ?_, .report hd hl⟩⟩
    exact ((Markup.parse_satIf Markup.reads_isWritten doc.markup doc.path).sat.each d hd).file
  refine .bind hread fun nodes hn => ?_
  subst hn
  have h (parsed : ParseTable) : Sourced documents { d with parsed } :=
    ⟨h.components, h.layouts, h.pages⟩
  split
  · next hr => exact addPage_sat hdoc hr (h _)
  · next hr => exact addDefinition_sat hdoc hr (h _)

end Discovery

/-- Whatever is reported while documents are read stands in one of them. -/
theorem discover_traced (documents : List Document) :
    (discover [] documents).Sat (Discovery.Sourced documents) (Diagnostic.Traced documents) := by
  have hempty : Discovery.Sourced documents .empty :=
    ⟨List.forall_mem_nil _, List.forall_mem_nil _, List.forall_mem_nil _⟩
  exact Reported.SatIf.sat (.foldlM hempty fun d hd doc hdoc =>
    .of_sat (Discovery.addDocument_sat (Discovery.mem_inOrder.1 hdoc) hd))

end PageCompiler
