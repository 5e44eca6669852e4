import PageCompiler.Discovery
import PageCompiler.Proofs.Template

/-!
All that is known of a set of documents is made of what is written in them, also where the reading
of a document is remembered.
-/

namespace PageCompiler

open Node (Form)

variable {F : Form → Prop} {Q : Diagnostic → Prop}

theorem readLines_each (file : String) (number : Nat) (declared : List PropDefinition)
    (lines : List (List Char)) :
    (Props.readLines file number declared lines).Each Diagnostic.IsEarly := by
  induction lines generalizing number declared with
  | nil => exact Reported.each_pure _
  | cons line lines ih =>
    rw [Props.readLines]
    split
    · exact ih _ _
    · split
      · exact ih _ _
      · exact Reported.each_bind.2 ⟨Reported.each_report.2 nofun, ih _ _⟩

namespace Definition

abbrev OfForms (F : Form → Prop) (d : Definition) : Prop := ∀ n ∈ d.nodes, n.OfForms F

theorem slotsAfter_each (file : String) (slots : List SlotDefinition) (nodes : List Node) :
    (slotsAfter file slots nodes).Each Diagnostic.IsEarly := by
  induction nodes generalizing slots with
  | nil => exact Reported.each_pure _
  | cons n nodes ih =>
    cases n with
    | slot name fallback l =>
      rw [slotsAfter]
      split
      · exact Reported.each_bind.2 ⟨Reported.each_report.2 nofun, ih _⟩
      · exact ih _
    | _ => exact ih _

theorem ofTemplate_sat (name : String) {t : Template} (hn : ∀ n ∈ t.nodes, n.OfForms F)
    (hd : ∀ d ∈ t.findings.diagnostics, d.IsEarly) :
    (ofTemplate name t).Sat (OfForms F) Diagnostic.IsEarly := by
  have hrest (props : List PropDefinition) : (do
      let slots ← slotsAfter t.path [] (Node.listDescendants t.nodes)
      return (⟨name, t.path, props, slots, t.nodes, t.styles, t.findings.scripts⟩ : Definition)).Sat
        (OfForms F) Diagnostic.IsEarly :=
    .bind ⟨trivial, slotsAfter_each _ _ _⟩ fun _ (_ : True) => .pure hn
  unfold ofTemplate
  refine .bind (Reported.sat_reports hd) fun _ _ => ?_
  cases t.findings.props with
  | none => exact hrest []
  | some block => exact .bind ⟨trivial, readLines_each _ _ _ _⟩ fun props (_ : True) => hrest props

end Definition

namespace Registry

structure OfForms (F : Form → Prop) (r : Registry) : Prop where
  components : ∀ d ∈ r.components, d.OfForms F
  layouts : ∀ d ∈ r.layouts, d.OfForms F

abbrev IsWritten : Registry → Prop := OfForms (·.kind.IsWritten)

theorem forall_mem_insert? {p : Definition → Prop} {d : Definition} {ds es : List Definition}
    (hd : p d) (hds : ∀ e ∈ ds, p e) (h : insert? d ds = some es) : ∀ e ∈ es, p e := by
  induction ds generalizing es with
  | nil =>
    cases h
    exact List.forall_mem_singleton.2 hd
  | cons e ds ih =>
    rw [insert?] at h
    split at h
    · cases h
    · split at h
      · cases h
        exact List.forall_mem_cons.2 ⟨hd, hds⟩
      · obtain ⟨fs, hfs, rfl⟩ := Option.map_eq_some_iff.1 h
        rw [List.forall_mem_cons] at hds
        exact List.forall_mem_cons.2 ⟨hds.1, ih hds.2 hfs⟩

theorem OfForms.register? {r s : Registry} {d : Definition} (h : r.OfForms F)
    (hs : r.register? d = some s) (hd : d.OfForms F) : s.OfForms F := by
  obtain ⟨ds, hds, rfl⟩ := Option.map_eq_some_iff.1 hs
  exact ⟨forall_mem_insert? hd h.components hds, h.layouts⟩

theorem OfForms.registerLayout? {r s : Registry} {d : Definition} (h : r.OfForms F)
    (hs : r.registerLayout? d = some s) (hd : d.OfForms F) : s.OfForms F := by
  obtain ⟨ds, hds, rfl⟩ := Option.map_eq_some_iff.1 hs
  exact ⟨h.components, forall_mem_insert? hd h.layouts hds⟩

end Registry

/-- What is remembered has the forms of `F` as far as `Q` holds of its report. -/
def ParseTable.OfForms (F : Form → Prop) (Q : Diagnostic → Prop) (t : ParseTable) : Prop :=
  ∀ p ∈ t, p.2.SatIf Q (∀ n ∈ ·, n.OfForms F) Diagnostic.IsEarly

abbrev ParseTable.IsWritten : ParseTable → Prop := OfForms (·.kind.IsWritten) fun _ => True

theorem ParseTable.OfForms.insert {t : ParseTable} (h : t.OfForms F Q) (key : String)
    {parsed : Reported (List Node)}
    (hp : parsed.SatIf Q (∀ n ∈ ·, n.OfForms F) Diagnostic.IsEarly) :
    (t.insert key parsed).OfForms F Q := by
  unfold ParseTable.insert
  split
  · refine List.forall_mem_map.2 fun p hpt => ?_
    dsimp only
    split
    · exact hp
    · exact h p hpt
  · exact List.forall_mem_append.2 ⟨h, List.forall_mem_singleton.2 hp⟩

namespace Discovery

structure OfForms (F : Form → Prop) (Q : Diagnostic → Prop) (d : Discovery) : Prop where
  registry : d.registry.OfForms F
  pages : ∀ page ∈ d.pages, ∀ n ∈ page.nodes, n.OfForms F
  parsed : d.parsed.OfForms F Q

abbrev IsWritten : Discovery → Prop := OfForms (·.kind.IsWritten) fun _ => True

theorem inlineInAll_eq (ns : List Node) : inlineInAll ns = ns.flatMap inlineIn := by
  induction ns with
  | nil => rfl
  | cons n ns ih => rw [inlineInAll, ih, List.flatMap_cons]

theorem inlineInBranches_eq (bs : List (String × List Node)) :
    inlineInBranches bs = (bs.map Prod.snd).flatMap inlineInAll := by
  induction bs with
  | nil => rfl
  | cons b bs ih => rw [inlineInBranches, ih, List.map_cons, List.flatMap_cons]

theorem inlineIn_of_ne {n : Node} (he : n.kind ≠ .element) :
    inlineIn n = n.childLists.flatMap inlineInAll := by
  cases n with
  | element => exact absurd rfl he
  | conditional branches alternate d l =>
    cases alternate <;> rw [inlineIn, inlineInBranches_eq] <;> simp [Node.childLists]
  | text | expression | comment | doctype | error => rfl
  | _ => exact (List.append_nil _).symm

/-- An inline component is an element of the tree. -/
theorem exists_element_of_inlineIn {n : Node} {c : InlineComponent} (h : c ∈ inlineIn n) :
    ∃ tag as closing, .element tag as c.nodes closing c.location ∈ n.descendants := by
  induction n using Node.induct_children with
  | node n ih =>
    have hchild (ns) (hns : ns ∈ n.childLists) (h : c ∈ inlineInAll ns) :
        ∃ tag as closing, .element tag as c.nodes closing c.location ∈ n.descendants := by
      rw [inlineInAll_eq] at h
      obtain ⟨m, hm, h⟩ := List.mem_flatMap.1 h
      obtain ⟨tag, as, closing, hmem⟩ := ih ns hns m hm h
      exact ⟨tag, as, closing, Node.mem_descendants.2 (.inr ⟨ns, hns, m, hm, hmem⟩)⟩
    cases n with
    | element tag as children closing l =>
      rw [inlineIn] at h
      split at h
      · next d hd =>
        obtain rfl := List.mem_singleton.1 h
        rw [inlineOf?] at hd
        split at hd
        · obtain ⟨name, -, rfl⟩ := Option.map_eq_some_iff.1 hd
          exact ⟨tag, as, closing, Node.mem_descendants.2 (.inl rfl)⟩
        · cases hd
      · exact hchild children (List.mem_singleton_self _) h
    | _ =>
      rw [inlineIn_of_ne (by nofun)] at h
      obtain ⟨ns, hns, h⟩ := List.mem_flatMap.1 h
      exact hchild ns hns h

theorem inlineIn_ofForms {n : Node} (h : n.OfForms F) :
    ∀ c ∈ inlineIn n, ∀ m ∈ c.nodes, m.OfForms F := by
  intro c hc
  obtain ⟨tag, as, closing, hmem⟩ := exists_element_of_inlineIn hc
  exact (Node.everywhere_element.1 (h.below hmem)).2

theorem forall_mem_dropInlineAll {p : Node → Prop} {ns : List Node}
    (h : ∀ n ∈ ns, ∀ m ∈ dropInline n, p m) : ∀ m ∈ dropInlineAll ns, p m := by
  induction ns with
  | nil => exact List.forall_mem_nil _
  | cons n ns ih =>
    rw [List.forall_mem_cons] at h
    exact List.forall_mem_append.2 ⟨h.1, ih h.2⟩

theorem dropInlineBranches_eq (bs : List (String × List Node)) :
    dropInlineBranches bs = bs.map fun b => (b.1, dropInlineAll b.2) := by
  induction bs with
  | nil => rfl
  | cons b bs ih => rw [dropInlineBranches, ih, List.map_cons]

theorem dropInline_of_ne {n : Node} (he : n.kind ≠ .element) :
    dropInline n = [n.mapChildren dropInlineAll] := by
  cases n with
  | element => exact absurd rfl he
  | conditional branches alternate d l =>
    cases alternate <;> rw [dropInline, dropInlineBranches_eq] <;> rfl
  | _ => rfl

theorem dropInline_everywhere {p q : Node → Prop} (hq : ∀ n f, p n → q (n.mapChildren f))
    {n : Node} (h : n.Everywhere p) : ∀ m ∈ dropInline n, m.Everywhere q := by
  induction n using Node.induct_children with
  | node n ih =>
    obtain ⟨hk, h⟩ := Node.everywhere_iff.1 h
    have hchild : ∀ ns ∈ n.childLists, ∀ m ∈ dropInlineAll ns, m.Everywhere q :=
      fun ns hns => forall_mem_dropInlineAll fun m hm => ih ns hns m hm (h ns hns m hm)
    have hkept : ∀ m ∈ [n.mapChildren dropInlineAll], m.Everywhere q :=
      List.forall_mem_singleton.2 (Node.everywhere_mapChildren (hq n _ hk) hchild)
    cases n with
    | element tag as children closing l =>
      rw [dropInline]
      split
      · exact List.forall_mem_nil _
      · exact hkept
    | _ =>
      rw [dropInline_of_ne (by nofun)]
      exact hkept

theorem dropInline_ofForms {n : Node} (h : n.OfForms F) : ∀ m ∈ dropInline n, m.OfForms F :=
  dropInline_everywhere (fun n f hn => (Node.form_mapChildren f n).symm ▸ hn) h

variable (hR : Markup.Reads F Q)

include hR in
theorem addInline_satIf (path : String) {d : Discovery} {c : InlineComponent} (h : d.OfForms F Q)
    (hc : ∀ n ∈ c.nodes, n.OfForms F) :
    (addInline path d c).SatIf Q (OfForms F Q) Diagnostic.IsEarly := by
  have ht := Template.ofNodes_findings .component (path ++ "#" ++ c.name) hc
  have hn := Template.ofNodes_ofForms .component (path ++ "#" ++ c.name)
    (hR.plain _ nofun nofun nofun) (fun _ _ h => h) hc
  unfold addInline
  refine .bind (.of_sat (Definition.ofTemplate_sat c.name hn ht.early)) fun definition hd => ?_
  split
  · next hr => exact .pure ⟨h.registry.register? hr hd, h.pages, h.parsed⟩
  · exact .bind (Reported.SatIf.report nofun) fun _ _ => .pure h

include hR in
theorem addDefinition_satIf (role : Role) (doc : Document) {nodes : List Node} {d : Discovery}
    (hn : ∀ n ∈ nodes, n.OfForms F) (h : d.OfForms F Q) :
    (addDefinition role doc nodes d).SatIf Q (OfForms F Q) Diagnostic.IsEarly := by
  have ht := Template.ofNodes_findings role doc.path hn
  have hnodes := Template.ofNodes_ofForms role doc.path (hR.plain _ nofun nofun nofun)
    (fun _ _ h => h) hn
  unfold addDefinition
  refine .bind (.foldlM h fun d hd c hc => addInline_satIf hR doc.path hd (ht.inline c hc))
    fun d h => ?_
  have hdefinition := Definition.ofTemplate_sat doc.stem hnodes ht.early
  refine .bind (.of_sat hdefinition) fun definition hd => ?_
  dsimp only
  split
  · next registry hr =>
    refine .pure ⟨?_, h.pages, h.parsed⟩
    cases role with
    | layout => exact h.registry.registerLayout? hr hd
    | page | component => exact h.registry.register? hr hd
  · exact .bind (Reported.SatIf.report nofun) fun _ _ => .pure h

include hR in
theorem addPage_satIf (doc : Document) {nodes : List Node} {d : Discovery}
    (hn : ∀ n ∈ nodes, n.OfForms F) (h : d.OfForms F Q) :
    (addPage doc nodes d).SatIf Q (OfForms F Q) Diagnostic.IsEarly := by
  have hinline : ∀ c ∈ inlineInAll nodes, ∀ m ∈ c.nodes, m.OfForms F := by
    rw [inlineInAll_eq]
    exact List.forall_mem_flatMap.2 fun n h => inlineIn_ofForms (hn n h)
  have hpage := forall_mem_dropInlineAll fun n h => dropInline_ofForms (hn n h)
  refine .bind (.foldlM h fun d hd c hc => addInline_satIf hR doc.path hd (hinline c hc))
    fun d h => .pure ⟨h.registry, ?_, h.parsed⟩
  exact List.forall_mem_append.2 ⟨h.pages, List.forall_mem_singleton.2 hpage⟩

include hR in
theorem addDocument_satIf {known : ParseTable} (hk : known.OfForms F Q) {d : Discovery}
    (h : d.OfForms F Q) (doc : Document) :
    (addDocument known d doc).SatIf Q (OfForms F Q) Diagnostic.IsEarly := by
  have hp : ((known.lookup doc.hash).getD (Markup.parse doc.markup doc.path)).SatIf Q
      (∀ n ∈ ·, n.OfForms F) Diagnostic.IsEarly := by
    cases hl : known.lookup doc.hash with
    | none => exact (Markup.parse_satIf hR doc.markup doc.path).imp fun _ h => h.isEarly
    | some parsed =>
      obtain ⟨before, after, rfl, -⟩ := List.lookup_eq_some_iff.1 hl
      exact hk (doc.hash, parsed) (List.mem_append_right _ List.mem_cons_self)
  refine .bind hp fun nodes hn => ?_
  have hd : OfForms F Q { d with parsed := d.parsed.insert doc.hash _ } :=
    ⟨h.registry, h.pages, h.parsed.insert doc.hash hp⟩
  split
  · exact addPage_satIf hR doc hn hd
  · exact addDefinition_satIf hR _ doc hn hd

end Discovery

/-- Discovery knows what is written in the documents, and nothing else. -/
theorem discover_satIf (hR : Markup.Reads F Q) {known : ParseTable} (hk : known.OfForms F Q)
    (documents : List Document) :
    (discover known documents).SatIf Q (Discovery.OfForms F Q) Diagnostic.IsEarly :=
  .foldlM
    ⟨⟨List.forall_mem_nil _, List.forall_mem_nil _⟩, List.forall_mem_nil _, List.forall_mem_nil _⟩
    fun _ hd doc _ => Discovery.addDocument_satIf hR hk hd doc

theorem discover_sat {known : ParseTable} (hk : known.IsWritten) (documents : List Document) :
    (discover known documents).Sat Discovery.IsWritten Diagnostic.IsEarly :=
  (discover_satIf Markup.reads_isWritten hk documents).sat

/-! ### What holds of every definition -/

/-- All definitions have the property `p`. -/
structure Registry.Each (p : Definition → Prop) (r : Registry) : Prop where
  components : ∀ d ∈ r.components, p d
  layouts : ∀ d ∈ r.layouts, p d

section Each

variable {p : Definition → Prop} {r s : Registry} {d : Definition}

theorem Registry.Each.register? (h : r.Each p) (hs : r.register? d = some s) (hd : p d) :
    s.Each p := by
  obtain ⟨ds, hds, rfl⟩ := Option.map_eq_some_iff.1 hs
  exact ⟨forall_mem_insert? hd h.components hds, h.layouts⟩

theorem Registry.Each.registerLayout? (h : r.Each p) (hs : r.registerLayout? d = some s)
    (hd : p d) : s.Each p := by
  obtain ⟨ds, hds, rfl⟩ := Option.map_eq_some_iff.1 hs
  exact ⟨h.components, forall_mem_insert? hd h.layouts hds⟩

variable (hof : ∀ name t, p (Definition.ofTemplate name t).value)

include hof in
theorem Discovery.addInline_each (path : String) {d : Discovery} (h : d.registry.Each p)
    (c : InlineComponent) : (addInline path d c).value.registry.Each p := by
  simp only [addInline, Reported.value_bind]
  split
  · next hr => exact h.register? hr (hof _ _)
  · exact h

include hof in
theorem Discovery.addInlines_each (path : String) {d : Discovery} (h : d.registry.Each p)
    (cs : List InlineComponent) : (cs.foldlM (addInline path) d).value.registry.Each p := by
  induction cs generalizing d with
  | nil => exact h
  | cons c cs ih => exact ih (addInline_each hof path h c)

include hof in
theorem Discovery.addPage_each (doc : Document) (nodes : List Node) {d : Discovery}
    (h : d.registry.Each p) : (addPage doc nodes d).value.registry.Each p :=
  addInlines_each hof doc.path h (inlineInAll nodes)

variable (hwith : ∀ d styles scripts, p d → p { d with styles, scripts })

include hof hwith in
theorem Discovery.addDefinition_each (role : Role) (doc : Document) (nodes : List Node)
    {d : Discovery} (h : d.registry.Each p) :
    (addDefinition role doc nodes d).value.registry.Each p := by
  have hinline := addInlines_each hof doc.path h
    (Template.ofNodes role doc.path nodes).findings.inlineComponents
  have hdefinition (styles scripts : List String) :=
    hwith _ styles scripts (hof doc.stem (Template.ofNodes role doc.path nodes))
  simp only [addDefinition, Reported.value_bind]
  split
  · next registry hr =>
    cases role with
    | layout => exact hinline.registerLayout? hr (hdefinition _ _)
    | page | component => exact hinline.register? hr (hdefinition _ _)
  · exact hinline

include hof hwith in
theorem Discovery.addDocument_each (known : ParseTable) {d : Discovery} (h : d.registry.Each p)
    (doc : Document) : (addDocument known d doc).value.registry.Each p := by
  simp only [addDocument, Reported.value_bind]
  split
  · exact addPage_each hof doc _ h
  · exact addDefinition_each hof hwith _ doc _ h

include hof hwith in
/-- What holds of the definition of any template holds of every definition that is discovered. -/
theorem discover_each (known : ParseTable) (documents : List Document) :
    (discover known documents).value.registry.Each p := by
  have hfold (ds : List Document) (d : Discovery) (h : d.registry.Each p) :
      (ds.foldlM (Discovery.addDocument known) d).value.registry.Each p := by
    induction ds generalizing d with
    | nil => exact h
    | cons doc ds ih => exact ih _ (Discovery.addDocument_each hof hwith known h doc)
  exact hfold _ _ ⟨List.forall_mem_nil _, List.forall_mem_nil _⟩

end Each

/-- The declared slots are those that there are places for. -/
def Definition.DeclaresPlaces (d : Definition) : Prop :=
  ∀ name, (∃ s ∈ d.slots, s.name = name) ↔
    ∃ fallback l, Node.slot name fallback l ∈ Node.listDescendants d.nodes

namespace Definition

theorem mem_slotsAfter {file : String} {slots : List SlotDefinition} {nodes : List Node}
    {name : Option String} :
    (∃ s ∈ (slotsAfter file slots nodes).value, s.name = name) ↔
      (∃ s ∈ slots, s.name = name) ∨ ∃ fallback l, Node.slot name fallback l ∈ nodes := by
  induction nodes generalizing slots with
  | nil => simp [slotsAfter]
  | cons n nodes ih =>
    cases n with
    | slot other fallback l =>
      have hcons : (∃ f l', Node.slot name f l' ∈ Node.slot other fallback l :: nodes) ↔
          other = name ∨ ∃ f l', Node.slot name f l' ∈ nodes := by
        simp only [List.mem_cons, Node.slot.injEq, exists_or]
        simp [eq_comm]
      rw [slotsAfter, hcons, ← or_assoc]
      split
      · next hany =>
        have hany : ∃ s ∈ slots, s.name = other := by simpa using hany
        rw [Reported.value_bind, ih, or_iff_left_of_imp (b := other = name) (· ▸ hany)]
      · rw [ih]
        simp [or_and_right, exists_or]
    | _ => simp [slotsAfter, ih]

theorem declaresPlaces_ofTemplate (name : String) (t : Template) :
    (ofTemplate name t).value.DeclaresPlaces := by
  obtain ⟨props, hvalue⟩ : ∃ props, (ofTemplate name t).value = ⟨name, t.path, props,
      (slotsAfter t.path [] (Node.listDescendants t.nodes)).value, t.nodes, t.styles,
      t.findings.scripts⟩ := by
    simp only [ofTemplate, Reported.value_bind]
    cases t.findings.props <;> exact ⟨_, rfl⟩
  rw [hvalue]
  exact fun slot => mem_slotsAfter.trans (or_iff_right (by simp))

end Definition

theorem discover_declaresPlaces (known : ParseTable) (documents : List Document) :
    (discover known documents).value.registry.Each Definition.DeclaresPlaces :=
  discover_each Definition.declaresPlaces_ofTemplate (fun _ _ _ h => h) known documents

end PageCompiler
