import PageCompiler.Proofs.Discovery

/-!
Inline components. Main statement: each block with a name that no other block and no text element
stands around is registered, or reported as a second definition of its name. A block inside of
another one is lost, as only such blocks and the documents of components are registered.
-/

namespace PageCompiler

/-- A node stands below another one, and none of the nodes around it, up to that one, closes. -/
inductive Node.Exposes (closes : Node → Prop) : Node → Node → Prop
  | here : Exposes closes n n
  | inside : ¬closes n → ns ∈ n.childLists → k ∈ ns → Exposes closes k m → Exposes closes n m

section Exposes

variable {closes : Node → Prop} {n m : Node}

theorem Node.exposes_of_closes (h : closes n) : n.Exposes closes m ↔ m = n := by
  refine ⟨fun hm => ?_, fun hm => hm ▸ .here⟩
  cases hm with
  | here => rfl
  | inside hn => exact absurd h hn

theorem Node.exposes_of_not_closes (h : ¬closes n) :
    n.Exposes closes m ↔ m = n ∨ ∃ ns ∈ n.childLists, ∃ k ∈ ns, k.Exposes closes m := by
  constructor
  · intro hm
    cases hm with
    | here => exact .inl rfl
    | inside _ hns hk hm => exact .inr ⟨_, hns, _, hk, hm⟩
  · rintro (rfl | ⟨ns, hns, k, hk, hm⟩)
    · exact .here
    · exact .inside h hns hk hm

end Exposes

/-- What reading a document gives, or has given before. -/
def Document.reading (known : ParseTable) (d : Document) : Reported (List Node) :=
  (known.lookup d.hash).getD (Markup.parse d.markup d.path)

/-- The inline component that a node is. It needs a name. -/
def Node.inline? : Node → Option InlineComponent
  | element tag as children _ l => Discovery.inlineOf? tag as children l
  | _ => none

namespace Template

def Finding.inline? (f : Finding) : Option InlineComponent :=
  match f.directive with
  | .component (some name) => some ⟨name, f.content, f.location⟩
  | _ => none

theorem Finding.inline?_of_keepsContent {f : Finding} (h : f.directive.keepsContent) :
    f.inline? = none := by
  obtain ⟨directive, content, l⟩ := f
  cases directive with
  | component => cases h
  | _ => rfl

/-- Pages and other documents tell inline components in the same way. -/
theorem inlineOf?_eq (tag : String) (as : List Attribute) (children : List Node) (l : Location) :
    Discovery.inlineOf? tag as children l =
      (directive? tag as children).bind fun d => Finding.inline? ⟨d, children, l⟩ := by
  have htag : Text.eqIgnoringAsciiCase tag "n:component" ↔ Markup.asciiLower tag = "n:component" :=
    eqIgnoringAsciiCase_iff
  rw [Discovery.inlineOf?, directive?]
  split
  · next h =>
    rw [htag.1 h]
    cases staticName? as <;> rfl
  · next h =>
    rw [htag] at h
    split
    · rfl
    · rfl
    · rfl
    · next hc => exact absurd hc h
    all_goals split <;> rfl

theorem inlineComponents_addTo (path : String) (fs : Findings) (f : Finding) :
    (f.addTo path fs).inlineComponents = fs.inlineComponents ++ f.inline?.toList := by
  obtain ⟨directive, content, l⟩ := f
  have hif (b : Bool) (gs hs : Findings) (hg : gs.inlineComponents = fs.inlineComponents)
      (hh : hs.inlineComponents = fs.inlineComponents) :
      (if b then gs else hs).inlineComponents = fs.inlineComponents ++ [] := by
    cases b <;> simp [hg, hh]
  cases directive with
  | view | props | style | script => exact hif _ _ _ rfl rfl
  | layout name => cases name <;> exact (List.append_nil _).symm
  | component name =>
    cases name with
    | some name => rfl
    | none => exact (List.append_nil _).symm
  | scopedStyle | unknown => exact (List.append_nil _).symm

theorem inlineComponents_findingsOf (path : String) (found : List Finding) :
    (findingsOf path found).inlineComponents = found.filterMap Finding.inline? := by
  suffices h : ∀ fs : Findings, (found.foldl (Finding.addTo path) fs).inlineComponents =
      fs.inlineComponents ++ found.filterMap Finding.inline? from (h _).trans (List.nil_append _)
  induction found with
  | nil => exact fun fs => (List.append_nil _).symm
  | cons f found ih =>
    intro fs
    rw [List.foldl_cons, ih, inlineComponents_addTo]
    cases hf : f.inline? <;> simp [hf]

theorem ofNodes_path (role : Role) (path : String) (nodes : List Node) :
    (ofNodes role path nodes).path = path := by
  unfold ofNodes
  dsimp only
  split <;> rfl

theorem inlineComponents_ofNodes (role : Role) (path : String) (nodes : List Node) :
    (ofNodes role path nodes).findings.inlineComponents =
      nodes.flatMap fun n => (found role n).filterMap Finding.inline? := by
  have h : (ofNodes role path nodes).findings = findingsOf path (foundInAll role nodes) := by
    unfold ofNodes
    dsimp only
    split <;> rfl
  rw [h, inlineComponents_findingsOf, foundInAll_eq, List.filterMap_flatMap]

end Template

namespace Discovery

open Template (Finding)

/-- The content of the node is taken out of the document together with the node. Of a page only
the components with names are taken. -/
def TakesContent (role : Role) : Node → Prop
  | .element tag as children _ l =>
    match role with
    | .page => (inlineOf? tag as children l).isSome
    | _ => ∃ d ∈ Template.directive? tag as children, d.keepsContent = false
  | _ => False

theorem takesContent_iff {role : Role} (hr : role ≠ .page) {tag : String} {as : List Attribute}
    {children : List Node} {closing : Bool} {l : Location} :
    TakesContent role (.element tag as children closing l) ↔
      ∃ d ∈ Template.directive? tag as children, d.keepsContent = false := by
  cases role with
  | page => exact absurd rfl hr
  | component | layout => exact .rfl

theorem not_takesContent {n : Node} (he : n.kind ≠ .element) (role : Role) :
    ¬TakesContent role n := by
  cases n with
  | element => exact absurd rfl he
  | _ => exact id

theorem inline?_of_not_takesContent {role : Role} {n : Node} (h : ¬TakesContent role n) :
    n.inline? = none := by
  cases n with
  | element tag as children closing l =>
    by_cases hr : role = .page
    · subst hr
      exact Option.not_isSome_iff_eq_none.1 h
    · rw [takesContent_iff hr] at h
      rw [Node.inline?, Template.inlineOf?_eq]
      cases hd : Template.directive? tag as children with
      | none => rfl
      | some d => exact Finding.inline?_of_keepsContent (by simpa [hd] using h)
  | _ => rfl

section Exposed

variable {role : Role} {n : Node} {c : InlineComponent}

/-- The node is around the inline component, or is it, and shows it to the document. -/
abbrev ShowsInline (role : Role) (c : InlineComponent) (n : Node) : Prop :=
  ∃ m, n.Exposes (TakesContent role) m ∧ m.inline? = some c

theorem showsInline_of_takesContent (h : TakesContent role n) :
    ShowsInline role c n ↔ n.inline? = some c := by
  simp [ShowsInline, Node.exposes_of_closes h]

theorem showsInline_of_not_takesContent (h : ¬TakesContent role n) :
    ShowsInline role c n ↔ ∃ ns ∈ n.childLists, ∃ k ∈ ns, ShowsInline role c k := by
  have hn := inline?_of_not_takesContent h
  simp only [ShowsInline, Node.exposes_of_not_closes h, or_and_right, exists_or, exists_eq_left,
    hn, reduceCtorEq, false_or]
  grind

theorem mem_inlineIn : c ∈ inlineIn n ↔ ShowsInline .page c n := by
  induction n using Node.induct_children with
  | node n ih =>
    have hchild : ∀ ns ∈ n.childLists, (c ∈ inlineInAll ns ↔ ∃ k ∈ ns, ShowsInline .page c k) := by
      intro ns hns
      rw [inlineInAll_eq, List.mem_flatMap]
      exact exists_congr fun k => and_congr_right fun hk => ih ns hns k hk
    cases n with
    | element tag as children closing l =>
      have hchild := hchild children (List.mem_singleton_self _)
      rw [inlineIn]
      split
      · next d hd =>
        have htakes : TakesContent .page (.element tag as children closing l) :=
          Option.isSome_iff_exists.2 ⟨d, hd⟩
        rw [showsInline_of_takesContent htakes, Node.inline?, hd]
        simp [eq_comm]
      · next hd =>
        rw [showsInline_of_not_takesContent (by simp [TakesContent, hd]), hchild]
        simp [Node.childLists]
    | _ =>
      rw [inlineIn_of_ne (by simp), List.mem_flatMap,
        showsInline_of_not_takesContent (not_takesContent (by simp) _)]
      exact exists_congr fun ns => and_congr_right fun hns => hchild ns hns

theorem mem_found (hr : role ≠ .page) :
    c ∈ (Template.found role n).filterMap Finding.inline? ↔ ShowsInline role c n := by
  induction n using Node.induct_children with
  | node n ih =>
    have hchild : ∀ ns ∈ n.childLists,
        (c ∈ (Template.foundInAll role ns).filterMap Finding.inline? ↔
          ∃ k ∈ ns, ShowsInline role c k) := by
      intro ns hns
      rw [Template.foundInAll_eq, List.filterMap_flatMap, List.mem_flatMap]
      exact exists_congr fun k => and_congr_right fun hk => ih ns hns k hk
    have hopen (h : ¬TakesContent role n) :
        c ∈ (n.childLists.flatMap (Template.foundInAll role)).filterMap Finding.inline? ↔
          ShowsInline role c n := by
      rw [List.filterMap_flatMap, List.mem_flatMap, showsInline_of_not_takesContent h]
      exact exists_congr fun ns => and_congr_right fun hns => hchild ns hns
    cases n with
    | element tag as children closing l =>
      simp only [Node.childLists, List.flatMap_singleton, takesContent_iff hr] at hopen
      rw [Template.found]
      split
      · next d hd =>
        cases hk : d.keepsContent with
        | true =>
          have hd' : Finding.inline? ⟨d, children, l⟩ = none := Finding.inline?_of_keepsContent hk
          rw [← hopen (by simp [hd, hk])]
          simp [hd']
        | false =>
          rw [showsInline_of_takesContent ((takesContent_iff hr).2 ⟨d, hd, hk⟩), Node.inline?,
            Template.inlineOf?_eq, hd]
          simp
      · next hd => exact hopen (by simp [hd])
    | slot name fallback l =>
      rw [← hopen (not_takesContent (by simp) _)]
      cases role with
      | page => exact absurd rfl hr
      | component | layout => simp [Template.found, Node.childLists]
    | _ =>
      rw [Template.found_of_ne (by simp) (by simp)]
      exact hopen (not_takesContent (by simp) _)

end Exposed

/-- The inline components that are collected from a document. -/
def inlineOf (role : Role) (path : String) (nodes : List Node) : List InlineComponent :=
  match role with
  | .page => inlineInAll nodes
  | role => (Template.ofNodes role path nodes).findings.inlineComponents

theorem inlineOf_of_ne {role : Role} (hr : role ≠ .page) (path : String) (nodes : List Node) :
    inlineOf role path nodes = (Template.ofNodes role path nodes).findings.inlineComponents := by
  cases role with
  | page => exact absurd rfl hr
  | component | layout => rfl

theorem mem_inlineOf {role : Role} {path : String} {nodes : List Node} {c : InlineComponent} :
    c ∈ inlineOf role path nodes ↔ ∃ n ∈ nodes, ShowsInline role c n := by
  cases role with
  | page =>
    rw [inlineOf, inlineInAll_eq, List.mem_flatMap]
    exact exists_congr fun n => and_congr_right fun _ => mem_inlineIn
  | component | layout =>
    refine Eq.to_iff (congrArg (c ∈ ·) (Template.inlineComponents_ofNodes _ path nodes)) |>.trans ?_
    rw [List.mem_flatMap]
    exact exists_congr fun n => and_congr_right fun _ => mem_found nofun

end Discovery

namespace Registry

section Insert

variable {d : Definition} {ds es : List Definition}

theorem mem_insert? (h : insert? d ds = some es) {e : Definition} : e ∈ es ↔ e = d ∨ e ∈ ds := by
  induction ds generalizing es with
  | nil =>
    cases h
    simp
  | cons f ds ih =>
    rw [insert?] at h
    split at h
    · cases h
    · split at h
      · cases h
        exact List.mem_cons
      · obtain ⟨fs, hfs, rfl⟩ := Option.map_eq_some_iff.1 h
        simp only [List.mem_cons, ih hfs, or_left_comm]

theorem exists_name_of_insert?_eq_none (h : insert? d ds = none) : ∃ e ∈ ds, e.name = d.name := by
  induction ds with
  | nil => cases h
  | cons f ds ih =>
    rw [insert?] at h
    split at h
    · next hf => exact ⟨f, List.mem_cons_self, hf⟩
    · split at h
      · cases h
      · obtain ⟨e, he, hname⟩ := ih (Option.map_eq_none_iff.1 h)
        exact ⟨e, List.mem_cons_of_mem f he, hname⟩

theorem mem_register? {r s : Registry} (h : r.register? d = some s) {e : Definition} :
    e ∈ s.components ↔ e = d ∨ e ∈ r.components := by
  obtain ⟨ds, hds, rfl⟩ := Option.map_eq_some_iff.1 h
  exact mem_insert? hds

theorem components_registerLayout? {r s : Registry} (h : r.registerLayout? d = some s) :
    s.components = r.components := by
  obtain ⟨ds, -, rfl⟩ := Option.map_eq_some_iff.1 h
  rfl

end Insert

end Registry

theorem Definition.ofTemplate_name (name : String) (t : Template) :
    (ofTemplate name t).value.name = name := by
  simp only [ofTemplate, Reported.value_bind]
  cases t.findings.props <;> rfl

theorem Definition.ofTemplate_path (name : String) (t : Template) :
    (ofTemplate name t).value.path = t.path := by
  simp only [ofTemplate, Reported.value_bind]
  cases t.findings.props <;> rfl

namespace Discovery

/-- The definition that an inline component of a document makes. -/
def inlineDefinition (path : String) (c : InlineComponent) : Reported Definition :=
  Definition.ofTemplate c.name (Template.ofNodes .component (path ++ "#" ++ c.name) c.nodes)

/-- From `d` to `e` no component is lost, and those that come to it have `p`. -/
structure Adds (p : Definition → Prop) (d e : Discovery) : Prop where
  kept : ∀ c ∈ d.registry.components, c ∈ e.registry.components
  added : ∀ c ∈ e.registry.components, c ∈ d.registry.components ∨ p c

/-- A component has the name of the inline component: it is the one made of it, or else the name is
reported. -/
def Settles (path : String) (c : InlineComponent) (r : Reported Discovery) : Prop :=
  ∃ e ∈ r.value.registry.components, e.name = c.name ∧
    (e = (inlineDefinition path c).value ∨ duplicate path c.name ∈ r.diagnostics)

section Adds

variable {α : Type} {p q : Definition → Prop} {d e f : Discovery} {r : Reported Discovery}
  {path : String} {c : InlineComponent}

theorem Adds.same (h : e.registry.components = d.registry.components) : Adds p d e :=
  ⟨fun _ hc => h ▸ hc, fun _ hc => .inl (h ▸ hc)⟩

theorem Adds.mono (h : Adds p d e) (hp : ∀ c, p c → q c) : Adds q d e :=
  ⟨h.kept, fun c hc => (h.added c hc).imp_right (hp c)⟩

theorem Adds.trans (hd : Adds p d e) (he : Adds p e f) : Adds p d f where
  kept c hc := he.kept c (hd.kept c hc)
  added c hc := (he.added c hc).elim (hd.added c) .inr

theorem Adds.register? {x : Definition} {registry : Registry} (hp : p x)
    (h : d.registry.register? x = some registry) : Adds p d { d with registry } where
  kept _ hc := (Registry.mem_register? h).2 (.inr hc)
  added c hc := by
    obtain rfl | hc := (Registry.mem_register? h).1 hc
    · exact .inr hp
    · exact .inl hc

theorem Adds.registerLayout? {x : Definition} {registry : Registry}
    (h : d.registry.registerLayout? x = some registry) : Adds p d { d with registry } :=
  .same (Registry.components_registerLayout? h)

theorem Adds.foldlM {f : Discovery → α → Reported Discovery} {xs : List α}
    (hf : ∀ x ∈ xs, ∀ d, Adds p d (f d x).value) (d : Discovery) :
    Adds p d (xs.foldlM f d).value := by
  induction xs generalizing d with
  | nil => exact .same rfl
  | cons x xs ih =>
    rw [List.forall_mem_cons] at hf
    exact (hf.1 d).trans (ih hf.2 _)

/-- What is settled stays so while components are only added. -/
theorem Settles.bind_left {f : Discovery → Reported Discovery} (hr : Settles path c r)
    (hf : Adds p r.value (f r.value).value) : Settles path c (r >>= f) := by
  obtain ⟨e, he, hname, h⟩ := hr
  exact ⟨e, hf.kept e he, hname, h.imp_right (List.mem_append_left _)⟩

theorem Settles.bind_right {r : Reported α} {f : α → Reported Discovery}
    (hf : Settles path c (f r.value)) : Settles path c (r >>= f) := by
  obtain ⟨e, he, hname, h⟩ := hf
  exact ⟨e, he, hname, h.imp_right (List.mem_append_right _)⟩

theorem Settles.foldlM {f : Discovery → α → Reported Discovery} {xs : List α}
    (hf : ∀ x ∈ xs, ∀ d, Adds p d (f d x).value) {x : α} (hx : x ∈ xs)
    (hs : ∀ d, Settles path c (f d x)) (d : Discovery) : Settles path c (xs.foldlM f d) := by
  induction xs generalizing d with
  | nil => cases hx
  | cons y xs ih =>
    rw [List.forall_mem_cons] at hf
    obtain rfl | hx := List.mem_cons.1 hx
    · exact (hs d).bind_left (.foldlM hf.2 _)
    · exact .bind_right (ih hf.2 hx _)

end Adds

theorem addInline_cases (path : String) (d : Discovery) (c : InlineComponent) :
    (∃ registry, d.registry.register? (inlineDefinition path c).value = some registry ∧
      (addInline path d c).value = { d with registry }) ∨
    d.registry.register? (inlineDefinition path c).value = none ∧
      (addInline path d c).value = d ∧
      duplicate path c.name ∈ (addInline path d c).diagnostics := by
  cases h : d.registry.register? (inlineDefinition path c).value with
  | some registry =>
    refine .inl ⟨registry, rfl, ?_⟩
    rw [inlineDefinition] at h
    simp only [addInline, Reported.value_bind, h, Reported.value_pure]
  | none =>
    rw [inlineDefinition] at h
    refine .inr ⟨rfl, ?_, ?_⟩
    · simp only [addInline, Reported.value_bind, h, Reported.value_pure]
    · simp only [addInline, Reported.diagnostics_bind, h]
      exact List.mem_append_right _ (List.mem_append_left _ (List.mem_singleton_self _))

theorem addInline_adds (path : String) (d : Discovery) (c : InlineComponent) :
    Adds (· = (inlineDefinition path c).value) d (addInline path d c).value := by
  obtain ⟨registry, hr, hv⟩ | ⟨-, hv, -⟩ := addInline_cases path d c
  · exact hv ▸ .register? rfl hr
  · exact .same (by rw [hv])

theorem addInline_settles (path : String) (d : Discovery) (c : InlineComponent) :
    Settles path c (addInline path d c) := by
  have hname : (inlineDefinition path c).value.name = c.name := Definition.ofTemplate_name _ _
  obtain ⟨registry, hr, hv⟩ | ⟨hr, hv, hd⟩ := addInline_cases path d c
  · refine ⟨_, ?_, hname, .inl rfl⟩
    rw [hv]
    exact (Registry.mem_register? hr).2 (.inl rfl)
  · obtain ⟨e, he, heq⟩ := Registry.exists_name_of_insert?_eq_none (Option.map_eq_none_iff.1 hr)
    refine ⟨e, ?_, heq.trans hname, .inr hd⟩
    rw [hv]
    exact he

/-- A component of its own file, or one that is written inside of a document. -/
inductive DefinedIn (known : ParseTable) (doc : Document) : Definition → Prop
  | file : roleOf doc = .component → e.name = doc.stem → e.path = doc.path → DefinedIn known doc e
  | inline : c ∈ inlineOf (roleOf doc) doc.path (doc.reading known).value →
      DefinedIn known doc (inlineDefinition doc.path c).value

/-- From `d` on a document has been gone through. -/
structure Collects (known : ParseTable) (doc : Document) (d : Discovery) (r : Reported Discovery) :
    Prop where
  adds : Adds (DefinedIn known doc) d r.value
  settles : ∀ c ∈ inlineOf (roleOf doc) doc.path (doc.reading known).value, Settles doc.path c r

section Collects

variable (known : ParseTable) (doc : Document) (d : Discovery)

theorem Collects.bind {known : ParseTable} {doc : Document} {d : Discovery} {r : Reported Discovery}
    {f : Discovery → Reported Discovery} (hr : Collects known doc d r)
    (hf : Adds (DefinedIn known doc) r.value (f r.value).value) : Collects known doc d (r >>= f) :=
  ⟨hr.adds.trans hf, fun c hc => (hr.settles c hc).bind_left hf⟩

theorem addInlines_collects : Collects known doc d
    ((inlineOf (roleOf doc) doc.path (doc.reading known).value).foldlM (addInline doc.path) d) := by
  have hadds : ∀ c ∈ inlineOf (roleOf doc) doc.path (doc.reading known).value, ∀ d,
      Adds (DefinedIn known doc) d (addInline doc.path d c).value :=
    fun c hc d => (addInline_adds doc.path d c).mono fun _ h => h ▸ .inline hc
  exact ⟨.foldlM hadds d, fun c hc => .foldlM hadds hc (addInline_settles doc.path · c) d⟩

theorem addPage_collects (hr : roleOf doc = .page) :
    Collects known doc d (addPage doc (doc.reading known).value d) := by
  have h := addInlines_collects known doc d
  rw [hr] at h
  exact h.bind (.same rfl)

theorem addDefinition_collects (hr : roleOf doc ≠ .page) :
    Collects known doc d (addDefinition (roleOf doc) doc (doc.reading known).value d) := by
  have h := addInlines_collects known doc d
  rw [inlineOf_of_ne hr] at h
  refine h.bind ?_
  simp only [Reported.value_bind]
  split
  · next registry hregistry =>
    cases hrole : roleOf doc with
    | page => exact absurd hrole hr
    | layout =>
      rw [hrole] at hregistry
      exact .registerLayout? hregistry
    | component =>
      rw [hrole] at hregistry
      refine .register? (.file hrole ?_ ?_) hregistry
      · exact Definition.ofTemplate_name _ _
      · exact (Definition.ofTemplate_path _ _).trans (Template.ofNodes_path _ _ _)
  · exact .same rfl

theorem addDocument_collects : Collects known doc d (addDocument known d doc) := by
  -- The table of what has been read is the only thing that reading changes.
  have hread {parsed : ParseTable} {f : List Node → Reported Discovery}
      (h : Collects known doc { d with parsed } (f (doc.reading known).value)) :
      Collects known doc d (doc.reading known >>= f) :=
    ⟨⟨h.adds.kept, h.adds.added⟩, fun c hc => (h.settles c hc).bind_right⟩
  unfold addDocument
  dsimp only
  split
  · next hr => exact hread (addPage_collects known doc _ hr)
  · next hr => exact hread (addDefinition_collects known doc _ hr)

end Collects

theorem mem_inOrder {documents : List Document} {doc : Document} :
    doc ∈ inOrder documents ↔ doc ∈ documents := List.mem_mergeSort

end Discovery

open Discovery

section

variable (known : ParseTable) (documents : List Document)

theorem Discovery.addDocuments_adds : Adds (fun e => ∃ doc ∈ documents, DefinedIn known doc e)
    .empty (discover known documents).value :=
  .foldlM (fun doc hdoc d => (addDocument_collects known doc d).adds.mono fun _ h =>
    ⟨doc, mem_inOrder.1 hdoc, h⟩) _

/-- Each component is a file of its own, or is written inside of a document. -/
theorem discover_definedIn {e : Definition}
    (he : e ∈ (discover known documents).value.registry.components) :
    ∃ doc ∈ documents, DefinedIn known doc e :=
  ((Discovery.addDocuments_adds known documents).added e he).resolve_left List.not_mem_nil

/-- Each inline component whose surroundings are kept is registered, unless there is another
component of its name and this is reported. -/
theorem discover_settles_inline {doc : Document} (hdoc : doc ∈ documents) {n m : Node}
    (hn : n ∈ (doc.reading known).value) (hm : n.Exposes (TakesContent (roleOf doc)) m)
    {c : InlineComponent} (hc : m.inline? = some c) :
    Settles doc.path c (discover known documents) := by
  have hcollected : c ∈ inlineOf (roleOf doc) doc.path (doc.reading known).value :=
    mem_inlineOf.2 ⟨n, hn, m, hm, hc⟩
  have hadds : ∀ doc ∈ inOrder documents, ∀ d,
      Adds (fun _ => True) d (addDocument known d doc).value :=
    fun doc _ d => (addDocument_collects known doc d).adds.mono fun _ _ => trivial
  exact .foldlM hadds (mem_inOrder.2 hdoc)
    (fun d => (addDocument_collects known doc d).settles c hcollected) _

end

theorem discover_settles_inline_div :
    let doc := Document.ofMarkup "index.ncl" "<div><n:component name=\"A\">x</n:component></div>"
    Settles "index.ncl" ⟨"A", [.text "x" ⟨1, 28⟩], ⟨1, 6⟩⟩ (discover [] [doc]) := by
  intro doc
  let block := Node.element "n:component" [⟨"name", .static "A", ⟨1, 19⟩⟩] [.text "x" ⟨1, 28⟩]
    false ⟨1, 6⟩
  let div := Node.element "div" [] [block] false ⟨1, 1⟩
  have hread : (doc.reading []).value = [div] := by
    show (Markup.parse "<div><n:component name=\"A\">x</n:component></div>" "index.ncl").value = _
    with_unfolding_all rfl
  have hrole : roleOf doc = .page := by decide +kernel
  have hinline : block.inline? = some ⟨"A", [.text "x" ⟨1, 28⟩], ⟨1, 6⟩⟩ := by
    with_unfolding_all rfl
  have hdiv : ¬TakesContent (roleOf doc) div := by
    have hnone : (inlineOf? "div" [] [block] ⟨1, 1⟩).isSome = false := by decide +kernel
    simp [hrole, TakesContent, div, hnone]
  have hshown : div.Exposes (TakesContent (roleOf doc)) block :=
    .inside hdiv (List.mem_singleton_self _) (List.mem_singleton_self _) .here
  exact discover_settles_inline [] [doc] (List.mem_singleton_self _)
    (hread ▸ List.mem_singleton_self _) hshown hinline

/-- Of a block inside of another one nothing is left, and nothing is reported. -/
theorem discover_loses_inline_inside :
    let doc := Document.ofMarkup "index.ncl"
      "<n:component name=\"A\"><n:component name=\"B\">x</n:component></n:component>"
    (∃ n ∈ (doc.reading []).value, ∃ m ∈ n.descendants,
      m.inline?.map InlineComponent.name = some "B") ∧
    (discover [] [doc]).diagnostics = [] ∧
      ∀ e ∈ (discover [] [doc]).value.registry.components, e.name ≠ "B" := by
  decide +kernel

end PageCompiler
