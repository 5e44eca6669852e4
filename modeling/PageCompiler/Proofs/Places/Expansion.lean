import PageCompiler.Proofs.Component.Expansion
import PageCompiler.Proofs.Places.Template

/-!
Where the expansion of components reports. A problem of a usage stands in the file of the usage, but
for that of an attribute that was forwarded to the usage: it stands where the attribute was written.
-/

namespace PageCompiler.Component

/-- The node stands at a place of `L`, and so do its attributes but those that have been forwarded
to it, which stand at places of `M`. -/
structure Receives (L M : Location → Prop) (n : Node) : Prop where
  location : n.kind ≠ .callerScope → L n.location
  given : ∀ a ∈ n.given, L a.location ∨ isFixed a ∧ M a.location

section Merge

variable {L M : Location → Prop}

/-- An attribute that is merged into another one stands where that one stands. -/
theorem mergeAttribute_receives {as : List Attribute} {a : Attribute}
    (has : ∀ b ∈ as, L b.location ∨ isFixed b ∧ M b.location) (ha : isFixed a) (hM : M a.location) :
    ∀ b ∈ mergeAttribute as a, L b.location ∨ isFixed b ∧ M b.location := by
  induction as with
  | nil => exact List.forall_mem_singleton.2 (.inr ⟨ha, hM⟩)
  | cons b rest ih =>
    rw [List.forall_mem_cons] at has
    rw [mergeAttribute]
    split
    · refine List.forall_mem_cons.2 ⟨has.1.imp_right fun ⟨hb, hm⟩ => ⟨?_, hm⟩, has.2⟩
      rw [isFixed] at ha hb ⊢
      grind
    · exact List.forall_mem_cons.2 ⟨has.1, ih has.2⟩

theorem mergeInto?_receives {as : List Attribute} {n m : Node} (h : mergeInto? as n = some m)
    (has : ∀ a ∈ as, isFixed a ∧ M a.location) (hn : Receives L M n) : Receives L M m := by
  have hfold (own : List Attribute) (ho : ∀ b ∈ own, L b.location ∨ isFixed b ∧ M b.location) :
      ∀ b ∈ as.foldl mergeAttribute own, L b.location ∨ isFixed b ∧ M b.location := by
    clear h
    induction as generalizing own with
    | nil => exact ho
    | cons a as ih =>
      rw [List.forall_mem_cons] at has
      exact ih has.2 _ (mergeAttribute_receives ho has.1.1 has.1.2)
  cases n with
  | element | component =>
    cases h
    exact ⟨fun _ => hn.location nofun, hfold _ hn.given⟩
  | _ => cases h

end Merge

/-- A diagnostic of the expansion. `S` are the places of a file, and `M` those of attributes that
may be forwarded into it. -/
structure Reports (S M : String → Location → Prop) (x : Diagnostic) : Prop where
  stage : x.stage = .components
  place : ∀ l, x.location = some l → S x.file l ∨ x.problem = .invalidPropType ∧ M x.file l

section

variable {registry : Registry} {S M : String → Location → Prop} {A : Location → Prop}

/-- The definitions stand in their files, and all that is written anywhere may be forwarded into
their bodies. -/
structure Accommodates (registry : Registry) (S M : String → Location → Prop)
    (A : Location → Prop) : Prop where
  place : S file l → A l
  forwarded : M file l → A l
  forwards : d ∈ registry.components → A l → M d.path l
  nodes : d ∈ registry.components → ∀ n ∈ d.nodes, n.AllAt (S d.path)

/-- A tree of the file, with slot content of any file in it. -/
abbrev Node.Of (S M : String → Location → Prop) (A : Location → Prop) (file : String) :
    Node → Prop :=
  Node.Around (Receives (S file) (M file)) (Node.At A)

variable (h : Accommodates registry S M A) {site : Site} {l : Location}

theorem reports_placed {file : String} (hl : S file l) {x : Diagnostic}
    (hs : x.stage = .components) : Reports S M (x.placed file l) :=
  ⟨hs, fun _ he => .inl (Option.some.inj he ▸ hl)⟩

theorem warn_places (hl : S site.file l) (problem : Problem) (message : String) :
    (warn site problem message l).Sat (fun _ => True) (Reports S M) :=
  Expanded.sat_report (reports_placed hl rfl)

theorem givenBy_places (d : Definition) {as : List Attribute}
    (has : ∀ a ∈ as, S site.file a.location ∨ isFixed a ∧ M site.file a.location) :
    (givenBy site d as).Sat (fun r => ∀ g, r = .ok g → g.others ⊆ as) (Reports S M) := by
  induction as with
  | nil => exact .pure fun g hg => Except.ok.inj hg ▸ List.nil_subset _
  | cons a as ih =>
    rw [List.forall_mem_cons] at has
    have ih := ih has.2
    have hreport {x : Diagnostic} (hs : x.stage = .components) (hp : x.problem = .invalidPropType)
        (hf : x.file = site.file) (hl : x.location = some a.location) : Reports S M x := by
      refine ⟨hs, fun l h => ?_⟩
      obtain rfl : a.location = l := Option.some.inj (hl.symm.trans h)
      exact hf ▸ has.1.imp_right fun hm => ⟨hp, hm.2⟩
    have hmap {f : Given → Given} (hf : ∀ g : Given, g.others ⊆ as → (f g).others ⊆ a :: as)
        {r : Except String Given} (hr : ∀ g, r = .ok g → g.others ⊆ as) :
        ∀ g, r.map f = .ok g → g.others ⊆ a :: as := by
      intro g hg
      cases r with
      | error => cases hg
      | ok g' => exact Except.ok.inj hg ▸ hf g' (hr g' rfl)
    rw [givenBy]
    split
    · exact ⟨fun g hg => List.subset_cons_of_subset a (ih.value g hg), ih.each⟩
    · split
      · exact .bind ih fun r hr => .pure (hmap (fun g hg => List.cons_subset_cons a hg) hr)
      · split
        · refine .bind ih fun r hr => .pure (hmap ?_ hr)
          exact fun g hg => List.subset_cons_of_subset a hg
        · dsimp only
          split
          · exact .bind (Expanded.sat_report (hreport rfl rfl rfl rfl)) fun _ _ => .pure (by simp)
          · refine .bind (Expanded.sat_report (hreport rfl rfl rfl rfl)) fun _ _ => ?_
            exact ⟨fun g hg => List.subset_cons_of_subset a (ih.value g hg), ih.each⟩

theorem checkContent_places (d : Definition) (hl : S site.file l) (content : SlotContent) :
    (checkContent site d l content).Sat (fun _ => True) (Reports S M) := by
  refine Expanded.sat_forM fun p _ => ?_
  dsimp only
  split
  · exact .pure trivial
  · exact warn_places hl _ _

include h in
theorem forward_places {d : Definition} (hd : d ∈ registry.components) (hl : S site.file l)
    {others : List Attribute}
    (hothers : ∀ a ∈ others, S site.file a.location ∨ isFixed a ∧ M site.file a.location)
    {body : List Node} (hb : ∀ n ∈ body, Node.Of S M A d.path n) :
    (forward site d l others body).Sat (∀ n ∈ ·, Node.Of S M A d.path n) (Reports S M) := by
  refine forward_holds (reporting (Reports S M)) (fun message => warn_places hl _ message) ?_ ?_ hb
  · intro a ha hfixed message
    exact warn_places ((hothers a ha).resolve_right fun hm => hfixed hm.1) _ message
  · intro n m hm hn
    obtain ⟨hf, -, hc⟩ := mergeInto?_eq hm
    have hk : m.kind = n.kind := congrArg Node.Form.kind hf
    cases hn with
    | within hn hu => exact .within (hk.trans hn) (hc ▸ hu)
    | node hn hr hu =>
      refine .node (hk ▸ hn) (mergeInto?_receives hm (fun a ha => ?_) hr) (hc ▸ hu)
      obtain ⟨ha, hfixed⟩ := List.mem_filter.1 ha
      exact ⟨hfixed, h.forwards hd ((hothers a ha).elim h.place fun hm => h.forwarded hm.2)⟩

include h in
/-- What stands in a file has slot content of any file in it. -/
theorem Accommodates.of_allAt {file : String} {n : Node} (hn : n.AllAt (S file)) :
    Node.Of S M A file n := by
  induction n using Node.induct_children with
  | node n ih =>
    obtain ⟨hat, hc⟩ := Node.everywhere_iff.1 hn
    by_cases hk : n.kind = .callerScope
    · exact .within hk fun ns hns m hm => (hc ns hns m hm).imp fun _ hm => hm.mono fun _ => h.place
    · exact .node hk ⟨hat.location, fun a ha => .inl (hat.given a ha)⟩
        fun ns hns m hm => ih ns hns m hm (hc ns hns m hm)

theorem at_callerScope (content : List Node) : (Node.callerScope content).At A :=
  ⟨fun hk => absurd rfl hk, List.forall_mem_nil _⟩

theorem allAt_leaf {n : Node} (hc : n.childLists = []) (hl : A n.location) (hg : n.given = []) :
    n.AllAt A :=
  (Node.everywhere_leaf hc).2 (Node.at_of_no_given hl hg)

include h in
theorem Accommodates.fill {d : Definition} (hd : d ∈ registry.components) {content : SlotContent}
    (hc : content.Each (·.AllAt A)) :
    ∀ n ∈ Slots.fillBody d.nodes content, Node.Of S M A d.path n := by
  refine Slots.fillBody_around at_callerScope (fun n m hn hm => hn.trims (Node.trims_of_shell hm))
    (fun n m _ hn hm => ?_) (fun n hn => h.of_allAt (h.nodes hd n hn)) hc
  have ht := Node.trims_of_shell hm
  refine ⟨fun hk => ?_, fun a ha => hn.given a (ht.given ha)⟩
  have hk : n.kind ≠ .callerScope := by
    rwa [← show m.kind = n.kind from congrArg Node.Form.kind ht.form]
  exact ht.location hk ▸ hn.location hk

/-- Bodies that are expanded stand at places of `A`, and all is reported where it should be. -/
def Enters (registry : Registry) (S M : String → Location → Prop) (A : Location → Prop)
    (inside : ExpandBody) : Prop :=
  ∀ d ∈ registry.components, ∀ stack body, (∀ n ∈ body, Node.Of S M A d.path n) →
    (inside ⟨stack, d.path⟩ body).Sat (∀ n ∈ ·, n.AllAt A) (Reports S M)

include h

theorem useDefinition_places {inside : ExpandBody} (hin : Enters registry S M A inside)
    {d : Definition} (hd : d ∈ registry.components) (hl : S site.file l) {as : List Attribute}
    (has : ∀ a ∈ as, S site.file a.location ∨ isFixed a ∧ M site.file a.location)
    {content : Expanded SlotContent}
    (hc : content.Sat (SlotContent.Each (·.AllAt A)) (Reports S M)) :
    (useDefinition inside site d as content l).Sat (·.AllAt A) (Reports S M) := by
  rw [useDefinition]
  refine .bind Expanded.sat_use fun _ _ => .bind (givenBy_places d has) fun g hg => ?_
  split
  · exact .pure (allAt_leaf rfl (h.place hl) rfl)
  · next g =>
    dsimp only
    split
    · refine .bind hc fun content hc => .bind (checkContent_places d hl content) fun _ _ => ?_
      refine .bind (forward_places h hd hl (fun a ha => has a (hg g rfl ha)) (h.fill hd hc)) ?_
      refine fun body hb => .bind (hin d hd _ body hb) fun children hch => .pure ?_
      exact Node.everywhere_isolated.2 ⟨Node.at_of_no_given (h.place hl) rfl, hch⟩
    · refine .bind (Expanded.sat_forM fun n _ => Expanded.sat_report (reports_placed hl rfl)) ?_
      exact fun _ _ => .pure (allAt_leaf rfl (h.place hl) rfl)

theorem fail_places (hl : S site.file l) (problem : Problem) (message : String) :
    (fail site problem message l).Sat (·.AllAt A) (Reports S M) :=
  .bind (Expanded.sat_report (reports_placed hl rfl)) fun _ _ =>
    .pure (allAt_leaf rfl (h.place hl) rfl)

theorem useName_places {maxDepth : Nat} {inside : Option ExpandBody}
    (hin : ∀ i, inside = some i → Enters registry S M A i) {name : String} (hl : S site.file l)
    {as : List Attribute}
    (has : ∀ a ∈ as, S site.file a.location ∨ isFixed a ∧ M site.file a.location)
    {content : Expanded SlotContent}
    (hc : content.Sat (SlotContent.Each (·.AllAt A)) (Reports S M)) :
    (useName ⟨registry, maxDepth⟩ inside site name as content l).Sat (·.AllAt A) (Reports S M) := by
  rw [useName]
  split
  · exact fail_places h hl _ _
  · next d hd =>
    dsimp only
    split
    · exact fail_places h hl _ _
    · cases inside with
      | none => exact fail_places h hl _ _
      | some i => exact useDefinition_places h (hin i rfl) (Registry.component?_mem hd) hl has hc

theorem walk_places {maxDepth : Nat} {inside : Option ExpandBody}
    (hin : ∀ i, inside = some i → Enters registry S M A i) (site : Site) :
    Walk (reporting (Reports S M)) ⟨registry, maxDepth⟩ inside site (Node.Of S M A site.file)
      (·.AllAt A) (SlotContent.Each (·.AllAt A)) where
  use hn given hsub content hc := by
    obtain ⟨hr, -⟩ := hn.of_ne (by simp)
    exact useName_places h hin (hr.location (by simp)) (fun a ha => hr.given a (hsub ha)) hc
  below hn hk := (hn.of_ne hk).2
  rebuilt {n m} hn _ hk ht hm := by
    obtain ⟨hr, -⟩ := hn.of_ne hk
    have hat : n.At A := ⟨fun hk => h.place (hr.location hk),
      fun a ha => (hr.given a ha).elim h.place fun hm => h.forwarded hm.2⟩
    exact Node.everywhere_iff.2 ⟨hat.trims ht, hm⟩
  callerScope hn := Node.everywhere_iff.2 ⟨at_callerScope _, hn.of_eq rfl⟩
  content hd hp := SlotContent.ofPieces_each hd hp

theorem insideBody_places (maxDepth levels : Nat) (inside : ExpandBody)
    (hi : insideBody ⟨registry, maxDepth⟩ levels = some inside) : Enters registry S M A inside := by
  induction levels generalizing inside with
  | zero => cases hi
  | succ levels ih =>
    cases hi
    intro d _ stack body hb
    exact ((walk_places h ih ⟨stack, d.path⟩).walked hb).all

/-- The nodes of a file stand somewhere when they are expanded, and what is reported of them stands
in the file in which it happens, or is about an attribute that is forwarded into it. -/
theorem expandNodes_places (maxDepth : Nat) {file : String} {ns : List Node}
    (hns : ∀ n ∈ ns, Node.Of S M A file n) :
    (expandNodes ⟨registry, maxDepth⟩ file ns).Sat (∀ n ∈ ·, n.AllAt A) (Reports S M) :=
  have hin := insideBody_places h maxDepth maxDepth
  have hall := ((walk_places h hin ⟨[], file⟩).walked hns).all
  ⟨hall.value, hall.each⟩

end

end PageCompiler.Component
