import PageCompiler.Proofs.Component.ErrorBlocks
import PageCompiler.Proofs.Component.Expansion
import PageCompiler.Proofs.Component.Routing
import PageCompiler.Proofs.Discovery

/-!
How a usage comes to be an instance, and which of its content gets a place in the body of the
component. Content without a place is reported, unless it is for the default slot or all places
for its slot stand in the fallbacks of filled ones.
-/

namespace PageCompiler

namespace Node

variable {n m : Node}

/-- Nodes of a body in front of its expansion: component instances stand in slot content only. -/
abbrev IsBody : Node → Prop := Fits (fun _ => True) (· ≠ .isolated) fun _ => True

theorem IsBody.kind_ne (h : n.IsBody) (hc : n.kind ≠ .callerScope) : n.kind ≠ .isolated :=
  fun hi => (h.of_ne hc).1.kind (by rw [hi]; nofun) hi

theorem held_congr (hk : m.kind = n.kind) (hl : m.childLists = n.childLists) (k : Nat) :
    m.held k = n.held k := by
  by_cases hi : n.kind = .isolated
  · cases n with
    | isolated =>
      cases m with
      | isolated =>
        obtain rfl := List.singleton_inj.1 hl
        rfl
      | _ => cases hk
    | _ => cases hi
  by_cases hc : n.kind = .callerScope
  · cases n with
    | callerScope =>
      cases m with
      | callerScope =>
        obtain rfl := List.singleton_inj.1 hl
        rfl
      | _ => cases hk
    | _ => cases hc
  rw [held_of_ne hi hc, held_of_ne (hk ▸ hi) (hk ▸ hc), hl]

theorem IsBody.congr (h : n.IsBody) (hk : m.kind = n.kind) (hl : m.childLists = n.childLists) :
    m.IsBody := by
  by_cases hc : n.kind = .callerScope
  · exact .within (hk.trans hc) fun _ _ _ _ _ _ => trivial
  · obtain ⟨ha, hn⟩ := h.of_ne hc
    exact .node (hk ▸ hc) ⟨fun _ _ => trivial, fun hm => hk ▸ ha.kind (hk ▸ hm)⟩ (hl ▸ hn)

theorem held_of_isBlank (h : n.isBlank) (k : Nat) : n.held k = [] := by
  cases n with
  | text => rfl
  | _ => cases h

theorem Offers.exists_slot {filled : Option String → Prop} {s : Option String}
    (h : n.Offers filled s) :
    ∃ name fallback l, slot name fallback l ∈ n.descendants ∧ slotKey name = slotKey s := by
  induction h with
  | here hk => exact ⟨_, _, _, mem_descendants.2 (.inl rfl), hk⟩
  | fallback _ hm _ ih =>
    obtain ⟨name, fallback, l, hmem, hk⟩ := ih
    refine ⟨name, fallback, l, mem_descendants.2 (.inr ⟨_, ?_, _, hm, hmem⟩), hk⟩
    exact List.mem_singleton_self _
  | inside _ hns hm _ ih =>
    obtain ⟨name, fallback, l, hmem, hk⟩ := ih
    exact ⟨name, fallback, l, mem_descendants.2 (.inr ⟨_, hns, _, hm, hmem⟩), hk⟩

/-- Where all fallbacks are seen every place counts. -/
theorem offers_of_mem {name s : Option String} {fallback : List Node} {l : Location}
    (h : slot name fallback l ∈ n.descendants) (hk : slotKey name = slotKey s) :
    n.Offers (fun _ => False) s := by
  induction n using induct_children with
  | node n ih =>
    obtain rfl | ⟨ns, hns, m, hm, hmem⟩ := mem_descendants.1 h
    · exact .here hk
    have ho := ih ns hns m hm hmem
    by_cases hs : n.kind = .slot
    · cases n with
      | slot =>
        obtain rfl := List.mem_singleton.1 hns
        exact .fallback not_false hm ho
      | _ => cases hs
    · exact .inside hs hns hm ho

end Node

namespace Definition

open Node (ListOffers)

variable {d : Definition} {slot : Option String}

def Declares (d : Definition) (slot : Option String) : Prop :=
  ∃ s ∈ d.slots, slotKey s.name = slotKey slot

theorem DeclaresPlaces.declares_iff (h : d.DeclaresPlaces) :
    d.Declares slot ↔ ListOffers (fun _ => False) slot d.nodes := by
  simp only [DeclaresPlaces, Node.listDescendants_eq, List.mem_flatMap] at h
  refine ⟨fun ⟨s, hs, hk⟩ => ?_, fun ⟨n, hn, ho⟩ => ?_⟩
  · obtain ⟨fallback, l, n, hn, hmem⟩ := (h s.name).1 ⟨s, hs, rfl⟩
    exact ⟨n, hn, Node.offers_of_mem hmem hk⟩
  · obtain ⟨name, fallback, l, hmem, hk⟩ := ho.exists_slot
    obtain ⟨s, hs, rfl⟩ := (h name).2 ⟨fallback, l, n, hn, hmem⟩
    exact ⟨s, hs, hk⟩

/-- There is no place for the slot outside of the fallbacks of filled slots, though it is the
default slot or has a place there. -/
def Overlooks (d : Definition) (filled : Option String → Prop) (slot : Option String) : Prop :=
  (slot = none ∨ ListOffers (fun _ => False) slot d.nodes) ∧ ¬ListOffers filled slot d.nodes

/-- There is a default slot, and each slot has a place that does not stand in a fallback. -/
structure IsRoomy (d : Definition) : Prop where
  default : ListOffers (fun _ => True) none d.nodes
  named : ∀ slot, ListOffers (fun _ => False) slot d.nodes →
    ListOffers (fun _ => True) slot d.nodes

theorem IsRoomy.not_overlooks (h : d.IsRoomy) (filled : Option String → Prop)
    (slot : Option String) : ¬d.Overlooks filled slot := by
  rintro ⟨rfl | hp, ho⟩
  · exact ho (h.default.imp fun _ _ => trivial)
  · exact ho ((h.named slot hp).imp fun _ _ => trivial)

end Definition

def Registry.IsRoomy (r : Registry) : Prop := ∀ d ∈ r.components, d.IsRoomy

namespace Component

open Markup (asciiLower)
open Node (listHeld ListOffers)

section Usage

variable {setting : Setting} {inside : Option ExpandBody} {site : Site} {d : Definition}
  {l : Location}

/-- How a usage comes to be an instance of `d`. Its `body` has been filled, and what it is expanded
to stands in the instance. -/
structure Instantiates (setting : Setting) (inside : Option ExpandBody) (site : Site)
    (name : String) (content : Expanded SlotContent) (l : Location) (r : Expanded Node)
    (d : Definition) (expandBody : ExpandBody) (body : List Node) : Prop where
  found : setting.registry.component? name = some d
  entered : inside = some expandBody
  filled : ∃ others,
    body = (forward site d l others (Slots.fillBody d.nodes content.value)).value
  value : ∃ bindings, r.value =
    .isolated d.name bindings (expandBody ⟨site.stack ++ [d.name], d.path⟩ body).value l
  ofContent : content.diagnostics ⊆ r.diagnostics
  ofCheck : (checkContent.{0} site d l content.value).diagnostics ⊆ r.diagnostics
  ofBody : (expandBody ⟨site.stack ++ [d.name], d.path⟩ body).diagnostics ⊆ r.diagnostics

/-- An error, which is reported. -/
def Fails (r : Expanded Node) : Prop :=
  (∃ problem message l, r.value = .error problem message l) ∧ r.diagnostics ≠ []

theorem diagnostics_givenBy {as : List Attribute} {message : String}
    (h : (givenBy site d as).value = .error message) : (givenBy site d as).diagnostics ≠ [] := by
  intro hd
  have hunder : (givenBy site d as).Under (·.Within fun _ => False) fun g =>
      ∀ m, g = .error m → False := givenBy_under as
  exact hunder (by simp [hd]) message h

theorem fail_fails (problem : Problem) (message : String) :
    Fails (fail site problem message l) :=
  ⟨⟨problem, message, l, rfl⟩, List.cons_ne_nil _ _⟩

theorem diagnostics_instantiate (expandBody : ExpandBody) (g : Given)
    (content : Expanded SlotContent) :
    let filled := forward site d l g.others (Slots.fillBody d.nodes content.value)
    (instantiate expandBody site d g content l).diagnostics =
      content.diagnostics ++ ((checkContent.{0} site d l content.value).diagnostics ++
        (filled.diagnostics ++
          (expandBody ⟨site.stack ++ [d.name], d.path⟩ filled.value).diagnostics)) := by
  intro filled
  rw [← List.append_nil (expandBody _ _).diagnostics]
  rfl

theorem useDefinition_cases {name : String} {expandBody : ExpandBody}
    (hd : setting.registry.component? name = some d) (hi : inside = some expandBody)
    (as : List Attribute) (content : Expanded SlotContent) :
    let r := useDefinition expandBody site d as content l
    Fails r ∨ ∃ body, Instantiates setting inside site name content l r d expandBody body := by
  intro r
  cases hg : (givenBy site d as).value with
  | error message =>
    have hvalue : r.value = .error .invalidPropType message l := by
      simp only [r, useDefinition, Expanded.value_bind, hg]
      rfl
    have hdiag : r.diagnostics = (givenBy site d as).diagnostics := by
      simp only [r, useDefinition, Expanded.diagnostics_bind, hg]
      exact List.append_nil _
    exact .inl ⟨⟨_, _, _, hvalue⟩, hdiag ▸ diagnostics_givenBy hg⟩
  | ok g =>
    by_cases hn : ((missing d g.bindings).map PropDefinition.name).isEmpty
    · have hvalue : r.value = (instantiate expandBody site d g content l).value := by
        simp only [r, useDefinition, Expanded.value_bind, hg, hn, if_true]
      have hdiag : r.diagnostics = (givenBy site d as).diagnostics ++
          (instantiate expandBody site d g content l).diagnostics := by
        simp only [r, useDefinition, Expanded.diagnostics_bind, hg, hn, if_true]
        rfl
      rw [diagnostics_instantiate] at hdiag
      refine .inr ⟨_, hd, hi, ⟨g.others, rfl⟩, ⟨_, hvalue⟩, ?_, ?_, ?_⟩ <;>
      · rw [hdiag]
        intro e he
        simp only [List.mem_append, he, true_or, or_true]
    · have hvalue : ∃ message, r.value = .error .missingRequiredProp message l := by
        simp only [r, useDefinition, Expanded.value_bind, hg, hn]
        exact ⟨_, rfl⟩
      have hdiag : r.diagnostics ≠ [] := by
        cases hnames : (missing d g.bindings).map PropDefinition.name with
        | nil => simp [hnames] at hn
        | cons n ns =>
          simp only [r, useDefinition, Expanded.diagnostics_bind, hg, hnames]
          exact List.append_ne_nil_of_right_ne_nil _
            (List.append_ne_nil_of_right_ne_nil _ (List.cons_ne_nil _ _))
      obtain ⟨message, hvalue⟩ := hvalue
      exact .inl ⟨⟨_, _, _, hvalue⟩, hdiag⟩

theorem useName_cases (name : String) (as : List Attribute) (content : Expanded SlotContent) :
    let r := useName setting inside site name as content l
    Fails r ∨ ∃ d expandBody body,
      Instantiates setting inside site name content l r d expandBody body := by
  intro r
  simp only [r, useName]
  split
  · exact .inl (fail_fails _ _)
  · next d hd =>
    split
    · exact .inl (fail_fails _ _)
    · split
      · exact .inl (fail_fails _ _)
      · obtain hf | ⟨body, h⟩ := useDefinition_cases hd rfl as content
        · exact .inl hf
        · exact .inr ⟨d, _, body, h⟩

theorem listHeld_forward (others : List Attribute) (body : List Node) (k : Nat) :
    listHeld k (forward site d l others body).value = listHeld k body := by
  rw [forward]
  change listHeld k (ite _ _ _ : Expanded (List Node)).value = _
  split
  · rfl
  split
  · next root hr =>
    split
    · next merged hm =>
      obtain ⟨hf, -, hl⟩ := mergeInto?_eq hm
      have heq : ∀ n ∈ body, Node.held k (if isRoot n then merged else n) = n.held k := by
        intro n hn
        split
        · next hroot =>
          obtain rfl : n = root := List.mem_singleton.1 (hr ▸ List.mem_filter.2 ⟨hn, hroot⟩)
          exact Node.held_congr (congrArg Node.Form.kind hf) hl k
        · rfl
      rw [Node.listHeld_eq, Node.listHeld_eq]
      exact (List.flatMap_map _ _ body).trans (List.flatMap_congr heq)
    · rfl
  · rfl

/-- The report that content is for a slot that is not declared. -/
def undeclared (site : Site) (d : Definition) (slot : String) (l : Location) : Diagnostic :=
  (Diagnostic.warning .components .slotNotFound
    ("<" ++ d.name ++ "> has no slot named `" ++ slot ++ "`; the content is dropped.")).placed
    site.file l

theorem diagnostics_forM {α : Type} (f : α → Expanded PUnit) (as : List α) :
    (as.forM f).diagnostics = as.flatMap fun a => (f a).diagnostics := by
  induction as with
  | nil => rfl
  | cons a as ih =>
    rw [List.flatMap_cons, ← ih]
    rfl

theorem mem_checkContent {content : SlotContent} (hlower : SlotContent.IsLower content.named)
    {slot : String} (hs : asciiLower slot = slot) (hc : content.Has (some slot))
    (hd : ¬d.Declares (some slot)) :
    undeclared site d slot l ∈ (checkContent.{0} site d l content).diagnostics := by
  rw [SlotContent.Has, SlotContent.get, SlotContent.take] at hc
  dsimp only at hc
  rw [SlotContent.takeNamed_of_lower hlower hs] at hc
  cases hl : content.named.lookup slot with
  | none => simp [hl] at hc
  | some nodes =>
    rw [hl, Option.getD_some] at hc
    obtain ⟨before, after, hnamed, -⟩ := List.lookup_eq_some_iff.1 hl
    have hdeclared : ¬(d.slots.any fun s => s.name.any fun n =>
        Text.eqIgnoringAsciiCase n slot) := by
      rw [List.any_eq_true]
      rintro ⟨s, hmem, hn⟩
      refine hd ⟨s, hmem, ?_⟩
      cases hname : s.name with
      | none => simp [hname] at hn
      | some n =>
        rw [hname, Option.any_some, eqIgnoringAsciiCase_iff] at hn
        exact congrArg some hn
    rw [checkContent, diagnostics_forM]
    refine List.mem_flatMap.2 ⟨(slot, nodes), by rw [hnamed]; simp, ?_⟩
    dsimp only
    rw [if_neg]
    · exact List.mem_singleton_self _
    · rw [Bool.or_eq_true]
      exact not_or.2 ⟨hdeclared, hc⟩

/-- The body of an instance is one in front of its expansion. -/
theorem Instantiates.isBody {name : String} {content : Expanded SlotContent} {r : Expanded Node}
    {expandBody : ExpandBody} {body : List Node}
    (h : Instantiates setting inside site name content l r d expandBody body)
    (hd : ∀ n ∈ d.nodes, n.IsWritten) : ∀ n ∈ body, n.IsBody := by
  obtain ⟨others, rfl⟩ := h.filled
  have hnodes : ∀ n ∈ d.nodes, n.IsBody := fun n hn =>
    (hd n hn).fits fun k hk => ⟨hk.2, hk.1⟩
  have hfilled : ∀ n ∈ Slots.fillBody d.nodes content.value, n.IsBody :=
    Slots.fillBody_fits trivial (fun _ _ => id) hnodes
      ⟨fun _ _ _ _ => trivial, fun _ _ _ _ _ _ => trivial⟩
  exact (forward_sat (P := fun _ => True) (fun _ _ => trivial) hfilled).value

end Usage

/-! ### Content with a place -/

/-- Some of what is written for the slot is more than blanks. -/
def IsFilled (parent : String) (children : List Node) (slot : Option String) : Prop :=
  ∃ m ∈ writtenFor parent (slotKey slot) children, ¬m.isBlank

section Usage

variable {setting : Setting} {inside : Option ExpandBody} {site : Site} {d : Definition}
  {l : Location} {name : String} {children : List Node} {n m : Node}

theorem mem_writtenFor (hn : n ∈ children) (hm : m ∈ (routed name n).2) :
    m ∈ writtenFor name (routed name n).1 children :=
  List.mem_flatMap.2 ⟨n, hn, by rwa [if_pos rfl]⟩

theorem isFilled_routed (hn : n ∈ children) (hm : m ∈ (routed name n).2) (hb : ¬m.isBlank) :
    IsFilled name children (routed name n).1 :=
  ⟨m, by rw [slotKey_routed]; exact mem_writtenFor hn hm, hb⟩

/-- Blank content stays blank, and no other content gets so. -/
theorem isBlank_expand (n : Node) :
    (expand setting inside site n).value.isBlank = n.isBlank := by
  cases n with
  | component name as children l =>
    rw [expand_component]
    obtain ⟨⟨problem, message, l, hv⟩, -⟩ | ⟨d, expandBody, body, h⟩ :=
      useName_cases name as (slotContent setting inside site name children)
    · rw [hv]
      rfl
    · obtain ⟨bindings, hv⟩ := h.value
      rw [hv]
      rfl
  | conditional branches alternate => cases alternate <;> rfl
  | _ => rfl

theorem has_slotContent {slot : Option String} :
    (slotContent setting inside site name children).value.Has slot ↔
      IsFilled name children slot := by
  rw [← SlotContent.has_slotKey, SlotContent.Has, get_slotContent _ _ (slotKey_slotKey slot),
    given, List.all_map, IsFilled]
  simp [isBlank_expand]

/-- Where the content of a usage has its place in the body of an instance of `d`. -/
structure Placed (name : String) (children : List Node) (content : Option String → List Node)
    (d : Definition) (body : List Node) (slots : List (Option String)) : Prop where
  nodup : slots.Nodup
  held : listHeld 0 body = slots.map content
  reached : ∀ slot, IsFilled name children slot →
    ListOffers (IsFilled name children) slot d.nodes → slotKey slot ∈ slots

variable {r : Expanded Node} {expandBody : ExpandBody} {body : List Node}
  {slots : List (Option String)}
  (h : Instantiates setting inside site name (slotContent setting inside site name children) l r d
    expandBody body)

include h

theorem Instantiates.placed (hd : ∀ n ∈ d.nodes, n.IsWritten) :
    ∃ slots, Placed name children (given setting inside site name children) d body slots := by
  obtain ⟨others, rfl⟩ := h.filled
  obtain ⟨rest, slots, hf⟩ :=
    Slots.fillBody_fills hd (slotContent setting inside site name children).value
  refine ⟨slots, hf.nodup, ?_, fun slot hs ho => ?_⟩
  · rw [listHeld_forward, hf.held]
    exact List.map_congr_left fun slot hs => get_slotContent name children (hf.key slot hs)
  · exact hf.offered slot (has_slotContent.2 hs) (ho.imp fun _ => has_slotContent.1)

/-- Content for a named slot that is not declared is reported. -/
theorem Instantiates.reported {slot : String} (hl : asciiLower slot = slot)
    (hs : IsFilled name children (some slot)) (hd : ¬d.Declares (some slot)) :
    undeclared site d slot l ∈ r.diagnostics :=
  h.ofCheck (mem_checkContent (isLower_slotContent name children) hl (has_slotContent.2 hs) hd)

/-- What is written for a slot is put into the body, or is reported, or is overlooked. -/
theorem Instantiates.placed_or (hd : d.DeclaresPlaces)
    (hp : Placed name children (given setting inside site name children) d body slots)
    (hn : n ∈ children) (hm : m ∈ (routed name n).2) (hb : ¬m.isBlank) :
    (routed name n).1 ∈ slots ∨
      (∃ slot, (routed name n).1 = some slot ∧ undeclared site d slot l ∈ r.diagnostics) ∨
      d.Overlooks (IsFilled name children) (routed name n).1 := by
  have hfilled := isFilled_routed hn hm hb
  by_cases ho : ListOffers (IsFilled name children) (routed name n).1 d.nodes
  · exact .inl (slotKey_routed name n ▸ hp.reached _ hfilled ho)
  cases hr : (routed name n).1 with
  | none => exact .inr (.inr ⟨.inl rfl, hr ▸ ho⟩)
  | some slot =>
    by_cases hslot : d.Declares (some slot)
    · exact .inr (.inr ⟨.inr (hd.declares_iff.1 hslot), hr ▸ ho⟩)
    · exact .inr (.inl ⟨slot, rfl, h.reported (asciiLower_routed hr) (hr ▸ hfilled) hslot⟩)

/-- Where nothing is reported, only blanks have no place in a component that has room. -/
theorem Instantiates.isBlank_of_notMem (hd : d.DeclaresPlaces) (hroomy : d.IsRoomy)
    (hp : Placed name children (given setting inside site name children) d body slots)
    (hnil : r.diagnostics = []) (hn : n ∈ children) (hm : m ∈ (routed name n).2)
    (hs : (routed name n).1 ∉ slots) : m.isBlank := by
  by_contra hb
  obtain hslot | ⟨slot, -, hreport⟩ | ho := h.placed_or hd hp hn hm hb
  · exact hs hslot
  · exact List.not_mem_nil (hnil ▸ hreport)
  · exact hroomy.not_overlooks _ _ ho

end Usage

end Component

end PageCompiler
