import PageCompiler.Proofs.Islands
import PageCompiler.Proofs.Markers

/-!
Markers and modules of islands. Binding the nodes of an island adds actions in the order of their
markers, and extraction adds modules in the order of the islands. Main statement: what is written
of an island agrees with its module, or there is an error block and no module.
-/

namespace PageCompiler.Island

open Node (marks actionIds collect)

/-- The ids of actions have the id of their island in front of a number. -/
def actionId (island : String) (k : Nat) : String := island ++ "a" ++ toString k

def islandId (k : Nat) : String := "i" ++ toString k

theorem islandId_injective : Function.Injective islandId :=
  fun _ _ h => Nat.repr_injective ((String.append_right_inj _).1 h)

theorem actionId_injective (island : String) : Function.Injective (actionId island) :=
  fun _ _ h => Nat.repr_injective ((String.append_right_inj _).1 h)

theorem space_notMem_islandId (k : Nat) : ' ' ∉ (islandId k).toList := by
  simp [islandId, Text.space_notMem_toDigits]

theorem space_notMem_actionId {island : String} (h : ' ' ∉ island.toList) (k : Nat) :
    ' ' ∉ (actionId island k).toList := by
  simp [actionId, Text.space_notMem_toDigits, h]

theorem Script.mem_names_of_initial? {s : Script} {name : String} {v : Json.Value}
    (h : s.initial? name = some v) : name ∈ s.names := by
  obtain h | ⟨-, h⟩ := Option.or_eq_some_iff.1 h
  · obtain ⟨e, he, rfl⟩ := Option.map_eq_some_iff.1 h
    obtain rfl : e.name = name := by simpa using List.find?_some he
    exact List.mem_append_left _ (List.mem_map_of_mem (List.mem_of_find?_eq_some he))
  · obtain ⟨e, he, rfl⟩ := Option.map_eq_some_iff.1 h
    obtain rfl : e.name = name := by simpa using List.find?_some he
    exact List.mem_append_right _ (List.mem_map_of_mem (List.mem_of_find?_eq_some he))

theorem Script.mem_states_of_state? {s : Script} {name : String} (h : (s.state? name).isSome) :
    name ∈ s.states.map State.name := by
  obtain ⟨e, he⟩ := Option.isSome_iff_exists.1 h
  obtain rfl : e.name = name := by simpa using List.find?_some he
  exact List.mem_map_of_mem (List.mem_of_find?_eq_some he)

namespace Content

/-- From `c` to `d` by new actions, whose numbers follow those of the actions of `c`. -/
structure Adds (c : Content) (new : List Action) (d : Content) : Prop where
  id : d.id = c.id
  script : d.script = c.script
  actions : d.actions = c.actions ++ new
  ids : new.map Action.id = (List.range' c.actions.length new.length).map (actionId c.id)
  targets : ∀ a ∈ new, (c.script.state? a.mutation.target).isSome

instance : Accumulates Adds where
  nil c := ⟨rfl, rfl, (List.append_nil _).symm, rfl, List.forall_mem_nil _⟩
  append {c d e new more} h h' := by
    refine ⟨h'.id.trans h.id, h'.script.trans h.script, ?_, ?_, ?_⟩
    · rw [h'.actions, h.actions, List.append_assoc]
    · rw [List.map_append, h.ids, h'.ids, h.id, h.actions, List.length_append, List.length_append,
        ← List.map_append, List.range'_append_1]
    · have ht := h'.targets
      rw [h.script] at ht
      exact List.forall_mem_append.2 ⟨h.targets, ht⟩

namespace Adds

variable {c d : Content} {new : List Action}

theorem distinct (h : Adds c new d) : (new.map Action.id).Nodup := by
  rw [h.ids]
  exact List.Nodup.map (actionId_injective c.id) List.nodup_range'

theorem words (h : Adds c new d) (hid : ' ' ∉ c.id.toList) :
    (new.flatMap fun a => Text.words a.id) = new.map Action.id := by
  have hs (a : Action) (ha : a ∈ new) : ' ' ∉ a.id.toList := by
    have hm : a.id ∈ new.map Action.id := List.mem_map_of_mem ha
    rw [h.ids] at hm
    obtain ⟨k, -, hk⟩ := List.mem_map.1 hm
    rw [← hk]
    exact space_notMem_actionId hid k
  rw [List.map_eq_flatMap]
  exact List.flatMap_congr fun a ha => Text.words_of_notMem (hs a ha)

end Adds

theorem fail_emits (e : BindingError) (l : Location) :
    Emits Adds (fun _ new => new = []) (fail e l) :=
  fun _ => ⟨[], ⟨rfl, rfl, (List.append_nil _).symm, rfl, List.forall_mem_nil _⟩, rfl⟩

theorem mutation?_target {s : Script} {name : String} {value : AttributeValue} {m : Mutation}
    (h : mutation? s name value = .ok m) : (s.state? m.target).isSome := by
  unfold mutation? at h
  split at h
  · cases h
  · split at h
    · cases h
    · split at h
      · cases h
      · split at h
        · next hs =>
          cases h
          exact hs
        · cases h

theorem act_adds {c : Content} {m : Mutation} (h : (c.script.state? m.target).isSome)
    (event : String) :
    Adds c [⟨actionId c.id c.actions.length, event, m⟩] ((act event m).run c).2 :=
  ⟨rfl, rfl, rfl, rfl, List.forall_mem_singleton.2 h⟩

/-- Nothing is kept but the attribute, and the ids are those of the actions that are added. -/
theorem bindAttribute_emits (a : Attribute) :
    Emits Adds (fun r new => r.1 ⊆ [a] ∧ r.2 = new.map Action.id) (bindAttribute a) := by
  unfold bindAttribute
  split
  · split
    · exact .pure ⟨List.Subset.refl _, rfl⟩
    · exact .pure ⟨List.Subset.refl _, rfl⟩
    · refine .bind (fail_emits _ _) fun _ new hn => .pure ?_
      rw [hn]
      exact ⟨List.Subset.refl _, rfl⟩
  · next event _ =>
    refine .run_bind fun c => ?_
    split
    · next m h =>
      exact ⟨_, act_adds (mutation?_target h) event, List.nil_subset _, rfl⟩
    · next e _ =>
      obtain ⟨new, hadds, rfl⟩ := fail_emits e a.location c
      exact ⟨[], hadds, List.nil_subset _, rfl⟩

theorem bindAttributes_emits (as : List Attribute) :
    Emits Adds (fun r new => r.1 ⊆ as ∧ r.2 = new.map Action.id) (bindAttributes as) := by
  induction as with
  | nil => exact .pure ⟨List.Subset.refl _, rfl⟩
  | cons a as ih =>
    rw [bindAttributes]
    refine .bind (bindAttribute_emits a) fun _ new h => .bind ih fun _ more h' => .pure ⟨?_, ?_⟩
    · refine List.append_subset.2 ⟨List.Subset.trans h.1 ?_, List.subset_cons_of_subset a h'.1⟩
      exact List.cons_subset_cons a (List.nil_subset as)
    · rw [h.2, h'.2, List.append_nil, List.map_append]

/-- The markers of actions in a node have the words of the ids of these actions. That an id is one
word follows from the id of the island, which is not known here. -/
abbrev Announces (n : Node) (actions : List Action) : Prop :=
  n.collect actionIds = actions.flatMap fun a => Text.words a.id

theorem bindAll_emits {ns : List Node} (h : ∀ n ∈ ns, Emits Adds Announces (bindNode n)) :
    Emits Adds (fun ms new => ms.flatMap (collect actionIds) = new.flatMap fun a => Text.words a.id)
      (bindAll ns) := by
  rw [bindAll_eq]
  exact (Emits.mapM h).imp fun ms new hg => hg.flatMap fun _ _ _ _ hm => hm

theorem announces_nil {n : Node} (h : n.Everywhere Node.IsUnmarked) : Announces n [] :=
  Node.collect_eq_nil _ fun m hm => (h m hm).actionIds

def actionMark (ids : List String) : List Attribute :=
  if ids.isEmpty then [] else [.new "data-ncl-action" (.static (Text.join " " ids))]

/-- The marker of an element splits into the ids that it joins. -/
theorem actionIds_element {kept : List Attribute}
    (h : Attribute.valuesOf "data-ncl-action" kept = []) (ids : List String) :
    (Node.element tag (kept ++ actionMark ids) children closing l).actionIds =
      ids.flatMap Text.words := by
  rw [Node.actionIds, Node.marks, Node.attributes, Attribute.valuesOf_append, h, List.nil_append]
  cases ids with
  | nil => rfl
  | cons id ids =>
    rw [← Text.words_join (List.cons_ne_nil id ids)]
    simp [Attribute.valuesOf, actionMark, Attribute.isNamed, AttributeValue.words,
      Text.eqIgnoringAsciiCase]

theorem marker_announces (name : String) (initial : Json.Value) (l : Location) :
    Announces (marker name initial l) [] := by
  simp [Announces, marker, Node.collect_eq, Node.childLists, Node.actionIds, Node.marks,
    Node.attributes, Attribute.valuesOf, Attribute.isNamed, Text.eqIgnoringAsciiCase]

theorem traverse_emits {n : Node} (hn : n.IsUnmarked)
    (h : ∀ ns ∈ n.childLists, ∀ m ∈ ns, Emits Adds Announces (bindNode m)) :
    Emits Adds Announces (n.traverse bindAll) := by
  refine (Emits.traverse fun ns hns => bindAll_emits (h ns hns)).imp ?_
  rintro m new ⟨hs, hg⟩
  rw [Announces, Node.collect_eq, Node.actionIds_of_shell hs, hn.actionIds, List.nil_append]
  exact hg.flatMap fun _ _ _ _ hm => hm

theorem bindNode_emits {n : Node} (hn : n.Everywhere Node.IsUnmarked) :
    Emits Adds Announces (bindNode n) := by
  induction n using Node.induct_children with
  | node n ih =>
    obtain ⟨hn', hc⟩ := Node.everywhere_iff.1 hn
    replace ih (ns : List Node) (hns : ns ∈ n.childLists) (m : Node) (hm : m ∈ ns) :=
      ih ns hns m hm (hc ns hns m hm)
    cases n with
    | expression code raw l =>
      rw [bindNode]
      refine .run_bind fun c => ?_
      split
      · exact ⟨[], Accumulates.nil c, marker_announces _ _ _⟩
      · obtain ⟨new, hadds, rfl⟩ := fail_emits _ l c
        exact ⟨[], hadds, announces_nil hn⟩
    | element tag as children closing l =>
      rw [bindNode]
      refine .bind (bindAttributes_emits as) fun r new h => ?_
      refine .bind (bindAll_emits (ih children (List.mem_singleton_self _)))
        fun bound more hb => .pure ?_
      have hnone := Attribute.valuesOf_of_subset h.1 hn'.action
      rw [Announces, Node.collect_eq, ← actionMark, actionIds_element hnone, h.2, List.append_nil,
        List.flatMap_append, List.flatMap_map]
      exact congrArg _ ((List.flatMap_singleton _ _).trans hb)
    -- a nested island is an error and stays as it is, without markers
    | island strategy script children l =>
      rw [bindNode]
      refine .bind (fail_emits _ l) fun _ new h => .pure ?_
      rw [h]
      exact announces_nil hn
    | _ =>
      rw [bindNode_of_ne (by simp) (by simp) (by simp)]
      exact traverse_emits hn' ih

/-- A node of an island that is bound: nothing is open in it, and its names are declared. -/
structure IsBound (s : Script) (n : Node) : Prop where
  closed : n.kind ≠ .expression ∧
    ∀ a ∈ n.attributes, Component.isFixed a ∧ Content.event? a.name = none
  island : n.marks "data-ncl-island" = []
  names : ∀ v ∈ n.marks "data-ncl-bind", ∃ name ∈ s.names, v = .static name

theorem IsBound.of_no_attributes {s : Script} {n : Node} (hx : n.kind ≠ .expression)
    (ha : n.attributes = []) : IsBound s n := by
  have hm (name : String) : n.marks name = [] := by rw [Node.marks, ha]; rfl
  refine ⟨⟨hx, ?_⟩, hm _, ?_⟩
  · rw [ha]
    exact List.forall_mem_nil _
  · rw [hm]
    exact List.forall_mem_nil _

theorem IsBound.of_shell {s : Script} {n m : Node} (h : m.shell = n.shell) (hn : IsBound s n) :
    IsBound s m := by
  have hk : m.kind = n.kind := congrArg Node.Form.kind (Node.form_of_shell h)
  refine ⟨?_, ?_, ?_⟩
  · rw [hk, Node.attributes_of_shell h]
    exact hn.closed
  · rw [Node.marks_of_shell h]
    exact hn.island
  · rw [Node.marks_of_shell h]
    exact hn.names

theorem marker_isBound {s : Script} {name : String} (h : name ∈ s.names) (initial : Json.Value)
    (l : Location) : (marker name initial l).Everywhere (IsBound s) := by
  refine Node.everywhere_element.2 ⟨⟨⟨by simp, ?_⟩, ?_, ?_⟩, ?_⟩
  · exact List.forall_mem_singleton.2 (by simp [Component.isFixed, event?])
  · refine Attribute.valuesOf_eq_nil.2 (List.forall_mem_singleton.2 ?_)
    simp [Attribute.isNamed, Text.eqIgnoringAsciiCase]
  · simp [Node.marks, Node.attributes, Attribute.valuesOf, Attribute.isNamed,
      Text.eqIgnoringAsciiCase, h]
  · exact List.forall_mem_singleton.2 (Node.everywhere_text.2 (.of_no_attributes (by simp) rfl))

theorem actionMark_isFixed (ids : List String) : ∀ a ∈ actionMark ids,
    Component.isFixed a ∧ event? a.name = none := by
  unfold actionMark
  split
  · exact List.forall_mem_nil _
  · exact List.forall_mem_singleton.2 (by simp [Component.isFixed, event?])

theorem valuesOf_actionMark (ids : List String) :
    Attribute.valuesOf "data-ncl-island" (actionMark ids) = [] ∧
      Attribute.valuesOf "data-ncl-bind" (actionMark ids) = [] := by
  unfold actionMark
  split
  · exact ⟨rfl, rfl⟩
  · simp [Attribute.valuesOf, Attribute.isNamed, Text.eqIgnoringAsciiCase]

/-- An element that is bound has attributes of its own, and maybe actions. -/
theorem element_isBound {s : Script} {as kept : List Attribute}
    (hn : (Node.element tag as written closing l).IsUnmarked)
    (hk : ∀ a ∈ kept, a ∈ as ∧ Component.isFixed a ∧ event? a.name = none) (ids : List String) :
    IsBound s (.element tag (kept ++ actionMark ids) children closing l) := by
  have hsub : kept ⊆ as := fun a ha => (hk a ha).1
  obtain ⟨hisland, hbind⟩ := valuesOf_actionMark ids
  refine ⟨⟨by simp, ?_⟩, ?_, ?_⟩
  · exact List.forall_mem_append.2 ⟨fun a ha => (hk a ha).2, actionMark_isFixed ids⟩
  · rw [Node.marks, Node.attributes, Attribute.valuesOf_append, hisland,
      Attribute.valuesOf_of_subset hsub hn.island, List.append_nil]
  · rw [Node.marks, Node.attributes, Attribute.valuesOf_append, hbind,
      Attribute.valuesOf_of_subset hsub hn.bind, List.append_nil]
    exact List.forall_mem_nil _

theorem bindNode_isBound {S : Script → Prop} {s : Script} (hS : ∀ t, S t → t = s) {n : Node}
    (hn : n.Everywhere Node.IsUnmarked) : Binds S (·.Everywhere (IsBound s)) (bindNode n) := by
  induction n using Node.induct_children with
  | node n ih =>
    obtain ⟨hn', hc⟩ := Node.everywhere_iff.1 hn
    replace ih (ns : List Node) (hns : ns ∈ n.childLists) :=
      bindAll_binds fun m hm => ih ns hns m hm (hc ns hns m hm)
    cases n with
    | expression code raw l =>
      rw [bindNode]
      refine .bind Reveals.get fun c => ?_
      split
      · next initial hinitial =>
        refine .pure fun hs => ?_
        rw [hS _ hs.1] at hinitial
        exact marker_isBound (Script.mem_names_of_initial? hinitial) _ _
      · exact .bind Binds.fail fun _ => .pure False.elim
    | element tag as children closing l =>
      rw [bindNode]
      refine .bind (bindAttributes_binds as) fun r => ?_
      refine .bind (ih children (List.mem_singleton_self _)) fun bound => .pure fun hb hk => ?_
      exact Node.everywhere_element.2 ⟨element_isBound hn' hk r.2, hb⟩
    | island strategy script children l =>
      rw [bindNode]
      exact .bind Binds.fail fun _ => .pure False.elim
    | _ =>
      rw [bindNode_of_ne (by simp) (by simp) (by simp)]
      refine (Reveals.traverse ih).imp fun m hm => ?_
      have hb : IsBound s m := .of_shell hm.shell (.of_no_attributes (by simp) rfl)
      exact Node.everywhere_iff.2 ⟨hb, hm.lists⟩

end Content

section Wrapper

variable (id : String) (strategy : Strategy) (children : List Node) (l : Location)

theorem collect_wrapper {α : Type} (f : Node → List α) :
    (wrapper id strategy children l).collect f =
      f (wrapper id strategy children l) ++ children.flatMap (collect f) := by
  rw [Node.collect_eq]
  exact congrArg _ (List.flatMap_singleton _ _)

/-- The only marker of a wrapper is that of its island. -/
theorem marks_wrapper :
    (wrapper id strategy children l).marks "data-ncl-island" = [.static id] ∧
      (wrapper id strategy children l).marks "data-ncl-action" = [] ∧
      (wrapper id strategy children l).marks "data-ncl-bind" = [] := by
  cases strategy <;>
    simp [wrapper, Node.marks, Node.attributes, Attribute.valuesOf, Attribute.isNamed,
      Text.eqIgnoringAsciiCase, Strategy.query?]

theorem wrapper_attributes : ∀ a ∈ (wrapper id strategy children l).attributes,
    Component.isFixed a ∧ Content.event? a.name = none := by
  cases strategy <;>
    simp [wrapper, Node.attributes, Component.isFixed, Content.event?, Strategy.query?]

end Wrapper

/-- An island that is well is wrapped, and its module has its id. -/
theorem bind_wraps {id : String} {strategy : Strategy} {script : String} {children : List Node}
    {l : Location} {w : Node} {m : Module} (hid : ' ' ∉ id.toList)
    (hn : ∀ n ∈ children, n.Everywhere Node.IsUnmarked)
    (h : bind id strategy script children l = .ok (w, m)) : Wraps w m ∧ m.id = id := by
  obtain ⟨s, bound, c, -, hrun, he, rfl, rfl⟩ := bind_eq_ok h
  obtain ⟨new, hadds, hnew⟩ :=
    Content.bindAll_emits (fun n hc => Content.bindNode_emits (hn n hc)) ⟨id, s, [], []⟩
  have hbound := Content.bindAll_binds (S := (· = s))
    (fun n hc => Content.bindNode_isBound (fun _ h => h) (hn n hc)) ⟨id, s, [], []⟩
  rw [hrun] at hadds hnew hbound
  replace hbound := (hbound ⟨hadds.script, he⟩).2
  have hactions : c.actions = new := hadds.actions
  obtain ⟨hisland, haction, hbind⟩ := marks_wrapper id strategy bound l
  refine ⟨{
    element := rfl, own := hisland, alone := ?_, actions := ?_, distinct := ?_, targets := ?_,
    names := ?_, closed := ?_ }, rfl⟩
  · have hnone : bound.flatMap (collect (marks "data-ncl-island")) = [] :=
      List.flatMap_eq_nil_iff.2 fun n hn =>
        Node.collect_eq_nil _ fun m hm => (hbound n hn m hm).island
    rw [collect_wrapper, hisland, hnone, List.append_nil]
  · rw [collect_wrapper, Node.actionIds, haction, List.flatMap_nil, List.nil_append, hnew, hactions]
    exact hadds.words hid
  · rw [hactions]
    exact hadds.distinct
  · rw [hactions]
    exact fun a ha => Script.mem_states_of_state? (hadds.targets a ha)
  · rw [collect_wrapper, hbind, List.nil_append]
    exact List.forall_mem_flatMap.2 fun n hn => List.forall_mem_flatMap.2 fun m hm =>
      (hbound n hn m hm).names
  · exact Node.everywhere_element.2
      ⟨⟨by simp, wrapper_attributes _ _ _ _⟩, fun n hn m hm => (hbound n hn m hm).closed⟩

namespace Extraction

/-- From `e` to `f` by the outcomes of further islands, each of which takes a number. The ids of
the modules are among those of the islands. -/
structure Extends (e : Extraction) (os : List Outcome) (f : Extraction) : Prop where
  count : f.count = e.count + os.length
  modules : f.modules = e.modules ++ os.flatMap Outcome.modules
  diagnostics : f.diagnostics = e.diagnostics ++ os.flatMap Outcome.problems
  ids : ((os.flatMap Outcome.modules).map Module.id).Sublist
    ((List.range' e.count os.length).map islandId)
  sound : ∀ o ∈ os, o.IsSound

instance : Accumulates Extends where
  nil e := ⟨rfl, (List.append_nil _).symm, (List.append_nil _).symm, .slnil, List.forall_mem_nil _⟩
  append {e f g os more} h h' := by
    refine ⟨?_, ?_, ?_, ?_, List.forall_mem_append.2 ⟨h.sound, h'.sound⟩⟩
    · rw [h'.count, h.count, List.length_append, Nat.add_assoc]
    · rw [h'.modules, h.modules, List.flatMap_append, List.append_assoc]
    · rw [h'.diagnostics, h.diagnostics, List.flatMap_append, List.append_assoc]
    · have hids := h'.ids
      rw [h.count] at hids
      rw [List.flatMap_append, List.map_append, List.length_append, ← List.range'_append_1,
        List.map_append]
      exact h.ids.append hids

theorem extractIsland_emits {children : List Node}
    (hn : ∀ n ∈ children, n.Everywhere Node.IsUnmarked) (file : String) (strategy : Strategy)
    (script : String) (l : Location) :
    Emits Extends (fun m os => ∃ o : Outcome, m = o.node ∧ os = [o])
      (extractIsland file strategy script children l) := by
  refine .run_bind fun e => ?_
  split
  · next node m h =>
    obtain ⟨hw, hid⟩ := bind_wraps (space_notMem_islandId e.count) hn h
    refine ⟨[.wrapped node m], ⟨rfl, rfl, (List.append_nil _).symm, ?_, ?_⟩, _, rfl, rfl⟩
    · show [m.id].Sublist [islandId e.count]
      rw [hid]
    · exact List.forall_mem_singleton.2 hw
  · next errors h =>
    refine ⟨[.failed _ _], ⟨rfl, (List.append_nil _).symm,
      congrArg _ (List.append_nil _).symm, List.nil_sublist _, ?_⟩, _, rfl, rfl⟩
    refine List.forall_mem_singleton.2 ⟨rfl, mt List.map_eq_nil_iff.1 (bind_error_ne h), ?_⟩
    exact List.forall_mem_map.2 fun _ _ => ⟨rfl, rfl⟩

theorem extractAll_emits {ns : List Node} {file : String}
    (h : ∀ n ∈ ns, Emits Extends (Becomes n) (extract file n)) :
    Emits Extends (Gather Becomes ns) (extractAll file ns) := by
  rw [extractAll_eq]
  exact .mapM h

theorem extract_emits {n : Node} (hn : n.Everywhere Node.IsUnmarked) (file : String) :
    Emits Extends (Becomes n) (extract file n) := by
  induction n using Node.induct_children with
  | node n ih =>
    obtain ⟨-, hc⟩ := Node.everywhere_iff.1 hn
    have ih (ns : List Node) (hns : ns ∈ n.childLists) :=
      extractAll_emits fun m hm => ih ns hns m hm (hc ns hns m hm)
    by_cases hi : n.kind = .island
    · cases n with
      | island strategy script children l =>
        rw [extract]
        refine (extractIsland_emits (hc children (List.mem_singleton_self _)) file strategy script
          l).imp ?_
        rintro _ _ ⟨o, rfl, rfl⟩
        exact .island rfl
      | _ => cases hi
    · rw [extract_of_ne hi]
      exact (Emits.traverse ih).imp fun m os h => .node hi h.1 h.2

end Extraction

theorem Outcome.IsSound.marks {o : Outcome} (h : o.IsSound) :
    o.node.collect (Node.marks "data-ncl-island") = (o.modules.map Module.id).map .static := by
  cases o with
  | wrapped w m => exact h.alone
  | failed block problems =>
    obtain ⟨hp, -⟩ := h
    cases block with
    | error => rfl
    | _ => cases hp

/-- Each island that is not inside of another one becomes an element and a module whose markers
agree, or an error block and errors; nothing else changes. The ids of the modules are those of the
islands in the document, in order, and no two of them are the same. -/
theorem extractIslands_marks (file : String) {ns : List Node}
    (h : ∀ n ∈ Node.listDescendants ns, n.IsUnmarked) :
    let x := extractIslands file ns
    ∃ outcomes : List Outcome, Gather Becomes ns x.nodes outcomes ∧ (∀ o ∈ outcomes, o.IsSound) ∧
      x.modules = outcomes.flatMap Outcome.modules ∧
      x.diagnostics = outcomes.flatMap Outcome.problems ∧
      (Node.listDescendants x.nodes).flatMap (marks "data-ncl-island") =
        (x.modules.map Module.id).map .static ∧ (x.modules.map Module.id).Nodup := by
  intro x
  have h := Node.forall_listDescendants.1 h
  obtain ⟨outcomes, hx, hg⟩ :=
    Extraction.extractAll_emits (fun n hn => Extraction.extract_emits (h n hn) file) ⟨0, [], []⟩
  have hmodules : x.modules = outcomes.flatMap Outcome.modules := hx.modules
  refine ⟨outcomes, hg, hx.sound, hmodules, hx.diagnostics, ?_, ?_⟩
  · have hmarks (n : Node) (hn : n ∈ ns) (m : Node) (os : List Outcome) (hm : Becomes n m os) :=
      hm.collect (fun n m hs => Node.marks_of_shell hs "data-ncl-island")
        fun k hk => (h n hn k hk).island
    calc (Node.listDescendants x.nodes).flatMap (marks "data-ncl-island")
      _ = x.nodes.flatMap (collect (marks "data-ncl-island")) := Node.flatMap_listDescendants _ _
      _ = outcomes.flatMap fun o => o.node.collect (marks "data-ncl-island") := hg.flatMap hmarks
      _ = outcomes.flatMap fun o => (o.modules.map Module.id).map .static :=
        List.flatMap_congr fun o ho => (hx.sound o ho).marks
      _ = (x.modules.map Module.id).map .static := by
        rw [hmodules, List.map_flatMap, List.map_flatMap]
  · rw [hmodules]
    exact hx.ids.nodup (List.Nodup.map islandId_injective List.nodup_range')

/-- An island with an unknown name takes a number, but has no module. -/
theorem extractIslands_marks_failed :
    let click := Attribute.new "onclick" (.static "count.update(|n| *n += 1)")
    let count := Node.expression "count" "count" .unknown
    let button := Node.element "button" [click] [count] false .unknown
    let ns := [Node.island .load "" [count] .unknown,
      .element "p" [] [.island .idle "let count = Signal(0)" [button] .unknown] false .unknown]
    let x := extractIslands "a.html" ns
    (∀ n ∈ Node.listDescendants ns, n.IsUnmarked) ∧ x.modules.map Module.id = ["i1"] ∧
      (Node.listDescendants x.nodes).flatMap (marks "data-ncl-island") = [.static "i1"] := by
  intro click count button ns x
  have h : ∀ n ∈ Node.listDescendants ns, n.IsUnmarked := by decide +kernel
  have hm : x.modules.map Module.id = ["i1"] := by decide +kernel
  obtain ⟨_, _, _, _, _, hmarks, _⟩ := extractIslands_marks "a.html" h
  exact ⟨h, hm, hmarks.trans (congrArg _ hm)⟩

end PageCompiler.Island
