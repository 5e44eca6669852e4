import PageCompiler.Proofs.Component.FirstPlaces
import PageCompiler.Proofs.Layout

/-!
Where a page stands in its layout. Main statement: the page stands, once and as a whole, in place of
the first default slot of the layout in the order of the document, and all other slots show their
fallbacks; the page is dropped, with a warning, just if there is no default slot.
-/

namespace PageCompiler

namespace Node

theorem shell_mapChildren (f : List Node → List Node) (n : Node) :
    (n.mapChildren f).shell = n.shell := by
  cases n with
  | conditional branches alternate d l =>
    cases alternate <;> simp [shell, mapChildren, Function.comp_def]
  | _ => rfl

theorem branches_ext {bs cs : List (String × List Node)}
    (hc : bs.map (fun b => (b.1, ([] : List Node))) = cs.map fun b => (b.1, []))
    (hn : bs.map Prod.snd = cs.map Prod.snd) : bs = cs := by
  have hfst : bs.map Prod.fst = cs.map Prod.fst := by
    simpa [Function.comp_def] using congrArg (List.map Prod.fst) hc
  rw [← List.zip_unzip bs, ← List.zip_unzip cs, List.unzip_eq_map, List.unzip_eq_map, hfst, hn]

/-- A node is what it is of its own and the lists below it. -/
theorem ext_shell {n m : Node} (hs : n.shell = m.shell) (hl : n.childLists = m.childLists) :
    n = m := by
  cases n with
  | conditional branches alternate d l =>
    cases m with
    | conditional branches' alternate' d' l' =>
      simp only [shell, mapChildren, Node.conditional.injEq] at hs
      obtain ⟨hb, ha, rfl, rfl⟩ := hs
      have hlength : (branches.map Prod.snd).length = (branches'.map Prod.snd).length := by
        simpa using congrArg List.length hb
      obtain ⟨hbodies, hlast⟩ := List.append_inj hl hlength
      obtain rfl := branches_ext hb hbodies
      cases alternate <;> cases alternate' <;> simp_all
    | _ => cases hs
  | _ => cases m <;> simp_all [shell, mapChildren, childLists]

end Node

namespace Layout

open Node (listDescendants slotsIn)

mutual

/-- A node of a layout in which all slots show their fallbacks. -/
def shown : Node → List Node
  | .slot _ fallback _ => shownAll fallback
  | .element tag as children closing l => [.element tag as (shownAll children) closing l]
  | .component name as children l => [.component name as (shownAll children) l]
  | .loop item source body d l => [.loop item source (shownAll body) d l]
  | .conditional branches alternate d l =>
    let alternate :=
      match alternate with
      | some nodes => some (shownAll nodes)
      | none => none
    [.conditional (shownBranches branches) alternate d l]
  | .island strategy script children l => [.island strategy script (shownAll children) l]
  | .isolated component bindings children l => [.isolated component bindings (shownAll children) l]
  | .callerScope children => [.callerScope (shownAll children)]
  | n => [n]
termination_by structural n => n

def shownAll : List Node → List Node
  | [] => []
  | n :: ns => shown n ++ shownAll ns
termination_by structural ns => ns

def shownBranches : List (String × List Node) → List (String × List Node)
  | [] => []
  | (condition, body) :: rest => (condition, shownAll body) :: shownBranches rest
termination_by structural bs => bs

end

/-- There is a default slot in the nodes, at any depth. -/
def HasPlace (ns : List Node) : Prop := ∃ fallback l, .slot none fallback l ∈ listDescendants ns

/-- The nodes `ns` become `ms`, with the page in place of the first default slot. In front of that
slot there is none, and its fallback goes with it. -/
inductive Receives (page : List Node) : List Node → List Node → Prop
  | here : Receives page [.slot none fallback l] page
  | fallback : Receives page fallback ms → Receives page [.slot (some name) fallback l] ms
  | inside : n.kind ≠ .slot → n.childLists = before ++ ns :: after →
    (∀ bs ∈ before, ¬HasPlace bs) → Receives page ns ms → m.shell = n.shell →
    m.childLists = before.map shownAll ++ ms :: after.map shownAll → Receives page [n] [m]
  | among : ¬HasPlace before → Receives page ns ms →
    Receives page (before ++ ns ++ after) (shownAll before ++ ms ++ shownAll after)

section Shown

variable {n : Node} {ns : List Node}

theorem shownBranches_eq (bs : List (String × List Node)) :
    shownBranches bs = bs.map fun b => (b.1, shownAll b.2) := by
  induction bs with
  | nil => rfl
  | cons b bs ih => rw [shownBranches, ih, List.map_cons]

theorem shown_of_ne (hs : n.kind ≠ .slot) : shown n = [n.mapChildren shownAll] := by
  cases n with
  | slot => exact absurd rfl hs
  | conditional branches alternate d l =>
    cases alternate <;> simp [shown, shownBranches_eq, Node.mapChildren]
  | _ => simp [shown, Node.mapChildren]

theorem shownAll_singleton (n : Node) : shownAll [n] = shown n := by
  rw [shownAll, shownAll, List.append_nil]

/-- No slot is left. -/
theorem slotsIn_shownAll (ns : List Node) : slotsIn (shownAll ns) = [] := by
  induction ns using Node.induct_lists (motive := fun n => slotsIn (shown n) = []) with
  | nil => rfl
  | node n ih =>
    by_cases hs : n.kind = .slot
    · cases n with
      | slot name fallback l => exact ih fallback (List.mem_singleton_self _)
      | _ => cases hs
    · have hkind : (n.mapChildren shownAll).kind = n.kind :=
        congrArg Node.Form.kind (Node.form_mapChildren shownAll n)
      rw [shown_of_ne hs, Node.slotsIn_singleton (hkind ▸ hs), Node.childLists_mapChildren,
        List.flatMap_map, List.flatMap_eq_nil_iff]
      exact ih
  | cons n ns hn _ hns => rw [shownAll, Node.slotsIn_append, hn, hns, List.append_nil]

end Shown

section HasPlace

variable {n : Node} {ns : List Node}

theorem not_hasPlace_nil : ¬HasPlace [] := by simp [HasPlace, listDescendants]

theorem hasPlace_cons : HasPlace (n :: ns) ↔ HasPlace [n] ∨ HasPlace ns := by
  simp only [HasPlace, listDescendants, List.mem_append, List.append_nil, exists_or]

theorem hasPlace_slot {name : Option String} {fallback : List Node} {l : Location} :
    HasPlace [.slot name fallback l] ↔ name = none ∨ HasPlace fallback := by
  simp only [HasPlace, listDescendants, Node.descendants, List.append_nil, List.mem_cons,
    Node.slot.injEq, exists_or]
  refine or_congr_left ?_
  constructor
  · rintro ⟨_, _, hname, -, -⟩
    exact hname.symm
  · intro hname
    exact ⟨fallback, l, hname.symm, rfl, rfl⟩

theorem hasPlace_of_ne (hs : n.kind ≠ .slot) :
    HasPlace [n] ↔ ∃ ns ∈ n.childLists, HasPlace ns := by
  have hne (fallback : List Node) (l : Location) : Node.slot none fallback l ≠ n := by
    intro h
    exact hs (h ▸ rfl)
  simp only [HasPlace, listDescendants, List.append_nil, Node.descendants_eq, List.mem_cons, hne,
    false_or, List.mem_flatMap]
  constructor
  · rintro ⟨fallback, l, ns, hns, h⟩
    exact ⟨ns, hns, fallback, l, h⟩
  · rintro ⟨ns, hns, fallback, l, h⟩
    exact ⟨fallback, l, ns, hns, h⟩

end HasPlace

section Run

variable {page : List Node} {n : Node} {ns : List Node}

/-- What comes of nodes while the page has no place yet, and what is left of it then: the page is
put in, or there is no place and the page is still there. -/
inductive Fills (page ns : List Node) : List Node × Option (List Node) → Prop
  | placed : HasPlace ns → Receives page ns ms → Fills page ns (ms, none)
  | kept : ¬HasPlace ns → Fills page ns (shownAll ns, some page)

/-- The same for several lists of nodes, one after the other. -/
inductive FillsLists (page : List Node) (lists : List (List Node)) :
    List (List Node) × Option (List Node) → Prop
  | placed : lists = before ++ cs :: after → (∀ bs ∈ before, ¬HasPlace bs) → HasPlace cs →
    Receives page cs ds →
    FillsLists page lists (before.map shownAll ++ ds :: after.map shownAll, none)
  | kept : (∀ ns ∈ lists, ¬HasPlace ns) → FillsLists page lists (lists.map shownAll, some page)

theorem run_fill_of_ne (hs : n.kind ≠ .slot) (s : Option (List Node)) :
    ∃ m t, (fill n).run s = ([m], t) ∧ m.shell = n.shell ∧
      Steps (Runs fillAll) n.childLists s m.childLists t := by
  obtain ⟨hshell, hsteps⟩ := Node.traverse_steps fillAll n s
  exact ⟨_, _, by rw [fill_of_ne hs]; rfl, hshell, hsteps⟩

theorem run_fillAll_cons {s t : Option (List Node)} {ms : List Node}
    (h : (fill n).run s = (ms, t)) :
    (fillAll (n :: ns)).run s = (ms ++ ((fillAll ns).run t).1, ((fillAll ns).run t).2) := by
  rw [fillAll, StateT.run_bind, h]
  rfl

theorem mapChildren_shownAll_eq {m : Node} (hm : m.shell = n.shell)
    (hl : m.childLists = n.childLists.map shownAll) : n.mapChildren shownAll = m :=
  Node.ext_shell ((Node.shell_mapChildren _ n).trans hm.symm)
    ((Node.childLists_mapChildren _ n).trans hl.symm)

theorem steps_none {lists outs : List (List Node)} {t : Option (List Node)}
    (h : Steps (Runs fillAll) lists none outs t)
    (hf : ∀ ns ∈ lists, (fillAll ns).run none = (shownAll ns, none)) :
    outs = lists.map shownAll ∧ t = none := by
  generalize hs : (none : Option (List Node)) = s at h
  induction h with
  | nil =>
    subst hs
    exact ⟨rfl, rfl⟩
  | cons hr _ ih =>
    subst hs
    rw [List.forall_mem_cons] at hf
    obtain ⟨rfl, rfl⟩ := Prod.mk.inj (hf.1.symm.trans hr)
    obtain ⟨rfl, rfl⟩ := ih hf.2 rfl
    exact ⟨rfl, rfl⟩

/-- Without a page every slot shows its fallback. -/
theorem run_fillAll_none (ns : List Node) : (fillAll ns).run none = (shownAll ns, none) := by
  induction ns using Node.induct_lists
    (motive := fun n => (fill n).run none = (shown n, none)) with
  | nil => rfl
  | node n ih =>
    by_cases hs : n.kind = .slot
    · cases n with
      | slot name fallback l =>
        cases name <;> exact ih fallback (List.mem_singleton_self _)
      | _ => cases hs
    · obtain ⟨m, t, hrun, hshell, hsteps⟩ := run_fill_of_ne hs none
      obtain ⟨hlists, rfl⟩ := steps_none hsteps ih
      rw [hrun, shown_of_ne hs, mapChildren_shownAll_eq hshell hlists]
  | cons n ns hn _ hns => rw [run_fillAll_cons hn, hns, shownAll]

theorem steps_some {lists outs : List (List Node)} {t : Option (List Node)}
    (h : Steps (Runs fillAll) lists (some page) outs t)
    (hf : ∀ ns ∈ lists, Fills page ns ((fillAll ns).run (some page))) :
    FillsLists page lists (outs, t) := by
  generalize hs : some page = s at h
  induction h with
  | nil =>
    subst hs
    exact .kept (List.forall_mem_nil _)
  | @cons ns s ms s' lists t outs hr hsteps ih =>
    subst hs
    obtain ⟨hns, hf⟩ := List.forall_mem_cons.1 hf
    rw [show (fillAll ns).run (some page) = (ms, s') from hr] at hns
    cases hns with
    | placed hp hrec =>
      -- behind the page, the traversal goes on without one
      obtain ⟨rfl, rfl⟩ := steps_none hsteps fun ns _ => run_fillAll_none ns
      show FillsLists page _ ([].map shownAll ++ ms :: lists.map shownAll, none)
      exact .placed rfl (List.forall_mem_nil _) hp hrec
    | kept hp =>
      cases ih hf rfl with
      | @placed before cs after ds hl hbefore hcs hrec =>
        subst hl
        show FillsLists page _ ((ns :: before).map shownAll ++ ds :: after.map shownAll, none)
        exact .placed rfl (List.forall_mem_cons.2 ⟨hp, hbefore⟩) hcs hrec
      | kept hno => exact .kept (List.forall_mem_cons.2 ⟨hp, hno⟩)

theorem fill_slot_fills {name : Option String} {fallback : List Node} {l : Location}
    (h : Fills page fallback ((fillAll fallback).run (some page))) :
    Fills page [.slot name fallback l] ((fill (.slot name fallback l)).run (some page)) := by
  cases name with
  | none => exact .placed (hasPlace_slot.2 (.inl rfl)) .here
  | some name =>
    change Fills page _ ((fillAll fallback).run (some page))
    generalize (fillAll fallback).run (some page) = r at h ⊢
    cases h with
    | placed hp hrec => exact .placed (hasPlace_slot.2 (.inr hp)) hrec.fallback
    | kept hp =>
      rw [← show shownAll [.slot (some name) fallback l] = shownAll fallback from
        shownAll_singleton _]
      exact .kept (by simpa [hasPlace_slot] using hp)

theorem fill_node_fills (hs : n.kind ≠ .slot)
    (h : ∀ ns ∈ n.childLists, Fills page ns ((fillAll ns).run (some page))) :
    Fills page [n] ((fill n).run (some page)) := by
  obtain ⟨m, t, hrun, hshell, hsteps⟩ := run_fill_of_ne hs (some page)
  rw [hrun]
  generalize hl : m.childLists = outs at hsteps
  cases steps_some hsteps h with
  | placed hlists hbefore hcs hrec =>
    refine .placed ((hasPlace_of_ne hs).2 ⟨_, by simp [hlists], hcs⟩) ?_
    exact .inside hs hlists hbefore hrec hshell hl
  | kept hno =>
    rw [← mapChildren_shownAll_eq hshell hl, ← shown_of_ne hs, ← shownAll_singleton]
    exact .kept (by simpa [hasPlace_of_ne hs] using hno)

theorem fillAll_fills (page ns : List Node) : Fills page ns ((fillAll ns).run (some page)) := by
  induction ns using Node.induct_lists
    (motive := fun n => Fills page [n] ((fill n).run (some page))) with
  | nil => exact .kept not_hasPlace_nil
  | node n ih =>
    by_cases hs : n.kind = .slot
    · cases n with
      | slot name fallback l => exact fill_slot_fills (ih fallback (List.mem_singleton_self _))
      | _ => cases hs
    · exact fill_node_fills hs ih
  | cons n ns hn _ hns =>
    generalize hr : (fill n).run (some page) = r at hn
    cases hn with
    | placed hp hrec =>
      rw [run_fillAll_cons hr, run_fillAll_none]
      exact .placed (hasPlace_cons.2 (.inl hp)) (.among not_hasPlace_nil hrec)
    | kept hp =>
      rw [run_fillAll_cons hr]
      generalize (fillAll ns).run (some page) = r at hns
      cases hns with
      | placed hp' hrec =>
        have hbehind : Receives page ([n] ++ ns ++ []) (shownAll [n] ++ _ ++ shownAll []) :=
          .among hp hrec
        exact .placed (hasPlace_cons.2 (.inr hp')) (by simpa [shownAll] using hbehind)
      | kept hp' =>
        rw [shownAll_singleton, ← shownAll]
        exact .kept (hasPlace_cons.not.2 (not_or.2 ⟨hp, hp'⟩))

end Run

/-- The slots that are left are those of the page. -/
theorem Receives.slotsIn_eq {page ns ms : List Node} (h : Receives page ns ms) :
    slotsIn ms = slotsIn page := by
  induction h with
  | here => rfl
  | fallback _ ih => exact ih
  | inside hs _ _ _ hm hl ih =>
    have hkind := congrArg Node.Form.kind (Node.form_of_shell hm)
    have hshown (lists : List (List Node)) : (lists.map shownAll).flatMap slotsIn = [] := by
      rw [List.flatMap_map, List.flatMap_eq_nil_iff]
      exact fun ns _ => slotsIn_shownAll ns
    rw [Node.slotsIn_singleton fun h => hs (hkind.symm.trans h), hl, List.flatMap_append,
      List.flatMap_cons, hshown, hshown, ih, List.nil_append, List.append_nil]
  | among _ _ ih =>
    rw [Node.slotsIn_append, Node.slotsIn_append, slotsIn_shownAll, slotsIn_shownAll, ih,
      List.nil_append, List.append_nil]

/-- A page in a layout: the page has the first default slot, or there is none and the page is
dropped. -/
theorem apply_receives {registry : Registry} {name : String} {layout : Definition}
    {page : List Node} (file : String) (hl : registry.layout? name = some layout)
    (hp : slotsIn page = []) :
    let r := apply registry name page file
    let dropped := (Diagnostic.warning .normalize .slotNotFound
      ("Layout `" ++ name ++ "` has no default slot; the page content is dropped.")).inFile file
    (HasPlace layout.nodes ∧ Receives page layout.nodes r.value.nodes ∧ r.diagnostics = [] ∨
      ¬HasPlace layout.nodes ∧ r.value.nodes = shownAll layout.nodes ∧
        r.diagnostics = [dropped]) ∧
      slotsIn r.value.nodes = [] ∧ r.value.styles = layout.styles ∧
      r.value.scripts = layout.scripts := by
  intro r dropped
  have hfills := fillAll_fills page layout.nodes
  generalize hrun : (fillAll layout.nodes).run (some page) = filled at hfills
  cases hfills with
  | @placed nodes hplace hrec =>
    have hr : r = pure ⟨nodes, layout.styles, layout.scripts⟩ := by
      simp only [r, apply, hl, hrun]
      rfl
    rw [hr]
    exact ⟨.inl ⟨hplace, hrec, rfl⟩, hrec.slotsIn_eq.trans hp, rfl, rfl⟩
  | kept hplace =>
    have hr : r = do
        report dropped
        return ⟨shownAll layout.nodes, layout.styles, layout.scripts⟩ := by
      simp only [r, apply, hl, hrun]
      rfl
    rw [hr]
    exact ⟨.inr ⟨hplace, rfl, rfl⟩, slotsIn_shownAll _, rfl, rfl⟩

/-- The first default slot of this layout stands in the fallback of a named slot. -/
theorem apply_receives_nav :
    let slot (name : Option String) (fallback : List Node) : Node := .slot name fallback .unknown
    let nodes := [slot (some "nav") [.newText "Home", slot none [.newText "Nothing"]], slot none []]
    let layout : Definition := ⟨"Main", "layouts/Main.ncl", [], [], nodes, [], []⟩
    let page := [Node.newText "Body"]
    let r := apply ⟨[], [layout]⟩ "Main" page "index.ncl"
    Registry.layout? ⟨[], [layout]⟩ "Main" = some layout ∧ slotsIn page = [] ∧
      HasPlace nodes ∧ Receives page nodes r.value.nodes ∧ r.diagnostics = [] := by
  intro slot nodes layout page r
  have hl : Registry.layout? ⟨[], [layout]⟩ "Main" = some layout := by
    simp [Registry.layout?, layout]
  have hplace : HasPlace nodes :=
    ⟨[], .unknown, by simp [nodes, slot, listDescendants, Node.descendants]⟩
  obtain ⟨⟨-, hrec, hd⟩ | ⟨hno, -⟩, -⟩ := @apply_receives _ _ _ page "index.ncl" hl rfl
  · exact ⟨hl, rfl, hplace, hrec, hd⟩
  · exact absurd hplace hno

end Layout

end PageCompiler
