import PageCompiler.Proofs.Component.Instance

/-!
What becomes of the content of a usage in the expansion of the component. Main statement: no
content is there twice, and content that is not in the body of the component has been reported,
unless it is for the default slot or for a slot whose places all stand in the fallbacks of filled
ones. Where there are no such slots and nothing else is reported, all of it is in the expansion.
-/

namespace PageCompiler

namespace Node

variable {n : Node}

/-- What was given to the next instance further out stands in what was given to this one. -/
theorem IsBody.held_succ (h : n.IsBody) (k : Nat) :
    n.held (k + 1) = (n.held 0).flatMap (listHeld k) := by
  induction n using induct_children with
  | node n ih =>
    by_cases hc : n.kind = .callerScope
    · cases n with
      | callerScope children => simp [held]
      | _ => cases hc
    · rw [held_of_ne (h.kind_ne hc) hc, held_of_ne (h.kind_ne hc) hc, List.flatMap_assoc]
      refine List.flatMap_congr fun ns hns => ?_
      rw [listHeld_eq, listHeld_eq, List.flatMap_assoc]
      exact List.flatMap_congr fun m hm => ih ns hns m hm ((h.of_ne hc).2 ns hns m hm)

theorem listHeld_succ {ns : List Node} (h : ∀ n ∈ ns, n.IsBody) (k : Nat) :
    listHeld (k + 1) ns = (listHeld 0 ns).flatMap (listHeld k) := by
  rw [listHeld_eq, listHeld_eq, List.flatMap_assoc]
  exact List.flatMap_congr fun n hn => (h n hn).held_succ k

variable {f : List Node → Expanded (List Node)}

theorem traverse_branches_expanded (bs : List (String × List Node)) :
    let r : Expanded (List (String × List Node)) := bs.mapM fun b => do return (b.1, ← f b.2)
    r.value = bs.map (fun b => (b.1, (f b.2).value)) ∧
      r.diagnostics = (bs.map Prod.snd).flatMap fun ns => (f ns).diagnostics := by
  induction bs with
  | nil => exact ⟨rfl, rfl⟩
  | cons b bs ih =>
    intro r
    have hr : r = (f b.2 >>= fun ns => bs.mapM (fun b => do return (b.1, ← f b.2)) >>= fun bs =>
        pure ((b.1, ns) :: bs)) := by
      simp only [r, List.mapM_cons, bind_assoc, pure_bind]
    rw [hr]
    refine ⟨congrArg (_ :: ·) ih.1, ?_⟩
    rw [List.map_cons, List.flatMap_cons, ← ih.2]
    exact congrArg (_ ++ ·) (List.append_nil _)

/-- The lists of a node are rebuilt one after the other. -/
theorem traverse_expanded (n : Node) :
    (n.traverse f).value = n.mapChildren (fun ns => (f ns).value) ∧
      (n.traverse f).diagnostics = n.childLists.flatMap fun ns => (f ns).diagnostics := by
  cases n with
  | conditional branches alternate d l =>
    obtain ⟨hv, hd⟩ := traverse_branches_expanded (f := f) branches
    cases alternate with
    | none =>
      refine ⟨congrArg (conditional · none d l) hv, ?_⟩
      rw [childLists, Option.toList_none, List.append_nil, ← hd]
      exact List.append_nil _
    | some nodes =>
      refine ⟨congrArg (conditional · _ d l) hv, ?_⟩
      rw [childLists, Option.toList_some, List.flatMap_append, ← hd, List.flatMap_singleton]
      exact congrArg (_ ++ ·) (List.append_nil _)
  | text | expression | comment | doctype | error => exact ⟨rfl, rfl⟩
  | _ => exact ⟨rfl, by rw [childLists, List.flatMap_singleton]; exact List.append_nil _⟩

end Node

namespace Component

open Node (listHeld ListOffers)
open scoped List

section Lists

variable {α β : Type} {as : List α} {f g : α → List β}

theorem subperm_flatMap (h : ∀ a ∈ as, f a <+~ g a) : as.flatMap f <+~ as.flatMap g := by
  induction as with
  | nil => exact .refl _
  | cons a as ih =>
    rw [List.forall_mem_cons] at h
    exact h.1.append (ih h.2)

theorem flatMap_ite [DecidableEq α] (h : as.Nodup) (a : α) (bs : List β) :
    (as.flatMap fun b => if a = b then bs else []) = if a ∈ as then bs else [] := by
  induction as with
  | nil => rfl
  | cons b as ih =>
    obtain ⟨hb, h⟩ := List.nodup_cons.1 h
    rw [List.flatMap_cons, ih h]
    by_cases hab : a = b
    · subst hab
      simp [hb]
    · simp [hab]

end Lists

section Routing

variable {parent : String} {children : List Node} {slots : List (Option String)}

theorem listHeld_routed (parent : String) (n : Node) (k : Nat) :
    listHeld k (routed parent n).2 = n.held k := by
  cases n with
  | component name as children l =>
    rw [routed]
    split <;> simp [listHeld, Node.held]
  | element tag as children closing l =>
    rw [routed]
    split <;> simp [listHeld, Node.held]
  | _ => exact List.append_nil _

/-- Each child is for one slot. -/
theorem perm_writtenFor {β : Type} (h : slots.Nodup) (f : Node → List β) :
    (slots.flatMap fun s => (writtenFor parent s children).flatMap f) ~
      children.flatMap fun n =>
        if (routed parent n).1 ∈ slots then (routed parent n).2.flatMap f else [] := by
  induction children with
  | nil => simp [writtenFor]
  | cons n ns ih =>
    have hcons (s : Option String) : (writtenFor parent s (n :: ns)).flatMap f =
        (if (routed parent n).1 = s then (routed parent n).2.flatMap f else []) ++
          (writtenFor parent s ns).flatMap f := by
      rw [writtenFor, List.flatMap_cons, List.flatMap_append, apply_ite (List.flatMap f)]
      rfl
    simp only [hcons]
    refine (List.flatMap_append_perm _ _ _).symm.trans ?_
    rw [flatMap_ite h, List.flatMap_cons]
    by_cases hr : (routed parent n).1 ∈ slots
    · rw [if_pos hr, if_pos hr]
      exact ih.append_left _
    · rw [if_neg hr, if_neg hr]
      exact ih

end Routing

/-! ### Content in an expansion -/

/-- The expansion `r` of `n` has no more content than `n`, and has all of it if there is nothing to
report, provided that `roomy` holds. -/
structure HandsOn (roomy : Prop) (n : Node) (r : Expanded Node) : Prop where
  noMore : ∀ k, r.value.held k <+~ n.held k
  all : roomy → r.diagnostics = [] → ∀ k, r.value.held k ~ n.held k

structure ListHandsOn (roomy : Prop) (ns : List Node) (r : Expanded (List Node)) : Prop where
  noMore : ∀ k, listHeld k r.value <+~ listHeld k ns
  all : roomy → r.diagnostics = [] → ∀ k, listHeld k r.value ~ listHeld k ns

section Usage

variable {setting : Setting} {inside : Option ExpandBody} {site : Site} {d : Definition}
  {name : String} {children : List Node}

theorem listHeld_expandAll (ns : List Node) (k : Nat) :
    listHeld k (expandAll setting inside site ns).value =
      ns.flatMap fun n => (expand setting inside site n).value.held k := by
  rw [value_expandAll, Node.listHeld_eq, List.flatMap_map]

theorem listHeld_given (slot : Option String) (k : Nat) :
    listHeld k (given setting inside site name children slot) =
      (writtenFor name slot children).flatMap fun m =>
        (expand setting inside site m).value.held k := by
  rw [given, ← value_expandAll, listHeld_expandAll]

/-- What stands in a body when content has been put into it is what stands in the content. -/
theorem Placed.perm {body : List Node} {slots : List (Option String)}
    (hp : Placed name children (given setting inside site name children) d body slots)
    (hb : ∀ n ∈ body, n.IsBody) (k : Nat) :
    listHeld (k + 1) body ~ children.flatMap fun n =>
      if (routed name n).1 ∈ slots then
        listHeld k (expandAll setting inside site (routed name n).2).value
      else [] := by
  rw [Node.listHeld_succ hb, hp.held, List.flatMap_map]
  simp only [listHeld_given, listHeld_expandAll]
  exact perm_writtenFor hp.nodup _

theorem listHeld_children (children : List Node) (k : Nat) :
    listHeld k children = children.flatMap fun n => listHeld k (routed name n).2 := by
  rw [Node.listHeld_eq]
  exact List.flatMap_congr fun n _ => (listHeld_routed name n k).symm

end Usage

section Expansion

variable {setting : Setting} {inside : Option ExpandBody} {site : Site} {d : Definition}
  {name : String} {children : List Node} {l : Location} {roomy : Prop}

theorem ListHandsOn.of_forall {ns : List Node}
    (h : ∀ n ∈ ns, HandsOn roomy n (expand setting inside site n)) :
    ListHandsOn roomy ns (expandAll setting inside site ns) where
  noMore k := by
    rw [value_expandAll, Node.listHeld_eq, Node.listHeld_eq, List.flatMap_map]
    exact subperm_flatMap fun n hn => (h n hn).noMore k
  all hroomy hd k := by
    rw [diagnostics_expandAll, List.flatMap_eq_nil_iff] at hd
    rw [value_expandAll, Node.listHeld_eq, Node.listHeld_eq, List.flatMap_map]
    exact List.Perm.flatMap_left ns fun n hn => (h n hn).all hroomy (hd n hn) k

/-- A node that is not a usage holds what its lists hold. -/
theorem HandsOn.of_childLists {n : Node} (hf : n.IsBody) (hc : n.kind ≠ .component)
    (hs : n.kind ≠ .callerScope)
    (h : ∀ ns ∈ n.childLists, ListHandsOn roomy ns (expandAll setting inside site ns)) :
    HandsOn roomy n (expand setting inside site n) := by
  obtain ⟨hvalue, hdiag⟩ := Node.traverse_expanded (f := expandAll setting inside site) n
  rw [← expand_of_ne hc hs] at hvalue hdiag
  have hi := hf.kind_ne hs
  have hheld (k : Nat) : (expand setting inside site n).value.held k =
      n.childLists.flatMap fun ns => listHeld k (expandAll setting inside site ns).value := by
    have hkind : (expand setting inside site n).value.kind = n.kind := by
      rw [hvalue]
      exact congrArg Node.Form.kind (Node.form_mapChildren _ n)
    rw [Node.held_of_ne (hkind ▸ hi) (hkind ▸ hs), hvalue, Node.childLists_mapChildren,
      List.flatMap_map]
  refine ⟨fun k => ?_, fun hroomy hd k => ?_⟩
  · rw [hheld, Node.held_of_ne hi hs]
    exact subperm_flatMap fun ns hns => (h ns hns).noMore k
  · rw [hdiag, List.flatMap_eq_nil_iff] at hd
    rw [hheld, Node.held_of_ne hi hs]
    exact List.Perm.flatMap_left _ fun ns hns => (h ns hns).all hroomy (hd ns hns) k

theorem HandsOn.of_fails {n : Node} {r : Expanded Node} (h : Fails r) : HandsOn roomy n r := by
  obtain ⟨⟨problem, message, l, hvalue⟩, hd⟩ := h
  refine ⟨fun k => ?_, fun _ hn => absurd hn hd⟩
  rw [hvalue]
  exact List.nil_subperm

/-- Entering a body hands all in it on. -/
def OpensOn (roomy : Prop) (f : ExpandBody) : Prop :=
  ∀ site ns, (∀ n ∈ ns, n.IsBody) → ListHandsOn roomy ns (f site ns)

/-- The content of a usage is handed on if each part of it is. -/
theorem Instantiates.handsOn {r : Expanded Node} {expandBody : ExpandBody} {body : List Node}
    (hi : Instantiates setting inside site name (slotContent setting inside site name children) l r
      d expandBody body) (hw : ∀ n ∈ d.nodes, n.IsWritten) (hd : d.DeclaresPlaces)
    (hroom : roomy → d.IsRoomy) (hin : OpensOn roomy expandBody)
    (h : ∀ n ∈ children, ListHandsOn roomy (routed name n).2
      (expandAll setting inside site (routed name n).2)) {as : List Attribute} :
    HandsOn roomy (.component name as children l) r := by
  obtain ⟨slots, hp⟩ := hi.placed hw
  have hnodes := hi.isBody hw
  have hbody := hin ⟨site.stack ++ [d.name], d.path⟩ body hnodes
  obtain ⟨bindings, hv⟩ := hi.value
  refine ⟨fun k => ?_, fun hroomy hnil k => ?_⟩
  · rw [hv, Node.held, Node.held, listHeld_children children]
    refine ((hbody.noMore (k + 1)).trans (hp.perm hnodes k).subperm).trans ?_
    refine subperm_flatMap fun n hn => ?_
    split
    · exact (h n hn).noMore k
    · exact List.nil_subperm
  · have hcontent := List.subset_nil.1 (hnil ▸ hi.ofContent)
    have hall := hbody.all hroomy (List.subset_nil.1 (hnil ▸ hi.ofBody)) (k + 1)
    rw [hv, Node.held, Node.held, listHeld_children children]
    refine (hall.trans (hp.perm hnodes k)).trans (List.Perm.flatMap_left children fun n hn => ?_)
    split
    · refine (h n hn).all hroomy ?_ k
      rw [diagnostics_expandAll, List.flatMap_eq_nil_iff]
      exact fun m hm => diagnostics_routed hcontent hn hm
    · next hslot =>
      rw [Node.listHeld_eq, List.flatMap_eq_nil_iff.2]
      exact fun m hm =>
        Node.held_of_isBlank (hi.isBlank_of_notMem hd (hroom hroomy) hp hnil hn hm hslot) k

/-- A part of a child is the child itself but for its attributes, or right below it. -/
theorem mem_routed {parent : String} {n m : Node} (h : m ∈ (routed parent n).2) :
    m.kind = n.kind ∧ m.childLists = n.childLists ∨
      n.kind = .component ∧ ∃ ns ∈ n.childLists, m ∈ ns := by
  cases n with
  | component name as children l =>
    rw [routed] at h
    split at h
    · exact .inr ⟨rfl, children, List.mem_singleton_self _, h⟩
    all_goals
      obtain rfl := List.mem_singleton.1 h
      exact .inl ⟨rfl, rfl⟩
  | element tag as children closing l =>
    rw [routed] at h
    split at h <;>
    · obtain rfl := List.mem_singleton.1 h
      exact .inl ⟨rfl, rfl⟩
  | _ =>
    obtain rfl := List.mem_singleton.1 h
    exact .inl ⟨rfl, rfl⟩

section Registered

variable
  (hdefs : ∀ d ∈ setting.registry.components, (∀ n ∈ d.nodes, n.IsWritten) ∧ d.DeclaresPlaces)

include hdefs

theorem HandsOn.of_usage (hin : ∀ f ∈ inside, OpensOn setting.registry.IsRoomy f)
    (h : ∀ n ∈ children, ListHandsOn setting.registry.IsRoomy (routed name n).2
      (expandAll setting inside site (routed name n).2)) (as : List Attribute) :
    HandsOn setting.registry.IsRoomy (.component name as children l)
      (expand setting inside site (.component name as children l)) := by
  rw [expand_component]
  obtain hf | ⟨d, expandBody, body, hi⟩ :=
    useName_cases name as (slotContent setting inside site name children)
  · exact .of_fails hf
  · have hd := Registry.component?_mem hi.found
    obtain ⟨hw, hplaces⟩ := hdefs d hd
    exact hi.handsOn hw hplaces (fun hroomy => hroomy d hd) (hin expandBody hi.entered) h

theorem expandAll_handsOn (hin : ∀ f ∈ inside, OpensOn setting.registry.IsRoomy f)
    {ns : List Node} (hns : ∀ n ∈ ns, n.IsBody) :
    ListHandsOn setting.registry.IsRoomy ns (expandAll setting inside site ns) := by
  -- a part of the content may have lost an attribute, so the nodes are taken by what is below them
  let motive (n : Node) : Prop := ∀ m : Node, m.kind = n.kind → m.childLists = n.childLists →
    m.IsBody → HandsOn setting.registry.IsRoomy m (expand setting inside site m)
  suffices h : ∀ n ∈ ns, motive n ∧ ∀ cs ∈ n.childLists, ∀ c ∈ cs, motive c from
    .of_forall fun n hn => (h n hn).1 n rfl rfl (hns n hn)
  refine @Node.induct_lists motive
    (fun ns => ∀ n ∈ ns, motive n ∧ ∀ cs ∈ n.childLists, ∀ c ∈ cs, motive c)
    ?_ (List.forall_mem_nil _) ?_ ns
  · intro n ih m hk hl hm
    have hlist (cs) (hcs : cs ∈ m.childLists) :
        ∀ c ∈ cs, motive c ∧ ∀ ds ∈ c.childLists, ∀ d ∈ ds, motive d := ih cs (hl ▸ hcs)
    by_cases hs : m.kind = .callerScope
    · cases m with
      | callerScope => exact ⟨fun _ => .refl _, fun _ _ _ => .refl _⟩
      | _ => cases hs
    have hsub := (hm.of_ne hs).2
    by_cases hc : m.kind = .component
    · cases m with
      | component name as children l =>
        refine .of_usage hdefs hin (fun c hc => .of_forall fun part hpart => ?_) as
        obtain ⟨hself, hbelow⟩ := hlist children (List.mem_singleton_self _) c hc
        have hfc := hsub children (List.mem_singleton_self _) c hc
        obtain ⟨hk, hl⟩ | ⟨hk, ds, hds, hpart⟩ := mem_routed hpart
        · exact hself part hk hl (Node.IsBody.congr hfc hk hl)
        · refine hbelow ds hds part hpart part rfl rfl ?_
          exact (hfc.of_ne (by rw [hk]; nofun)).2 ds hds part hpart
      | _ => cases hc
    · exact .of_childLists hm hc hs fun cs hcs => .of_forall fun c hc =>
        (hlist cs hcs c hc).1 c rfl rfl (hsub cs hcs c hc)
  · intro n ns hn hcs hns
    exact List.forall_mem_cons.2 ⟨⟨hn, fun cs h c hc => (hcs cs h c hc).1⟩, hns⟩

theorem insideBody_opensOn (levels : Nat) :
    ∀ f ∈ insideBody setting levels, OpensOn setting.registry.IsRoomy f := by
  induction levels with
  | zero => nofun
  | succ levels ih =>
    rintro f hf
    cases hf
    exact fun site ns hns => expandAll_handsOn hdefs ih hns

end Registered

/-- What becomes of the content of a usage of `name` that is expanded to an instance of `d` with the
nodes `kids`. The body of `d` has become `body` with the content of `slots` in it. -/
structure Delivers (setting : Setting) (inside : Option ExpandBody) (site : Site) (name : String)
    (children : List Node) (l : Location) (diagnostics : List Diagnostic) (kids : List Node)
    (d : Definition) (body : List Node) (slots : List (Option String)) : Prop where
  found : setting.registry.component? name = some d
  /-- The content of each of these slots stands there once, as a whole. -/
  placed : Placed name children (given setting inside site name children) d body slots
  /-- Each child is for one of these slots, or is reported, or is overlooked. -/
  placed_or : ∀ n ∈ children, ∀ m ∈ (routed name n).2, ¬m.isBlank →
    (routed name n).1 ∈ slots ∨
      (∃ slot, (routed name n).1 = some slot ∧ undeclared site d slot l ∈ diagnostics) ∨
      d.Overlooks (IsFilled name children) (routed name n).1
  /-- The expansion of the body has no more content, and has all of it if nothing is reported and
  all components have room. -/
  expanded : ∃ expandBody ∈ inside,
    let inner := expandBody ⟨site.stack ++ [d.name], d.path⟩ body
    kids = inner.value ∧ inner.diagnostics ⊆ diagnostics ∧
      ListHandsOn setting.registry.IsRoomy body inner

/-- Nothing is lost where all components have room and nothing is reported. -/
theorem Delivers.all {diagnostics : List Diagnostic} {kids body : List Node}
    {slots : List (Option String)}
    (h : Delivers setting inside site name children l diagnostics kids d body slots)
    (hroomy : setting.registry.IsRoomy) (hnil : diagnostics = []) :
    listHeld 0 kids ~ slots.map (given setting inside site name children) ∧
      ∀ n ∈ children, ∀ m ∈ (routed name n).2, ¬m.isBlank → (routed name n).1 ∈ slots := by
  obtain ⟨expandBody, -, rfl, hinner, hall⟩ := h.expanded
  refine ⟨?_, fun n hn m hm hb => ?_⟩
  · rw [← h.placed.held]
    exact hall.all hroomy (List.subset_nil.1 (hnil ▸ hinner)) 0
  · obtain hs | ⟨slot, -, hreport⟩ | ho := h.placed_or n hn m hm hb
    · exact hs
    · exact absurd (hnil ▸ hreport) List.not_mem_nil
    · exact absurd ho ((hroomy d (Registry.component?_mem h.found)).not_overlooks _ _)

/-- The content of a usage is in the expansion at most once; it is lost only if that is reported or
the component overlooks its slot, or else within the body. -/
theorem expand_delivers {known : ParseTable} (hk : known.IsWritten) {documents : List Document}
    {maxDepth : Nat} (levels : Nat) (site : Site) (name : String) (as : List Attribute)
    (children : List Node) (l : Location) :
    let setting : Setting := ⟨(discover known documents).value.registry, maxDepth⟩
    let inside := insideBody setting levels
    let r := expand setting inside site (.component name as children l)
    r.value.kind = .isolated →
      ∃ d bindings kids, r.value = .isolated d.name bindings kids l ∧
        ∃ body slots,
          Delivers setting inside site name children l r.diagnostics kids d body slots := by
  intro setting inside r hkind
  have hdefs : ∀ d ∈ setting.registry.components, (∀ n ∈ d.nodes, n.IsWritten) ∧
      d.DeclaresPlaces := fun d hd =>
    ⟨(discover_sat hk documents).value.registry.components d hd,
      (discover_declaresPlaces known documents).components d hd⟩
  have hcases : Fails r ∨ ∃ d expandBody body, Instantiates setting inside site name
      (slotContent setting inside site name children) l r d expandBody body := by
    rw [show r = _ from expand_component name as children l]
    exact useName_cases name as _
  obtain ⟨⟨problem, message, l', hv⟩, -⟩ | ⟨d, expandBody, body, hi⟩ := hcases
  · rw [hv] at hkind
    cases hkind
  obtain ⟨hw, hplaces⟩ := hdefs d (Registry.component?_mem hi.found)
  obtain ⟨bindings, hv⟩ := hi.value
  obtain ⟨slots, hp⟩ := hi.placed hw
  refine ⟨d, bindings, _, hv, body, slots, hi.found, hp, ?_, expandBody, hi.entered, rfl,
    hi.ofBody, ?_⟩
  · exact fun n hn m hm hb => hi.placed_or hplaces hp hn hm hb
  · exact insideBody_opensOn hdefs levels expandBody hi.entered _ body (hi.isBody hw)

theorem expand_delivers_panel :
    let panel := Document.ofMarkup "Panel.ncl" "<section><slot name='header'/><slot/></section>"
    let setting : Setting := ⟨(discover [] [panel]).value.registry, 8⟩
    let inside := insideBody setting 8
    let children := [Node.component "Panel.Header" [] [.newText "one"] .unknown, .newText "two"]
    let r := expand setting inside ⟨[], "page.ncl"⟩ (.component "Panel" [] children .unknown)
    ∃ d bindings kids, r.value = .isolated d.name bindings kids .unknown ∧
      ∃ body slots, Delivers setting inside ⟨[], "page.ncl"⟩ "Panel" children .unknown
        r.diagnostics kids d body slots := by
  refine expand_delivers (List.forall_mem_nil _) 8 ⟨[], "page.ncl"⟩ "Panel" [] _ .unknown ?_
  decide +kernel

/-- Content for a default slot that the component does not have is lost without a report. -/
theorem expand_drops_default :
    let card := Document.ofMarkup "Card.ncl" "<div></div>"
    let setting : Setting := ⟨(discover [] [card]).value.registry, 8⟩
    let r := expand setting (insideBody setting 8) ⟨[], "page.ncl"⟩
      (.component "Card" [] [.newText "hello"] .unknown)
    r.value.kind = .isolated ∧ r.diagnostics = [] ∧ ¬(Node.newText "hello").isBlank ∧
      ∀ n ∈ r.value.descendants, n.kind ≠ .callerScope ∧ n.kind ≠ .text := by
  decide +kernel

/-- So is content for a slot whose only place is the fallback of a filled one. -/
example :
    let panel := Document.ofMarkup "Panel.ncl" "<slot><slot name='footer'/></slot>"
    let setting : Setting := ⟨(discover [] [panel]).value.registry, 8⟩
    let footer := Node.component "Panel.Footer" [] [.newText "two"] .unknown
    let r := expand setting (insideBody setting 8) ⟨[], "page.ncl"⟩
      (.component "Panel" [] [.newText "one", footer] .unknown)
    r.value.kind = .isolated ∧ r.diagnostics = [] ∧
      (r.value.descendants.filter fun n => n.kind = .text).length = 1 := by
  decide +kernel

end Expansion

end Component

end PageCompiler
