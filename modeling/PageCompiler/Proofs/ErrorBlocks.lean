import PageCompiler.Proofs.Component.ErrorBlocks
import PageCompiler.Proofs.Output

/-!
No error block is silent. Every stage reports the problem of a block where it makes the block, and
all later stages keep the report. Main statement: the blocks on a page show errors of the report of
its pass, also where definitions and documents are remembered of earlier passes.
-/

namespace PageCompiler

open Json (Value Object)

variable {E : Problem → Prop}

theorem Markup.reads_showsOnly (E : Problem → Prop) :
    Reads (fun f => ∀ problem ∈ f.problem?, E problem) (·.Within E) where
  plain _ _ _ _ := nofun
  error _ _ _ _ h _ hp := Option.some.inj hp ▸ h rfl

namespace Resolver

variable {r : Resolver} {l : Location}

theorem failHere_under (problem : Problem) (message : String) :
    (r.failHere problem message l).Under (·.Within E) (Node.ShowsOnly E) :=
  .bind (.report trivial) fun _ h => .pure (Node.showsOnly_error (h rfl))

theorem expression_under (lookup : String → Option Value) (e : Expr) (code raw : String) :
    (r.expression lookup e code raw l).Under (·.Within E) (Node.ShowsOnly E) := by
  unfold expression
  split
  · split
    · exact .pure Node.showsOnly_text
    · exact failHere_under _ _
  · split
    · exact failHere_under _ _
    · exact .bind (.any _) fun _ _ => .pure Node.showsOnly_text

end Resolver

namespace ControlFlow

variable {r : Resolver} {s : Scope} {l : Location}

theorem expandAll_under {ns : List Node}
    (h : ∀ n ∈ ns, (expand r s n).Under (·.Within E) (∀ m ∈ ·, m.ShowsOnly E)) :
    (expandAll r s ns).Under (·.Within E) (∀ m ∈ ·, m.ShowsOnly E) := by
  induction ns with
  | nil => exact .pure (List.forall_mem_nil _)
  | cons n ns ih =>
    rw [List.forall_mem_cons] at h
    rw [expandAll]
    exact .bind h.1 fun _ ha => .bind (ih h.2) fun _ hb =>
      .pure (List.forall_mem_append.2 ⟨ha, hb⟩)

theorem expandBranches_under {bs : List (String × List Node)}
    (h : ∀ b ∈ bs, ∀ n ∈ b.2, (expand r s n).Under (·.Within E) (∀ m ∈ ·, m.ShowsOnly E)) :
    (expandBranches r s l bs).Under (·.Within E) (∀ ns ∈ ·, ∀ m ∈ ns, m.ShowsOnly E) := by
  induction bs with
  | nil => exact .pure nofun
  | cons b bs ih =>
    rw [List.forall_mem_cons] at h
    rw [expandBranches]
    refine .bind (.any _) fun _ _ => ?_
    split
    · exact .bind (expandAll_under h.1) fun _ ha => .pure fun _ he => Option.some.inj he ▸ ha
    · exact ih h.2

theorem expand_under {n : Node} (hn : n.ShowsOnly E) (s : Scope) :
    (expand r s n).Under (·.Within E) (∀ m ∈ ·, m.ShowsOnly E) := by
  induction n generalizing s with
  | loop item source body d l ih =>
    obtain ⟨-, hn⟩ := Node.everywhere_loop.1 hn
    rw [expand]
    split
    · refine Reported.SatIf.concat (List.forall_mem_map.2 fun g _ => ?_)
      exact expandAll_under fun n h => ih n h (hn n h) g
    · exact .bind (Resolver.failHere_under _ _) fun _ h => .pure (List.forall_mem_singleton.2 h)
  | conditional branches alternate d l ihb iha =>
    obtain ⟨-, hb, ha⟩ := Node.everywhere_conditional.1 hn
    have hbs := expandBranches_under (r := r) (l := l)
      fun b h n h' => ihb b h n h' (hb b h n h') s
    cases alternate with
    | none =>
      rw [expand]
      refine .bind hbs fun o ho => ?_
      cases o with
      | none => exact .pure (List.forall_mem_nil _)
      | some nodes => exact .pure (ho nodes rfl)
    | some alternate =>
      rw [expand]
      refine .bind hbs fun o ho => ?_
      cases o with
      | none => exact expandAll_under fun n h => iha alternate rfl n h (ha alternate rfl n h) s
      | some nodes => exact .pure (ho nodes rfl)
  | isolated component bindings children l ih =>
    obtain ⟨-, hn⟩ := Node.everywhere_isolated.1 hn
    rw [expand]
    exact .bind (.any _) fun _ _ => expandAll_under fun n h => ih n h (hn n h) _
  | callerScope children ih =>
    obtain ⟨-, hn⟩ := Node.everywhere_callerScope.1 hn
    rw [expand]
    exact expandAll_under fun n h => ih n h (hn n h) _
  | expression code raw l =>
    rw [expand]
    split
    · split
      · exact .bind (Resolver.expression_under _ _ _ _) fun _ h =>
          .pure (List.forall_mem_singleton.2 h)
      · exact .pure (List.forall_mem_singleton.2 hn)
    · exact .pure (List.forall_mem_singleton.2 hn)
  | element tag as children closing l ih =>
    obtain ⟨-, hn⟩ := Node.everywhere_element.1 hn
    rw [expand]
    refine .bind (.any _) fun _ _ => .bind (expandAll_under fun n h => ih n h (hn n h) s) ?_
    exact fun _ hc => .pure (List.forall_mem_singleton.2 (Node.showsOnly_list rfl rfl hc))
  | component _ _ _ _ ih | slot _ _ _ ih | island _ _ _ _ ih =>
    have hn := (Node.everywhere_list rfl).1 hn
    rw [expand]
    refine .bind (expandAll_under fun n h => ih n h (hn.2 n h) s) fun _ hc => .pure ?_
    exact List.forall_mem_singleton.2 (Node.showsOnly_list rfl rfl hc)
  | text | comment | doctype | error => exact .pure (List.forall_mem_singleton.2 hn)

end ControlFlow

namespace Interpolation

variable {r : Resolver} {data : Object}

theorem resolveAll_under {own : IslandNames} {ns : List Node}
    (h : ∀ n ∈ ns, (resolve r data own n).Under (·.Within E) (Node.ShowsOnly E)) :
    (resolveAll r data own ns).Under (·.Within E) (∀ m ∈ ·, m.ShowsOnly E) := by
  induction ns with
  | nil => exact .pure (List.forall_mem_nil _)
  | cons n ns ih =>
    rw [List.forall_mem_cons] at h
    rw [resolveAll]
    exact .bind h.1 fun _ ha => .bind (ih h.2) fun _ hb =>
      .pure (List.forall_mem_cons.2 ⟨ha, hb⟩)

theorem resolveBranches_under {own : IslandNames} {bs : List (String × List Node)}
    (h : ∀ b ∈ bs, ∀ n ∈ b.2, (resolve r data own n).Under (·.Within E) (Node.ShowsOnly E)) :
    (resolveBranches r data own bs).Under (·.Within E) (∀ b ∈ ·, ∀ m ∈ b.2, m.ShowsOnly E) := by
  induction bs with
  | nil => exact .pure (List.forall_mem_nil _)
  | cons b bs ih =>
    rw [List.forall_mem_cons] at h
    rw [resolveBranches]
    exact .bind (resolveAll_under h.1) fun _ ha => .bind (ih h.2) fun _ hb =>
      .pure (List.forall_mem_cons.2 ⟨ha, hb⟩)

theorem resolve_under {n : Node} (hn : n.ShowsOnly E) (own : IslandNames) :
    (resolve r data own n).Under (·.Within E) (Node.ShowsOnly E) := by
  induction n generalizing own with
  | expression code raw l =>
    rw [resolve]
    split
    · exact Resolver.failHere_under _ _
    · split
      · exact .pure hn
      · exact Resolver.expression_under _ _ _ _
  | element tag as children closing l ih =>
    obtain ⟨-, hn⟩ := Node.everywhere_element.1 hn
    rw [resolve]
    refine .bind (.any _) fun _ _ => .bind (resolveAll_under fun n h => ih n h (hn n h) own) ?_
    exact fun _ hc => .pure (Node.showsOnly_list rfl rfl hc)
  | conditional branches alternate d l ihb iha =>
    obtain ⟨-, hb, ha⟩ := Node.everywhere_conditional.1 hn
    have hbs := resolveBranches_under fun b h n h' => ihb b h n h' (hb b h n h') own
    cases alternate with
    | none =>
      rw [resolve]
      exact .bind hbs fun _ hc => .pure (Node.showsOnly_conditional hc (by simp))
    | some nodes =>
      have hns := resolveAll_under fun n h => iha nodes rfl n h (ha nodes rfl n h) own
      rw [resolve]
      refine .bind hbs fun _ hc => .bind hns fun _ hc' => .pure ?_
      exact Node.showsOnly_conditional hc fun _ he => Option.some.inj he ▸ hc'
  | component _ _ _ _ ih | slot _ _ _ ih | loop _ _ _ _ _ ih | island _ _ _ _ ih
  | isolated _ _ _ _ ih | callerScope _ ih =>
    have hn := (Node.everywhere_list rfl).1 hn
    rw [resolve]
    refine .bind (resolveAll_under fun n h => ih n h (hn.2 n h) _) fun _ hc => .pure ?_
    exact Node.showsOnly_list rfl rfl hc
  | text | comment | doctype | error => exact .pure hn

end Interpolation

theorem evaluateNodes_under (mode : Mode) (data : Object) (file : String) {ns : List Node}
    (h : ∀ n ∈ ns, n.ShowsOnly E) :
    (evaluateNodes mode data file ns).Under (·.Within E) (∀ n ∈ ·, n.ShowsOnly E) :=
  .bind (ControlFlow.expandAll_under fun n hn => ControlFlow.expand_under (h n hn) _) fun _ hc =>
    Interpolation.resolveAll_under fun n hn => Interpolation.resolve_under (hc n hn) none

namespace Island

namespace Content

theorem bindNode_showsOnly {n : Node} (hn : n.ShowsOnly E) :
    Keeps (fun _ => True) (Node.ShowsOnly E) (bindNode n) := by
  induction n using Node.induct_children with
  | node n ih =>
    have hchild (ns) (hns : ns ∈ n.childLists) :
        Keeps (fun _ => True) (∀ m ∈ ·, m.ShowsOnly E) (bindAll ns) := by
      rw [bindAll_eq]
      exact .mapM fun m hm => ih ns hns m hm ((Node.everywhere_iff.1 hn).2 ns hns m hm)
    cases n with
    | expression code raw l =>
      rw [bindNode]
      refine .bind (.any _) fun _ _ => ?_
      split
      · exact .pure (Node.showsOnly_list rfl rfl (List.forall_mem_singleton.2 Node.showsOnly_text))
      · exact .bind (.any _) fun _ _ => .pure hn
    | element tag as children closing l =>
      rw [bindNode]
      refine .bind (.any _) fun _ _ => .bind (hchild children (List.mem_singleton_self _)) ?_
      exact fun _ hc => .pure (Node.showsOnly_list rfl rfl hc)
    | island strategy script children l =>
      rw [bindNode]
      exact .bind (.any _) fun _ _ => .pure hn
    | _ =>
      rw [bindNode_of_ne (by simp) (by simp) (by simp)]
      exact (Keeps.traverse hchild).imp fun _ hm => hm.ofForms (Node.everywhere_iff.1 hn).1

end Content

theorem bind_showsOnly {id : String} {strategy : Strategy} {script : String}
    {children : List Node} {l : Location} {node : Node} {m : Module}
    (hc : ∀ n ∈ children, n.ShowsOnly E)
    (h : bind id strategy script children l = .ok (node, m)) : node.ShowsOnly E := by
  obtain ⟨s, bound, c, -, hrun, -, rfl, -⟩ := bind_eq_ok h
  have hb : Keeps (fun _ => True) (∀ n ∈ ·, n.ShowsOnly E) (Content.bindAll children) := by
    rw [Content.bindAll_eq]
    exact .mapM fun n hn => Content.bindNode_showsOnly (hc n hn)
  obtain ⟨hbound, -⟩ := hb ⟨id, s, [], []⟩ trivial
  rw [hrun] at hbound
  exact Node.showsOnly_list rfl rfl hbound

namespace Extraction

/-- The errors that have been reported are of problems of `E`. -/
abbrev Within (E : Problem → Prop) (e : Extraction) : Prop := ∀ d ∈ e.diagnostics, d.Within E

theorem extractIsland_showsOnly {children : List Node} (hc : ∀ n ∈ children, n.ShowsOnly E)
    (file : String) (strategy : Strategy) (script : String) (l : Location) :
    Reveals (Within E) (Node.ShowsOnly E) (extractIsland file strategy script children l) := by
  refine .bind (V := fun _ => True) (fun _ he => ⟨he, trivial⟩) fun id => ?_
  split
  · next node m h => exact fun _ he => ⟨he, fun _ => bind_showsOnly hc h⟩
  · next errors h =>
    intro e he
    obtain ⟨he, hd⟩ := List.forall_mem_append.1 he
    obtain ⟨x, hx⟩ := List.exists_mem_of_ne_nil _ (bind_error_ne h)
    exact ⟨he, fun _ => Node.showsOnly_error (hd _ (List.mem_map_of_mem hx) rfl)⟩

theorem extract_showsOnly (file : String) {n : Node} (hn : n.ShowsOnly E) :
    Reveals (Within E) (Node.ShowsOnly E) (extract file n) := by
  induction n using Node.induct_children with
  | node n ih =>
    have hlists := (Node.everywhere_iff.1 hn).2
    by_cases hi : n.kind = .island
    · cases n with
      | island strategy script children l =>
        rw [extract]
        exact extractIsland_showsOnly (hlists children (List.mem_singleton_self _)) _ _ _ _
      | _ => cases hi
    · have hchild (ns) (hns : ns ∈ n.childLists) :
          Reveals (Within E) (∀ m ∈ ·, m.ShowsOnly E) (extractAll file ns) := by
        rw [extractAll_eq]
        exact .mapM fun m hm => ih ns hns m hm (hlists ns hns m hm)
      rw [extract_of_ne hi]
      exact (Reveals.traverse hchild).imp fun _ hm => hm.ofForms (Node.everywhere_iff.1 hn).1

end Extraction

theorem extractIslands_showsOnly (file : String) {ns : List Node} (h : ∀ n ∈ ns, n.ShowsOnly E)
    (hd : ∀ d ∈ (extractIslands file ns).diagnostics, d.Within E) :
    ∀ n ∈ (extractIslands file ns).nodes, n.ShowsOnly E := by
  have hx : Reveals (Extraction.Within E) (∀ n ∈ ·, n.ShowsOnly E)
      (Extraction.extractAll file ns) := by
    rw [Extraction.extractAll_eq]
    exact .mapM fun n hn => Extraction.extract_showsOnly file (h n hn)
  exact (hx ⟨0, [], []⟩ hd).2

end Island

theorem finishNodes_under (mode : Mode) (data : Object) (file : String) {ns : List Node}
    (h : ∀ n ∈ ns, n.ShowsOnly E) :
    (finishNodes mode data file ns).Under (·.Within E) fun r => ∀ n ∈ r.1, n.ShowsOnly E := by
  refine .bind (evaluateNodes_under mode data file h) fun ns hn => ?_
  refine .bind (.reports fun _ _ => trivial) fun _ hd => .bind (.any _) fun _ _ => .pure ?_
  exact Island.extractIslands_showsOnly file hn hd

section Page

variable {registry : Registry} {page : Page} {t : Template}

/-- The definitions of a registry show problems of `E` only. -/
abbrev Registry.ShowsOnly (E : Problem → Prop) : Registry → Prop :=
  Registry.OfForms fun f => ∀ problem ∈ f.problem?, E problem

theorem arrange_under (o : Options) (page : Page) (hr : registry.ShowsOnly E)
    (ht : ∀ n ∈ t.nodes, n.ShowsOnly E) :
    (arrange o registry page t).Under (·.Within E) fun a => ∀ n ∈ a.nodes, n.ShowsOnly E := by
  have hrest (applied : Layout.Applied) (ha : ∀ n ∈ applied.nodes, n.ShowsOnly E) :
      (do
        let expanded := Component.expandNodes ⟨registry, o.maxComponentDepth⟩ page.path
          applied.nodes
        expanded.diagnostics.forM report
        let used := expanded.used.filterMap registry.component?
        return {
          nodes := expanded.value
          styles := applied.styles ++ used.flatMap Definition.styles ++ t.styles ++
            page.stylesheet.toList
          scripts := applied.scripts ++ used.flatMap Definition.scripts ++ t.findings.scripts ++
            page.script.toList } : Reported Arranged).Under (·.Within E)
        fun a => ∀ n ∈ a.nodes, n.ShowsOnly E :=
    .bind (.reports fun _ _ => trivial) fun _ hd => .pure <|
      @Component.expandNodes_under E ⟨registry, o.maxComponentDepth⟩ hr.components page.path _ ha hd
  unfold arrange
  split
  · next name _ =>
    have ha := Layout.apply_sat hr name page.path (fun _ _ h => h) ht
    exact .bind (Reported.SatIf.of_sat ha).under hrest
  · exact .bind (.pure ht) hrest

theorem writtenTree_showsOnly {o : Options} {data : Object} (hr : registry.ShowsOnly E)
    (hp : ∀ n ∈ page.nodes, n.ShowsOnly E)
    (hd : (compilePage o data registry page).Each (·.Within E)) :
    ∀ n ∈ writtenTree o data registry page, n.ShowsOnly E := by
  have ht := Template.ofNodes_ofForms .page page.path nofun (fun _ _ h => h) hp
  obtain ⟨-, hd⟩ := Reported.each_bind.1 hd
  obtain ⟨ha, hd⟩ := Reported.each_bind.1 hd
  obtain ⟨hf, -⟩ := Reported.each_bind.1 hd
  exact (finishNodes_under o.mode data page.path (arrange_under o page hr ht ha).value hf).value

end Page

namespace Compiler

variable {c : Compiler} {documents : List Document} {data : Object}

/-- What is remembered of documents shows problems of `E` only where its report does. -/
abbrev CacheShowsOnly (E : Problem → Prop) (c : Compiler) : Prop :=
  c.cache.OfForms (fun f => ∀ problem ∈ f.problem?, E problem) (·.Within E)

theorem within_of_not_hasErrors {α : Type} {r : Reported α} (h : ¬hasErrors r) :
    r.Each (·.Within E) :=
  fun d hd he => absurd (List.any_eq_true.2 ⟨d, hd, he⟩) h

theorem compile_cacheShowsOnly (hc : c.CacheShowsOnly E) :
    (c.compile documents data).2.CacheShowsOnly E := by
  cases hs : selectPage c.options (discover c.cache documents).value with
  | error e =>
    rw [compile_of_error hs]
    exact hc
  | ok selected =>
    rw [compile_of_ok hs]
    dsimp only
    split
    · exact hc
    -- a pass without errors is within any problems
    · next h =>
      have hr := within_of_not_hasErrors (E := E) h
      have hd := (Reported.each_bind.1 hr).1
      exact (discover_satIf (Markup.reads_showsOnly E) hc documents hd).value.parsed

theorem Reachable.cacheShowsOnly (h : c.Reachable) (E : Problem → Prop) : c.CacheShowsOnly E := by
  induction h with
  | new => exact List.forall_mem_nil _
  | compile documents data _ ih => exact compile_cacheShowsOnly ih

/-- Every error block of the tree that is written is of a problem that the report of the pass has an
error of. So a pass with a block in its tree has errors: nothing is remembered of it, and in strict
mode it has no page. -/
theorem compile_reports_blocks (hc : c.Reachable) {selected : Option Page}
    (hs : Page.select c.options.entry (discover c.cache documents).value.pages = .ok selected) :
    let d := discover c.cache documents
    let tree := writtenTree c.options data d.value.registry (Page.orEmpty selected).value
    let r := pageReport c.options data d selected
    (c.compile documents data).1 = judge c.options.mode r ∧
    (∃ shell : Shell, r.value.html =
      shell.document (Markup.renderAll (tree.filter fun n => !n.isDoctype))) ∧
    (∀ problem message l, .error problem message l ∈ Node.listDescendants tree →
      ∃ x ∈ r.diagnostics, x.isError ∧ x.problem = problem) ∧
    ((∃ n ∈ Node.listDescendants tree, n.isError) →
      hasErrors r ∧ (c.compile documents data).2 = c ∧
      (c.options.mode = .strict →
        (c.compile documents data).1 = .error (.refused r.diagnostics))) := by
  intro d tree r
  have hcompile : c.compile documents data =
      (judge c.options.mode r, if hasErrors r then c else { c with cache := d.value.parsed }) :=
    compile_of_ok hs
  -- the problems that the report has errors of
  let E (problem : Problem) : Prop := ∃ x ∈ r.diagnostics, x.isError ∧ x.problem = problem
  have hr : r.Each (·.Within E) := fun x hx he => ⟨x, hx, he, rfl⟩
  have htree : ∀ n ∈ tree, n.ShowsOnly E := by
    obtain ⟨hd, hr⟩ := Reported.each_bind.1 hr
    obtain ⟨-, hr⟩ := Reported.each_bind.1 hr
    have hw := (discover_satIf (Markup.reads_showsOnly E) (hc.cacheShowsOnly E) documents hd).value
    refine writtenTree_showsOnly hw.registry ?_ hr
    cases selected with
    | none => exact List.forall_mem_nil _
    | some page => exact hw.pages page (Page.select_mem hs)
  have hblocks : ∀ problem message l, .error problem message l ∈ Node.listDescendants tree →
      E problem :=
    fun problem message l hn => Node.forall_listDescendants.2 htree _ hn problem rfl
  refine ⟨by rw [hcompile], ⟨_, rfl⟩, hblocks, ?_⟩
  rintro ⟨n, hn, he⟩
  cases n with
  | error problem message l =>
    obtain ⟨x, hx, hx', -⟩ := hblocks problem message l hn
    have herr : hasErrors r := List.any_eq_true.2 ⟨x, hx, hx'⟩
    have hne : r.diagnostics.isEmpty = false := List.isEmpty_eq_false_iff_exists_mem.2 ⟨x, hx⟩
    refine ⟨herr, by rw [hcompile, if_pos herr], fun hm => ?_⟩
    rw [hcompile, judge, hm, hne]
    rfl
  | _ => cases he

/-- A page with a component that is not there, behind a pass over a page that is well. -/
theorem compile_reports_blocks_unknown :
    let c := ((new { (default : Options) with mode := .strict }).compile
      [Document.ofMarkup "pages/a.html" "<p></p>"] []).2
    let page := Document.ofMarkup "pages/a.html" "<p><Card></Card></p>"
    let d := discover c.cache [page]
    let tree := writtenTree c.options [] d.value.registry (Page.orEmpty d.value.pages.head?).value
    (∃ n ∈ Node.listDescendants tree, n.isError) ∧ (c.compile [page] []).2 = c := by
  intro c page d tree
  have hc : c.Reachable := .compile _ [] (.new _)
  have ho : c.options.entry = none := congrArg Options.entry compile_options
  have hs : Page.select c.options.entry d.value.pages = .ok d.value.pages.head? := by
    rw [ho, Page.select]
  have hn : ∃ n ∈ Node.listDescendants tree, n.isError := by
    decide +kernel
  exact ⟨hn, ((compile_reports_blocks hc hs).2.2.2 hn).2.1⟩

end Compiler

end PageCompiler
