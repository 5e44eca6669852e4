import Mathlib
import PageCompiler.Proofs.Component.GivenProps
import PageCompiler.Proofs.Component.Routing
import PageCompiler.Proofs.Ordinary
import PageCompiler.Proofs.Settling

/-!
Attributes of a usage that are no props go to the single root of the component. Main statement: what
the page shows of the root, and of its class above all. The class of the usage is added to a class
that is written as text, with or without expressions in it, and takes the place of one that is an
expression; attributes of other names are not touched.
-/

namespace PageCompiler

open Json (Object)

namespace Component

section Merge

open Text (eqIgnoringAsciiCase)

/-- What becomes of the value of an attribute to which `a` is added. -/
def joined (current : AttributeValue) (a : Attribute) : AttributeValue :=
  match current, a.value with
  | .static current, .static more =>
    if a.name = "class" then
      if Text.isAllBlank more then .static current
      else .static (current ++ " " ++ Text.trimmed more)
    else .static more
  | .interpolated parts, .static more =>
    if a.name = "class" then .interpolated (parts ++ [.text (" " ++ Text.trimmed more)])
    else .static more
  | _, value => value

theorem mergeAttribute_cons (b : Attribute) (rest : List Attribute) (a : Attribute) :
    mergeAttribute (b :: rest) a =
      if eqIgnoringAsciiCase b.name a.name then { b with value := joined b.value a } :: rest
      else b :: mergeAttribute rest a :=
  rfl

variable {name : String} {a b : Attribute}

theorem attributeNamed?_cons (b : Attribute) (rest : List Attribute) :
    attributeNamed? name (b :: rest) =
      if eqIgnoringAsciiCase b.name name then some b else attributeNamed? name rest := by
  rw [attributeNamed?, List.find?_cons]
  split <;> simp_all [attributeNamed?]

theorem eqIgnoringAsciiCase_congr {s t : String} (h : eqIgnoringAsciiCase s t) (u : String) :
    eqIgnoringAsciiCase s u = eqIgnoringAsciiCase t u := by
  rw [Bool.eq_iff_iff, eqIgnoringAsciiCase_iff, eqIgnoringAsciiCase_iff,
    eqIgnoringAsciiCase_iff.1 h]

theorem attributeNamed?_merge (a : Attribute) {own : List Attribute}
    (hb : attributeNamed? name own = some b) :
    attributeNamed? name (mergeAttribute own a) =
      some (if eqIgnoringAsciiCase a.name name then { b with value := joined b.value a }
        else b) := by
  induction own with
  | nil => cases hb
  | cons c rest ih =>
    rw [attributeNamed?_cons] at hb
    rw [mergeAttribute_cons]
    by_cases hca : eqIgnoringAsciiCase c.name a.name
    · have hname := eqIgnoringAsciiCase_congr hca name
      rw [if_pos hca, attributeNamed?_cons]
      dsimp only
      rw [hname] at hb ⊢
      split at hb
      · next h =>
        cases hb
        rw [if_pos h, if_pos h]
      · next h => rw [if_neg h, if_neg h, hb]
    · rw [if_neg hca, attributeNamed?_cons]
      split at hb
      · next h =>
        cases hb
        have hna : ¬eqIgnoringAsciiCase a.name name := by
          rw [eqIgnoringAsciiCase_iff] at hca h ⊢
          exact fun ha => hca (h.trans ha.symm)
        rw [if_pos h, if_neg hna]
      · next h => rw [if_neg h, ih hb]

/-- The attribute of a name gets what is added under this name, one after the other. -/
theorem attributeNamed?_foldl_merge (given : List Attribute) {own : List Attribute}
    (hb : attributeNamed? name own = some b) :
    attributeNamed? name (given.foldl mergeAttribute own) =
      some { b with
        value :=
          (given.filter fun a => eqIgnoringAsciiCase a.name name).foldl joined b.value } := by
  induction given generalizing own b with
  | nil => exact hb
  | cons a given ih =>
    rw [List.foldl_cons, ih (attributeNamed?_merge a hb)]
    by_cases ha : eqIgnoringAsciiCase a.name name <;> simp [ha]

/-- None of the attributes that are added has the name of this one. -/
def isUnnamed (given : List Attribute) (b : Attribute) : Bool :=
  given.all fun a => !eqIgnoringAsciiCase b.name a.name

theorem filter_merge {p : Attribute → Bool} (hp : ∀ b value, p { b with value } = p b)
    (ha : ∀ b, eqIgnoringAsciiCase b.name a.name → p b = false) (own : List Attribute) :
    (mergeAttribute own a).filter p = own.filter p := by
  have hself : p a = false := ha a (eqIgnoringAsciiCase_iff.2 rfl)
  induction own with
  | nil => simp [mergeAttribute, hself]
  | cons b rest ih =>
    rw [mergeAttribute_cons]
    split
    · next hb => simp [hp, ha b hb]
    · rw [List.filter_cons, List.filter_cons, ih]

/-- Attributes of other names stay as they are. -/
theorem filter_foldl_merge (given own : List Attribute) :
    (given.foldl mergeAttribute own).filter (isUnnamed given) = own.filter (isUnnamed given) := by
  suffices h : ∀ more ⊆ given,
      (more.foldl mergeAttribute own).filter (isUnnamed given) = own.filter (isUnnamed given) from
    h given (List.Subset.refl given)
  intro more hmore
  induction more generalizing own with
  | nil => rfl
  | cons a more ih =>
    rw [List.cons_subset] at hmore
    rw [List.foldl_cons, ih _ hmore.2]
    refine filter_merge (fun _ _ => rfl) (fun b hb => ?_) own
    exact List.all_eq_false.2 ⟨a, hmore.1, by simp [hb]⟩

end Merge

end Component

/-! ### The way of the root -/

theorem ControlFlow.value_expandAll (r : Resolver) (s : Scope) (ns : List Node) :
    (expandAll r s ns).value = ns.flatMap fun n => (expand r s n).value := by
  induction ns with
  | nil => rfl
  | cons n ns ih =>
    rw [expandAll, List.flatMap_cons, ← ih]
    rfl

namespace Component

section Others

variable {site : Site} {d : Definition} {as : List Attribute} {g : Given}

/-- The attributes of a usage that go to the root are no props and need no evaluation. -/
def forwarded (d : Definition) (as : List Attribute) : List Attribute :=
  as.filter fun a => isFixed a && a.name ≠ "slot" && (d.prop? a.name).isNone

theorem others_of_adds {a : Attribute} {add : Given → Given} (h : adds d a = .ok add) (g : Given) :
    (add g).others =
      if a.name ≠ "slot" && (d.prop? a.name).isNone then a :: g.others else g.others := by
  unfold adds at h
  split at h
  · next hslot =>
    cases h
    simp [hslot]
  next hslot =>
  split at h
  · next hp =>
    cases h
    simp [hslot, hp]
  next p hp =>
  have hothers : (add g).others = g.others := by
    split at h
    · cases h
      rfl
    · split at h
      · cases h
      · cases h
        rfl
  simp [hp, hothers]

theorem others_of_given (h : (givenBy site d as).value = .ok g) :
    g.others = as.filter fun a => a.name ≠ "slot" && (d.prop? a.name).isNone := by
  induction as generalizing g with
  | nil =>
    cases h
    rfl
  | cons a as ih =>
    obtain ⟨add, rest, hadd, hrest, rfl⟩ := exists_of_given_cons h
    rw [others_of_adds hadd, ih hrest, List.filter_cons]

theorem filter_others (h : (givenBy site d as).value = .ok g) :
    g.others.filter isFixed = forwarded d as := by
  rw [others_of_given h, List.filter_filter, forwarded]
  simp only [Bool.and_assoc]

end Others

section Root

variable {before after : List Node} (hbefore : ∀ n ∈ before, ¬isRoot n)
  (hafter : ∀ n ∈ after, ¬isRoot n) (tag : String) (own : List Attribute) (kids : List Node)
  (closing : Bool) (lr : Location)

/-- Beside the root there are comments and texts only. -/
theorem forall_not_isRoot {P : Node → Prop} (hcomment : ∀ t l, P (.comment t l))
    (htext : ∀ t l, P (.text t l)) (n : Node) (h : ¬isRoot n) : P n := by
  cases n with
  | comment t l => exact hcomment t l
  | text t l => exact htext t l
  | _ => exact absurd rfl h

include hbefore in
theorem run_fillAll (content : SlotContent) (ns : List Node) :
    ((Slots.fillAll (before ++ ns)).run content).1 =
      before ++ ((Slots.fillAll ns).run content).1 := by
  induction before with
  | nil => rfl
  | cons n before ih =>
    rw [List.forall_mem_cons] at hbefore
    have hkeep : ∀ n, ¬isRoot n → ((Slots.fillAll (n :: (before ++ ns))).run content).1 =
        n :: ((Slots.fillAll (before ++ ns)).run content).1 :=
      forall_not_isRoot (fun _ _ => rfl) fun _ _ => rfl
    rw [List.cons_append, hkeep n hbefore.1, ih hbefore.2, List.cons_append]

include hbefore hafter

/-- A single root stays the single root, whatever the slots in it are filled with. -/
theorem fillBody_root (content : SlotContent) :
    ∃ kids', Slots.fillBody (before ++ .element tag own kids closing lr :: after) content =
      before ++ .element tag own kids' closing lr :: after := by
  refine ⟨((Slots.fillAll kids).run content).1, ?_⟩
  have hrest := run_fillAll hafter ((Slots.fillAll kids).run content).2 []
  rw [List.append_nil] at hrest
  rw [Slots.fillBody, run_fillAll hbefore]
  refine congrArg _ (congrArg (List.cons _) (hrest.trans ?_))
  exact List.append_nil after

theorem filter_isRoot : (before ++ .element tag own kids closing lr :: after).filter isRoot =
    [.element tag own kids closing lr] := by
  rw [List.filter_append, List.filter_cons_of_pos rfl, List.filter_eq_nil_iff.2 hbefore,
    List.filter_eq_nil_iff.2 hafter, List.nil_append]

theorem flatMap_root {f : Node → List Node} (hf : ∀ n, ¬isRoot n → f n = [n]) :
    (before ++ .element tag own kids closing lr :: after).flatMap f =
      before ++ (f (.element tag own kids closing lr) ++ after) := by
  rw [List.flatMap_append, List.flatMap_cons, flatMap_eq_self fun n hn => hf n (hbefore n hn),
    flatMap_eq_self fun n hn => hf n (hafter n hn)]

theorem map_root {f : Node → Node} (hf : ∀ n, ¬isRoot n → f n = n) :
    (before ++ .element tag own kids closing lr :: after).map f =
      before ++ f (.element tag own kids closing lr) :: after := by
  have hsingle (n : Node) (hn : ¬isRoot n) : [f n] = [n] := by rw [hf n hn]
  rw [List.map_eq_flatMap, flatMap_root hbefore hafter tag own kids closing lr hsingle]
  rfl

theorem value_forward_root (site : Site) (d : Definition) (l : Location) (others : List Attribute) :
    (forward site d l others (before ++ .element tag own kids closing lr :: after)).value =
      before ++ .element tag ((others.filter isFixed).foldl mergeAttribute own) kids closing lr ::
        after := by
  rw [forward, Expanded.value_bind]
  dsimp only
  split
  · next hnil =>
    rw [List.isEmpty_iff.1 hnil]
    rfl
  · rw [filter_isRoot hbefore hafter]
    refine (map_root hbefore hafter tag own kids closing lr fun n hn => if_neg hn).trans ?_
    rfl

theorem value_expandAll_root (setting : Setting) (inside : Option ExpandBody) (site : Site) :
    ∃ kids', (expandAll setting inside site
        (before ++ .element tag own kids closing lr :: after)).value =
      before ++ .element tag own kids' closing lr :: after := by
  refine ⟨_, (value_expandAll _).trans
    (map_root hbefore hafter tag own kids closing lr ?_)⟩
  exact forall_not_isRoot (fun _ _ => rfl) fun _ _ => rfl

theorem value_controlFlow_root (r : Resolver) (s : Scope) :
    ∃ kids',
      (ControlFlow.expandAll r s (before ++ .element tag own kids closing lr :: after)).value =
        before ++ .element tag (r.attributes (ControlFlow.bindingsIn s) own).value kids' closing
          lr :: after := by
  refine ⟨_, (ControlFlow.value_expandAll r s _).trans
    (flatMap_root hbefore hafter tag own kids closing lr ?_)⟩
  exact forall_not_isRoot (fun _ _ => rfl) fun _ _ => rfl

theorem value_resolveAll_root (r : Resolver) (data : Object) (names : Interpolation.IslandNames) :
    ∃ kids', (Interpolation.resolveAll r data names
        (before ++ .element tag own kids closing lr :: after)).value =
      before ++ .element tag (Interpolation.resolveAttributes r data names own).value kids' closing
        lr :: after := by
  refine ⟨_, (Evaluation.value_resolveAll r names _).trans
    (map_root hbefore hafter tag own kids closing lr ?_)⟩
  exact forall_not_isRoot (fun _ _ => rfl) fun _ _ => rfl

end Root

section Usage

variable {setting : Setting} {inside : Option ExpandBody} {site : Site} {name component : String}
  {as : List Attribute} {content : Expanded SlotContent} {l l' : Location}
  {bindings : List PropBinding} {children : List Node}

/-- What stands in an instance comes from the filled body with the forwarded attributes. -/
theorem useName_children (h : (useName setting inside site name as content l).value =
      .isolated component bindings children l') :
    ∃ d g expandBody, setting.registry.component? name = some d ∧ inside = some expandBody ∧
      (givenBy site d as).value = .ok g ∧
      children = (expandBody ⟨site.stack ++ [d.name], d.path⟩
        (forward site d l g.others (Slots.fillBody d.nodes content.value)).value).value := by
  rw [useName] at h
  split at h
  · cases h
  next d hd =>
  dsimp only at h
  split at h
  · cases h
  split at h
  · cases h
  next expandBody =>
  cases hg : (givenBy site d as).value with
  | error message =>
    simp only [useDefinition, Expanded.value_bind, hg] at h
    cases h
  | ok g =>
    simp only [useDefinition, Expanded.value_bind, hg] at h
    split at h
    · cases h
      exact ⟨d, g, expandBody, hd, rfl, hg, rfl⟩
    · cases h

/-- The page's nodes of an instance that is used in the scope `s`, in an island with the names
`names`, when control flow and interpolation are done. -/
def settle (mode : Mode) (file : String) (s : Scope) (data : Object)
    (names : Interpolation.IslandNames) (n : Node) : List Node :=
  (Interpolation.resolveAll (Interpolation.resolver mode file) data names
    (ControlFlow.expand ⟨mode, .controlFlow, file⟩ s n).value).value

/-- Where the filled body of a component has a single root, this has in the instance its own
attributes with those of the usage that are no props. -/
theorem useName_forwards (setting : Setting) (levels : Nat) {d : Definition}
    (hfound : setting.registry.component? name = some d) {before after : List Node} {tag : String}
    {own : List Attribute} {kids : List Node} {closing : Bool} {lr : Location}
    (hbody : Slots.fillBody d.nodes content.value =
      before ++ .element tag own kids closing lr :: after)
    (honly : ∀ n ∈ before ++ after, ¬isRoot n)
    (h : (useName setting (insideBody setting levels) site name as content l).value =
      .isolated component bindings children l')
    (mode : Mode) (file : String) (s : Scope) (data : Object) (names : Interpolation.IslandNames) :
    ∃ kids', settle mode file s data names (.isolated component bindings children l') =
      before ++ .element tag
        (((forwarded d as).foldl mergeAttribute own).filterMap (ControlFlow.settled? mode file
          (ControlFlow.propFrame ⟨mode, .controlFlow, file⟩ s component bindings l') data names))
        kids' closing lr :: after := by
  obtain ⟨hbefore, hafter⟩ := List.forall_mem_append.1 honly
  obtain ⟨e, g, expandBody, hfound', hinside, hg, rfl⟩ := useName_children h
  obtain rfl : d = e := Option.some.inj (hfound.symm.trans hfound')
  cases levels with
  | zero => cases hinside
  | succ levels =>
    cases hinside
    obtain ⟨expanded, hexpanded⟩ := value_expandAll_root hbefore hafter tag
      ((forwarded d as).foldl mergeAttribute own) kids closing lr setting
      (insideBody setting levels) ⟨site.stack ++ [d.name], d.path⟩
    obtain ⟨evaluated, hevaluated⟩ := value_controlFlow_root hbefore hafter tag
      ((forwarded d as).foldl mergeAttribute own) expanded closing lr ⟨mode, .controlFlow, file⟩
      (ControlFlow.propFrame ⟨mode, .controlFlow, file⟩ s component bindings l')
    obtain ⟨resolved, hresolved⟩ := value_resolveAll_root hbefore hafter tag _ evaluated closing lr
      (Interpolation.resolver mode file) data names
    refine ⟨resolved, ?_⟩
    rw [settle, ControlFlow.expand_isolated, hbody, value_forward_root hbefore hafter,
      filter_others hg, hexpanded, hevaluated, hresolved, ControlFlow.value_settled]

end Usage

/-! ### Classes -/

section Class

open Text (eqIgnoringAsciiCase)

/-- The text of a class that is `t` by itself when `more` is forwarded under the name `given`. Only
the very name `class` adds to it, and only to a text; all else takes its place. -/
def classText (value : AttributeValue) (t given more : String) : String :=
  match value with
  | .static _ =>
    if given = "class" then
      if Text.isAllBlank more then t else t ++ " " ++ Text.trimmed more
    else more
  | .interpolated _ => if given = "class" then t ++ (" " ++ Text.trimmed more) else more
  | _ => more

theorem attributeNamed?_filterMap {f : Attribute → Option Attribute}
    (hf : ∀ a c, f a = some c → c.name = a.name) {name : String} {as : List Attribute}
    {b c : Attribute} (hb : attributeNamed? name as = some b) (hc : f b = some c) :
    attributeNamed? name (as.filterMap f) = some c := by
  induction as with
  | nil => cases hb
  | cons a as ih =>
    rw [attributeNamed?_cons] at hb
    rw [List.filterMap_cons]
    split at hb
    · next ha =>
      cases hb
      rw [hc]
      dsimp only
      rw [attributeNamed?_cons, hf _ _ hc, if_pos ha]
    · next ha =>
      split
      · exact ih hb
      · next e he => rw [attributeNamed?_cons, hf a e he, if_neg ha, ih hb]

theorem filter_filterMap_named {f : Attribute → Option Attribute}
    (hf : ∀ a c, f a = some c → c.name = a.name) (given as : List Attribute) :
    (as.filterMap f).filter (isUnnamed given) = (as.filter (isUnnamed given)).filterMap f := by
  induction as with
  | nil => rfl
  | cons a as ih =>
    have hname {c : Attribute} (hc : f a = some c) : isUnnamed given c = isUnnamed given a := by
      rw [isUnnamed, isUnnamed, hf a c hc]
    rw [List.filter_cons, List.filterMap_cons]
    cases hc : f a with
    | none =>
      rw [ih]
      split
      · rw [List.filterMap_cons_none hc]
      · rfl
    | some c =>
      rw [List.filter_cons, hname hc, ih]
      split
      · rw [List.filterMap_cons_some hc]
      · rfl

theorem settled?_joined {mode : Mode} {file : String} {s : Scope} {data : Object}
    {names : Interpolation.IslandNames} {b : Attribute} {t : String}
    (h : ControlFlow.settled? mode file s data names b = some { b with value := .static t })
    (given more : String) (l : Location) :
    ControlFlow.settled? mode file s data names
        { b with value := joined b.value ⟨given, .static more, l⟩ } =
      some { b with value := .static (classText b.value t given more) } := by
  have hstatic (u : String) : ControlFlow.settled? mode file s data names
      { b with value := .static u } = some { b with value := .static u } :=
    ControlFlow.settled?_static u
  cases hb : b.value with
  | static u =>
    have hown : { b with value := .static u } = b := by rw [← hb]
    obtain rfl : u = t := by
      have ht := (hstatic u).symm.trans (hown ▸ h)
      simpa using ht
    unfold joined classText
    dsimp only
    split
    · split
      · exact hstatic _
      · exact hstatic _
    · exact hstatic _
  | bare => exact hstatic more
  | expression code => exact hstatic more
  | interpolated parts =>
    have hown : { b with value := .interpolated parts } = b := by rw [← hb]
    unfold joined classText
    dsimp only
    split
    · exact ControlFlow.settled?_concat (hown ▸ h) _
    · exact hstatic _

theorem renderAttributes_of_named {name text : String} {as : List Attribute} {b : Attribute}
    (h : attributeNamed? name as = some { b with value := .static text }) :
    ∃ front back, Markup.renderAttributes as =
      front ++ (" " ++ b.name ++ "=\"" ++ Text.escapeQuotes text ++ "\"") ++ back := by
  obtain ⟨-, before, after, rfl, -⟩ := List.find?_eq_some_iff_append.1 h
  refine ⟨Markup.renderAttributes before, Markup.renderAttributes after, ?_⟩
  simp [Markup.renderAttributes, Markup.renderAttribute, String.append_assoc]

/-- A class that is forwarded is joined with the class of the root as the page shows it. -/
theorem useName_mergesClass (setting : Setting) (levels : Nat) (site : Site) (name : String)
    (as : List Attribute) (content : Expanded SlotContent) (l : Location) {d : Definition}
    (hfound : setting.registry.component? name = some d) {before after : List Node} {tag : String}
    {own : List Attribute} {kids : List Node} {closing : Bool} {lr : Location}
    (hbody : Slots.fillBody d.nodes content.value =
      before ++ .element tag own kids closing lr :: after)
    (honly : ∀ n ∈ before ++ after, ¬isRoot n) {b : Attribute}
    (hclass : attributeNamed? "class" own = some b) {given more : String} {lg : Location}
    (hgiven : ((forwarded d as).filter fun a => eqIgnoringAsciiCase a.name "class") =
      [⟨given, .static more, lg⟩])
    {component : String} {bindings : List PropBinding} {children : List Node} {l' : Location}
    (h : (useName setting (insideBody setting levels) site name as content l).value =
      .isolated component bindings children l')
    (mode : Mode) (file : String) (s : Scope) (data : Object) (names : Interpolation.IslandNames)
    {t : String}
    (htext : ControlFlow.settled? mode file
      (ControlFlow.propFrame ⟨mode, .controlFlow, file⟩ s component bindings l') data names b =
        some { b with value := .static t }) :
    ∃ root kids', settle mode file s data names (.isolated component bindings children l') =
        before ++ .element tag root kids' closing lr :: after ∧
      attributeNamed? "class" root =
        some { b with value := .static (classText b.value t given more) } ∧
      (∃ front back, Markup.renderAttributes root = front ++ (" " ++ b.name ++ "=\"" ++
        Text.escapeQuotes (classText b.value t given more) ++ "\"") ++ back) ∧
      root.filter (isUnnamed (forwarded d as)) =
        (own.filter (isUnnamed (forwarded d as))).filterMap (ControlFlow.settled? mode file
          (ControlFlow.propFrame ⟨mode, .controlFlow, file⟩ s component bindings l') data
          names) := by
  obtain ⟨kids', hsettle⟩ := useName_forwards setting levels hfound hbody honly h mode file s data
    names
  have hname (a c : Attribute) (hc : ControlFlow.settled? mode file
      (ControlFlow.propFrame ⟨mode, .controlFlow, file⟩ s component bindings l') data names a =
        some c) : c.name = a.name := ControlFlow.settled?_name hc
  have hmerged := attributeNamed?_foldl_merge (forwarded d as) hclass
  rw [hgiven, List.foldl_cons, List.foldl_nil] at hmerged
  have hroot := attributeNamed?_filterMap hname hmerged (settled?_joined htext given more lg)
  refine ⟨_, kids', hsettle, hroot, renderAttributes_of_named hroot, ?_⟩
  rw [filter_filterMap_named hname, filter_foldl_merge]

/-- A class with a prop in it, and a wide one from the usage. -/
theorem useName_mergesClass_button :
    let b := Attribute.new "class" (.interpolated [.text "btn ", .expression "look"])
    let look : PropDefinition := ⟨"look", .string, some (.string "flat"), false⟩
    let button : Definition := ⟨"Button", "Button.ncl", [look],
      [], [.newText "\n", .element "button" [b, .new "type" (.static "button")]
        [.slot none [] .unknown] false .unknown], [], []⟩
    let setting : Setting := ⟨⟨[button], []⟩, 8⟩
    let wide := [Attribute.new "class" (.static " wide ")]
    let r := (useName setting (insideBody setting 8) ⟨[], "page.ncl"⟩ "Button" wide
      (pure ⟨[.newText "Go"], []⟩) .unknown).value
    ∃ root kids,
      settle .strict "page.ncl" (.ofData []) [] none r =
        [.newText "\n", .element "button" root kids false .unknown] ∧
      attributeNamed? "class" root = some { b with value := .static "btn flat wide" } := by
  intro b look button setting wide r
  have honly : ∀ n ∈ [Node.newText "\n"] ++ [], ¬isRoot n := by decide +kernel
  obtain ⟨hbefore, hafter⟩ := List.forall_mem_append.1 honly
  obtain ⟨kids, hbody⟩ := fillBody_root hbefore hafter "button" [b, .new "type" (.static "button")]
    [.slot none [] .unknown] false .unknown ⟨[.newText "Go"], []⟩
  have hcomplete : complete button [] = [⟨"look", .resolved (.string "flat")⟩] :=
    List.mergeSort_singleton _
  have hr : r = .isolated "Button" (complete button []) _ .unknown := rfl
  have htext : ControlFlow.settled? .strict "page.ncl" (ControlFlow.propFrame
      ⟨.strict, .controlFlow, "page.ncl"⟩ (.ofData []) "Button"
      [⟨"look", .resolved (.string "flat")⟩] .unknown) [] none b =
        some { b with value := .static "btn flat" } := by
    decide +kernel
  rw [← hcomplete] at htext
  have hown : attributeNamed? "class" [b, .new "type" (.static "button")] = some b := by
    decide +kernel
  have hgiven : ((forwarded button wide).filter fun a => eqIgnoringAsciiCase a.name "class") =
      [⟨"class", .static " wide ", .unknown⟩] := by
    decide +kernel
  obtain ⟨root, kids', hsettle, hclass, -, -⟩ := useName_mergesClass setting 8 ⟨[], "page.ncl"⟩
    "Button" wide (pure ⟨[.newText "Go"], []⟩) .unknown rfl hbody honly hown hgiven hr .strict
    "page.ncl" (.ofData []) [] none htext
  have hjoined : classText b.value "btn flat" "class" " wide " = "btn flat wide" := by
    decide +kernel
  rw [hjoined] at hclass
  exact ⟨root, kids', hr ▸ hsettle, hclass⟩

/-- A class that is an expression is lost. -/
theorem useName_losesClass_button :
    let b := Attribute.new "class" (.expression "look")
    let look : PropDefinition := ⟨"look", .string, some (.string "flat"), false⟩
    let button : Definition := ⟨"Button", "Button.ncl", [look],
      [], [.element "button" [b] [.newText "Go"] false .unknown], [], []⟩
    let setting : Setting := ⟨⟨[button], []⟩, 8⟩
    let use (as : List Attribute) := (useName setting (insideBody setting 8) ⟨[], "page.ncl"⟩
      "Button" as (pure ⟨[], []⟩) .unknown).value
    let page (as : List Attribute) :=
      Markup.renderAll (settle .strict "page.ncl" (.ofData []) [] none (use as))
    page [] = "<button class=\"flat\">Go</button>" ∧
      page [.new "class" (.static "wide")] = "<button class=\"wide\">Go</button>" := by
  decide +kernel

end Class

end Component

end PageCompiler
