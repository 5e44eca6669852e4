import Mathlib
import PageCompiler.Proofs.Component.GivenProps
import PageCompiler.Proofs.Evaluation

/-!
Props whose text is written with expressions in it. The values are escaped and joined with what is
written out, and references are read in the whole. Main statement: the component gets each piece as
it is meant if and only if no written piece runs on into what follows it.
-/

namespace PageCompiler

open Json (Value)

/-- The text that code stands for in a scope, if its value is a scalar. -/
def Scope.scalar? (s : Scope) (code : String) : Option String :=
  match Expr.parse code with
  | .ok e => (e.evaluate s.get?).toOption.bind Value.scalarText?
  | .error _ => none

namespace Part

/-- What is put in the place of a part, with references in it. -/
def html (s : Scope) : Part → String
  | .text t => t
  | .expression code => Text.escapeHtml ((s.scalar? code).getD "")

/-- The text that a part is meant to be. -/
def meant (s : Scope) : Part → String
  | .text t => Text.unescapeHtml t
  | .expression code => (s.scalar? code).getD ""

variable (s : Scope)

theorem unescapeHtml_html (p : Part) : Text.unescapeHtml (p.html s) = p.meant s := by
  cases p with
  | text t => rfl
  | expression code => exact Text.unescapeHtml_escapeHtml _

/-- No part of written text begins a reference that ends in what is put behind it. -/
def Apart (parts : List Part) : Prop :=
  ∀ t rest, .text t :: rest <:+ parts →
    ¬Text.RunsOn t.toList (String.join (rest.map (html s))).toList

theorem unescapeHtml_join_iff (parts : List Part) :
    Text.unescapeHtml (String.join (parts.map (html s))) = String.join (parts.map (meant s)) ↔
      Apart s parts := by
  have hmeant (p : Part) : (p.meant s).toList = Text.unescapeChars (p.html s).toList := by
    rw [← unescapeHtml_html, Text.unescapeHtml, String.toList_ofList]
  have htexts (ps : List Part) :
      (String.join (ps.map (html s))).toList = ps.flatMap fun p => (p.html s).toList := by
    rw [String.toList_join, List.flatMap_map]
  have hall : (String.join (parts.map (meant s))).toList =
      parts.flatMap fun p => Text.unescapeChars (p.html s).toList := by
    simp only [String.toList_join, List.flatMap_map, hmeant]
  rw [← String.toList_inj, Text.unescapeHtml, String.toList_ofList, htexts, hall,
    Text.unescapeChars_pieces_iff]
  constructor
  · intro h t rest hsuffix
    rw [htexts]
    exact h (.text t) rest hsuffix
  · intro h p rest hsuffix
    cases p with
    | text t =>
      rw [← htexts]
      exact h t rest hsuffix
    -- the text of a value is escaped as a whole, so that nothing can run on from it
    | expression code =>
      rw [html, Text.escapeHtml, String.toList_ofList]
      exact Text.not_runsOn_escaped _ _

end Part

namespace ControlFlow

theorem value_part_of_scalar (r : Resolver) {s : Scope} (l : Location) {code : String}
    (h : (s.scalar? code).isSome) :
    (r.part ⟨s.get?, fun _ => true⟩ l (.expression code)).value =
      .text (Part.html s (.expression code)) := by
  obtain ⟨t, ht⟩ := Option.isSome_iff_exists.1 h
  rw [Part.html, ht]
  unfold Scope.scalar? at ht
  split at ht
  · next e he =>
    cases hv : e.evaluate s.get? with
    | error u => simp [hv, Except.toOption] at ht
    | ok v =>
      have hscalar : v.scalarText? = some t := by simpa [hv, Except.toOption] using ht
      simp [Resolver.part, Resolver.resolve, he, hv, Resolver.valueText, hscalar]
  · cases ht

theorem value_writtenValue_interpolated (r : Resolver) {s : Scope} (prop : String) (l : Location)
    {parts : List Part} (h : ∀ code, .expression code ∈ parts → (s.scalar? code).isSome) :
    (writtenValue r s prop l (.interpolated parts)).value =
      .string (Text.unescapeHtml (String.join (parts.map (Part.html s)))) := by
  have hparts : (parts.map (r.part ⟨s.get?, fun _ => true⟩ l)).map Reported.value =
      (parts.map (Part.html s)).map Part.text := by
    rw [List.map_map, List.map_map]
    refine List.map_congr_left fun p hp => ?_
    cases p with
    | text t => rfl
    | expression code => exact value_part_of_scalar r l (h code hp)
  have hstatic : (r.attributeValue? ⟨s.get?, fun _ => true⟩ l (.interpolated parts)).value =
      some (.static (String.join (parts.map (Part.html s)))) := by
    rw [← Evaluation.ofParts_texts, ← hparts]
    rfl
  simp [writtenValue, hstatic]

end ControlFlow

namespace Component

theorem useName_bindsText (known : ParseTable) (documents : List Document) (maxDepth : Nat)
    (inside : Option ExpandBody) (site : Site) (name : String) (as : List Attribute)
    (content : Expanded SlotContent) (l : Location) {d : Definition} {p : PropDefinition}
    {parts : List Part} {la : Location} {component : String} {bindings : List PropBinding}
    {children : List Node} {l' : Location}
    (hfound : (discover known documents).value.registry.component? name = some d)
    (hp : p ∈ d.props) (htype : p.type = .string) (hslot : p.name ≠ "slot")
    (hgiven : (as.filter fun a => a.name = p.name).getLast? =
      some ⟨p.name, .interpolated parts, la⟩)
    (h : (useName ⟨(discover known documents).value.registry, maxDepth⟩ inside site name as content
      l).value = .isolated component bindings children l')
    (r : Resolver) (s : Scope)
    (hscalar : ∀ code, .expression code ∈ parts → (s.scalar? code).isSome) :
    ControlFlow.bound? r s p.name (.isolated component bindings children l') =
        some (.string (Text.unescapeHtml (String.join (parts.map (Part.html s))))) ∧
      (ControlFlow.bound? r s p.name (.isolated component bindings children l') =
        some (.string (String.join (parts.map (Part.meant s)))) ↔ Part.Apart s parts) := by
  obtain ⟨e, g, hfound', hg, -, rfl, rfl⟩ := useName_isolated h
  obtain rfl : d = e := Option.some.inj (hfound.symm.trans hfound')
  have hd : Props.AreTyped d.props :=
    (discover_areTyped known documents).components d (Registry.component?_mem hfound)
  have hlast : (g.bindings.filter fun b => b.name = p.name).getLast? =
      some ⟨p.name, .deferred (.interpolated parts) .string⟩ := by
    obtain ⟨others, hothers⟩ := List.getLast?_eq_some_iff.1 hgiven
    rw [bindings_of_prop (prop?_of_mem hd hp) hg, hothers]
    simp [bindingBy?, hslot, propValue, htype, Except.toOption]
  have hbound : ControlFlow.bound? r s p.name
      (.isolated d.name (complete d g.bindings) children l') =
        some (.string (Text.unescapeHtml (String.join (parts.map (Part.html s))))) := by
    rw [ControlFlow.bound?_of_given r s d.name children l' hd hlast,
      ControlFlow.boundProp_deferred r s d.name l'
        (ControlFlow.value_writtenValue_interpolated r p.name l' hscalar)]
    rfl
  refine ⟨hbound, ?_⟩
  rw [hbound, Option.some_inj, Value.string.injEq, Part.unescapeHtml_join_iff]

/-- A title with a name in it. -/
theorem useName_bindsText_card :
    let card := Document.ofMarkup "Card.ncl" "<n:props>title: String</n:props><p></p>"
    let setting : Setting := ⟨(discover [] [card]).value.registry, 8⟩
    let parts := [Part.expression "name", .text "!"]
    let r := (useName setting (insideBody setting 8) ⟨[], "page.ncl"⟩ "Card"
      [.new "title" (.interpolated parts)] (pure ⟨[], []⟩) .unknown).value
    ∀ m s name, s.get? "name" = some (.string name) →
      ControlFlow.bound? m s "title" r = some (.string (name ++ "!")) := by
  intro card setting parts r m s name hname
  have hdeclared : ((setting.registry.component? "Card").any fun d =>
      d.props.any fun p => p.name = "title" && p.type = .string) = true := by
    decide +kernel
  have hkind : r.kind = .isolated := by decide +kernel
  have hscalar : s.scalar? "name" = some name := by
    have hparse : Expr.parse "name" = .ok (.ident "name") := by cbv
    simp [Scope.scalar?, hparse, Expr.evaluate, hname, Except.toOption, Value.scalarText?]
  cases hfound : setting.registry.component? "Card" with
  | none => simp [hfound] at hdeclared
  | some d =>
    simp only [hfound, Option.any_some, List.any_eq_true, Bool.and_eq_true, decide_eq_true_eq]
      at hdeclared
    obtain ⟨p, hp, hpname, htype⟩ := hdeclared
    cases hr : r with
    | isolated component bindings children l =>
      have happart : Part.Apart s parts := by
        intro t rest hsuffix
        obtain ⟨rfl, rfl⟩ : t = "!" ∧ rest = [] := by
          simpa [parts, List.suffix_cons_iff] using hsuffix
        exact Text.not_runsOn_of_notMem (by decide)
      have hbound := (useName_bindsText [] [card] 8 (insideBody setting 8) ⟨[], "page.ncl"⟩ "Card"
        [.new "title" (.interpolated parts)] (pure ⟨[], []⟩) .unknown hfound hp htype
        (by rw [hpname]; decide) (by rw [hpname]; rfl) hr m s
        (by simp [parts, hscalar])).2.2 happart
      have hplain : Text.unescapeHtml "!" = "!" := by decide +kernel
      rw [← hpname, hbound]
      simp [parts, Part.meant, hscalar, hplain]
    | _ => simp [hr] at hkind

/-- An ampersand in front of a value and a semicolon behind it: the value is lost. -/
theorem useName_misreadsText_card :
    let card := Document.ofMarkup "Card.ncl" "<n:props>title: String</n:props><p></p>"
    let setting : Setting := ⟨(discover [] [card]).value.registry, 8⟩
    let parts := [Part.text "&", .expression "x", .text ";"]
    let s : Scope := .ofData [("x", .string "lt")]
    let r := (useName setting (insideBody setting 8) ⟨[], "page.ncl"⟩ "Card"
      [.new "title" (.interpolated parts)] (pure ⟨[], []⟩) .unknown).value
    (ControlFlow.bound? ⟨.strict, .controlFlow, "page.ncl"⟩ s "title" r).bind Value.scalarText? =
        some "<" ∧
      String.join (parts.map (Part.meant s)) = "&lt;" := by
  decide +kernel

end Component

end PageCompiler
