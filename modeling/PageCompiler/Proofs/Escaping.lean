import Mathlib
import PageCompiler.Proofs.Evaluation

/-!
Data cannot add markup to a page. Main statement: where every expression has a string or a number
for its value, the characters that begin and end tags and quoted values are those of the template,
whatever the data is.
-/

namespace PageCompiler

open Json (Value Object)

namespace Text

def isDelimiter (c : Char) : Bool := c = '<' || c = '>' || c = '"'

/-- The characters of a text that begin and end tags and quoted values, in order. -/
def delimiters (s : String) : List Char := s.toList.filter isDelimiter

@[simp] theorem delimiters_append (s t : String) :
    delimiters (s ++ t) = delimiters s ++ delimiters t := by
  simp [delimiters]

theorem delimiters_join (ss : List String) :
    delimiters (String.join ss) = ss.flatMap delimiters := by
  induction ss with
  | nil => rfl
  | cons s ss ih => rw [String.join_cons, delimiters_append, ih, List.flatMap_cons]

theorem delimiters_escapeHtmlChar (c : Char) : (escapeHtmlChar c).filter isDelimiter = [] := by
  unfold escapeHtmlChar
  split
  all_goals simp_all [isDelimiter]

@[simp] theorem delimiters_escapeHtml (s : String) : delimiters (escapeHtml s) = [] := by
  rw [delimiters, escapeHtml, String.toList_ofList, List.filter_flatMap]
  simp [delimiters_escapeHtmlChar]

/-- Escaping quotes takes the quotes out of the delimiters, and leaves the others. -/
theorem delimiters_escapeQuotes (s : String) :
    delimiters (escapeQuotes s) = (delimiters s).filter (· ≠ '"') := by
  rw [delimiters, delimiters, escapeQuotes, String.toList_ofList]
  induction s.toList with
  | nil => rfl
  | cons c cs ih =>
    rw [List.flatMap_cons, List.filter_append, ih]
    by_cases hc : c = '"'
    · simp [hc, isDelimiter]
    · by_cases hd : isDelimiter c <;> simp [hc, hd]

end Text

open Text (delimiters)

def AttributeValue.codes : AttributeValue → List String
  | .expression code => [code]
  | .interpolated parts => parts.filterMap fun
    | .expression code => some code
    | .text _ => none
  | _ => []

/-- The code of the expressions of a node, itself or in its attributes. -/
def Node.codes : Node → List String
  | .expression code _ _ => [code]
  | .element _ as _ _ _ => as.flatMap fun a => a.value.codes
  | _ => []

/-- Code that is an expression, and that the data gives a string or a number for. -/
def Json.Object.Writes (data : Object) (code : String) : Prop :=
  ∃ e v, Expr.parse code = .ok e ∧ e.evaluate data.get? = .ok v ∧
    ((∃ s, v = .string s) ∨ ∃ n, v = .number n)

namespace Markup

/-- The delimiters of a value between quotes, where its own quotes are escaped. -/
def quotedDelimiters (text : String) : List Char :=
  '"' :: ((delimiters text).filter (· ≠ '"') ++ ['"'])

theorem delimiters_static (name text : String) (l : Location) :
    delimiters (renderAttribute ⟨name, .static text, l⟩) =
      delimiters name ++ quotedDelimiters text := by
  have hs : delimiters " " = [] := rfl
  have he : delimiters "=\"" = ['"'] := rfl
  have hq : delimiters "\"" = ['"'] := rfl
  simp [renderAttribute, Text.delimiters_escapeQuotes, quotedDelimiters, hs, he, hq]

/-- An expression as it is written shows like any text without delimiters. -/
theorem delimiters_expression (name code : String) (l : Location) {text : String}
    (h : delimiters text = []) :
    delimiters (renderAttribute ⟨name, .static text, l⟩) =
      delimiters (renderAttribute ⟨name, .expression code, l⟩) := by
  have hs : delimiters " " = [] := rfl
  have he : delimiters "=\"" = ['"'] := rfl
  have hq : delimiters "\"" = ['"'] := rfl
  rw [delimiters_static]
  simp [renderAttribute, bracedCode, quotedDelimiters, h, hs, he, hq]

theorem renderParts_joinTexts (ps : List Part) :
    renderParts (Resolver.joinTexts ps) = renderParts ps :=
  Evaluation.join_joinTexts (fun _ => rfl) ps

/-- Parts show as the texts that they are, whether or not expressions are left. -/
theorem renderAttribute_ofParts (name : String) (ps : List Part) (l : Location) :
    renderAttribute ⟨name, Resolver.ofParts ps, l⟩ =
      renderAttribute ⟨name, .static (renderParts ps), l⟩ := by
  rw [← renderParts_joinTexts, Resolver.ofParts]
  split
  · next h => simp [renderAttribute, renderParts, h]
  · next t h => simp [renderAttribute, renderParts, renderPart, h]
  · rfl

end Markup

namespace Resolver

open Markup (renderAttribute renderPart renderParts)

variable {data : Object} {r : Resolver} {due : Expr → Bool} {code : String}

/-- What the data gives a string or a number for either waits or becomes its value. -/
theorem resolve_of_writes (r : Resolver) (due : Expr → Bool) (h : data.Writes code) :
    r.resolve ⟨data.get?, due⟩ code = .kept ∨
      ∃ v, r.resolve ⟨data.get?, due⟩ code = .value v ∧
        ((∃ s, v = .string s) ∨ ∃ n, v = .number n) := by
  obtain ⟨e, v, hp, hv, hk⟩ := h
  unfold resolve
  rw [hp]
  dsimp only
  split
  · rw [hv]
    exact .inr ⟨v, rfl, hk⟩
  · exact .inl rfl

theorem delimiters_valueText (v : Value) (l : Location) :
    delimiters (r.valueText code v l).value = [] := by
  unfold valueText
  split
  · exact Text.delimiters_escapeHtml _
  · rfl

theorem delimiters_unresolvedText (u : Unresolved) (l : Location) :
    delimiters (r.unresolvedText code u l).value = [] := by
  unfold unresolvedText
  rw [Reported.value_bind]
  split
  · rfl
  · exact Text.delimiters_escapeHtml _

/-- A part keeps its delimiters: an expression has none, and its value brings none. -/
theorem delimiters_part (b : Bindings) (l : Location) (p : Part) :
    delimiters (renderPart (r.part b l p).value) = delimiters (renderPart p) := by
  cases p with
  | text t => rfl
  | expression code =>
    have hc : delimiters (renderPart (.expression code)) = [] := Text.delimiters_escapeHtml _
    rw [hc, part]
    split
    · exact hc
    · rfl
    · exact delimiters_unresolvedText _ l
    · exact delimiters_valueText _ l

theorem delimiters_parts (b : Bindings) (l : Location) (ps : List Part) :
    delimiters (renderParts (ps.map fun p => (r.part b l p).value)) =
      delimiters (renderParts ps) := by
  simp only [renderParts, Text.delimiters_join, List.flatMap_map, delimiters_part]

/-- An attribute stays, and keeps its delimiters. -/
theorem delimiters_attributeValue? (r : Resolver) (due : Expr → Bool) {v : AttributeValue}
    (h : ∀ code ∈ v.codes, data.Writes code) (l : Location) :
    ∃ w, (r.attributeValue? ⟨data.get?, due⟩ l v).value = some w ∧
      ∀ name, delimiters (renderAttribute ⟨name, w, l⟩) =
        delimiters (renderAttribute ⟨name, v, l⟩) := by
  cases v with
  | static t => exact ⟨_, rfl, fun _ => rfl⟩
  | bare => exact ⟨_, rfl, fun _ => rfl⟩
  | interpolated ps =>
    refine ⟨ofParts (ps.map fun p => (r.part ⟨data.get?, due⟩ l p).value), ?_, fun name => ?_⟩
    · simp [attributeValue?, Function.comp_def]
    · have hps : renderAttribute ⟨name, .interpolated ps, l⟩ =
          renderAttribute ⟨name, .static (renderParts ps), l⟩ := rfl
      rw [Markup.renderAttribute_ofParts, hps, Markup.delimiters_static, Markup.delimiters_static,
        Markup.quotedDelimiters, delimiters_parts, Markup.quotedDelimiters]
  | expression code =>
    rw [attributeValue?]
    obtain hr | ⟨v, hr, hk⟩ := resolve_of_writes r due
      (h code (List.mem_singleton_self code))
    · rw [hr]
      exact ⟨_, rfl, fun _ => rfl⟩
    · rw [hr]
      -- true, false and null would change or drop the attribute
      obtain ⟨s, rfl⟩ | ⟨n, rfl⟩ := hk
      · exact ⟨_, rfl, fun name => Markup.delimiters_expression name code l
          (delimiters_valueText _ l)⟩
      · exact ⟨_, rfl, fun name => Markup.delimiters_expression name code l
          (delimiters_valueText _ l)⟩

end Resolver

namespace Interpolation

open Markup (render renderAll renderAttribute renderAttributes)

variable {data : Object} {r : Resolver} {own : IslandNames}

theorem delimiters_resolveAttribute {a : Attribute} (h : ∀ code ∈ a.value.codes, data.Writes code) :
    delimiters (renderAttributes (resolveAttributes r data own [a]).value) =
      delimiters (renderAttribute a) := by
  simp only [resolveAttributes, List.map_singleton, Reported.value_concat, List.flatMap_singleton]
  split
  · simp [renderAttributes]
  · obtain ⟨w, hw, hd⟩ := Resolver.delimiters_attributeValue? r
      (fun e => !isIslandExpression own e) h a.location
    simp [Evaluation.value_attributes, hw, renderAttributes, hd]

theorem delimiters_resolveAttributes {as : List Attribute}
    (h : ∀ a ∈ as, ∀ code ∈ a.value.codes, data.Writes code) :
    delimiters (renderAttributes (resolveAttributes r data own as).value) =
      delimiters (renderAttributes as) := by
  induction as with
  | nil => rfl
  | cons a as ih =>
    rw [List.forall_mem_cons] at h
    have hv : (resolveAttributes r data own (a :: as)).value =
        (resolveAttributes r data own [a]).value ++ (resolveAttributes r data own as).value := by
      simp [resolveAttributes]
    have hr : delimiters (renderAttributes (a :: as)) =
        delimiters (renderAttribute a) ++ delimiters (renderAttributes as) := by
      simp [renderAttributes]
    have ha := @delimiters_resolveAttribute data r own a h.1
    rw [hv, hr, ← ha, ← ih h.2]
    simp [renderAttributes]

theorem delimiters_renderAll (ns : List Node) :
    delimiters (renderAll ns) = ns.flatMap fun n => delimiters (render n) := by
  induction ns with
  | nil => rfl
  | cons n ns ih => rw [renderAll, Text.delimiters_append, ih, List.flatMap_cons]

theorem delimiters_resolveAll {ns : List Node}
    (h : ∀ n ∈ ns, delimiters (render (resolve r data own n).value) = delimiters (render n)) :
    delimiters (renderAll (resolveAll r data own ns).value) = delimiters (renderAll ns) := by
  rw [Evaluation.value_resolveAll, delimiters_renderAll, delimiters_renderAll, List.flatMap_map]
  exact List.flatMap_congr h

theorem delimiters_expression {code raw : String} {l : Location} (h : data.Writes code) :
    delimiters (render (resolve r data own (.expression code raw l)).value) = [] := by
  have hraw : delimiters (Text.escapeHtml raw) = [] := Text.delimiters_escapeHtml raw
  obtain ⟨e, v, hp, hv, hk⟩ := h
  rw [resolve, hp]
  dsimp only
  split
  · exact hraw
  · rw [Resolver.expression, hv]
    obtain ⟨s, rfl⟩ | ⟨n, rfl⟩ := hk
    · exact Text.delimiters_escapeHtml s
    · exact Text.delimiters_escapeHtml _

/-- Resolving a tree keeps its delimiters: values are text, wherever they come to stand. -/
theorem delimiters_resolve (n : Node) (h : n.Everywhere fun m => ∀ code ∈ m.codes, data.Writes code)
    (own : IslandNames) :
    delimiters (render (resolve r data own n).value) = delimiters (render n) := by
  induction n generalizing own with
  | element tag as children closing l ih =>
    obtain ⟨ha, hc⟩ := Node.everywhere_element.1 h
    have has : ∀ a ∈ as, ∀ code ∈ a.value.codes, data.Writes code := fun a hm code hcode =>
      ha code (List.mem_flatMap.2 ⟨a, hm, hcode⟩)
    have hcs : delimiters (renderAll (resolveAll r data own children).value) =
        delimiters (renderAll children) :=
      delimiters_resolveAll fun n hn => ih n hn (hc n hn) own
    simp only [resolve, Reported.value_bind, Reported.value_pure, render, Text.delimiters_append,
      delimiters_resolveAttributes has]
    split
    · rfl
    · simp only [Text.delimiters_append, hcs]
  | expression code raw l =>
    rw [Node.everywhere_expression] at h
    rw [delimiters_expression (h code (List.mem_singleton_self code))]
    exact (Text.delimiters_escapeHtml raw).symm
  | slot name fallback l ih =>
    obtain ⟨-, hc⟩ := Node.everywhere_slot.1 h
    exact delimiters_resolveAll fun n hn => ih n hn (hc n hn) own
  | island strategy script children l ih =>
    obtain ⟨-, hc⟩ := Node.everywhere_island.1 h
    exact delimiters_resolveAll fun n hn => ih n hn (hc n hn) _
  | isolated name bindings children l ih =>
    obtain ⟨-, hc⟩ := Node.everywhere_isolated.1 h
    exact delimiters_resolveAll fun n hn => ih n hn (hc n hn) own
  | callerScope children ih =>
    obtain ⟨-, hc⟩ := Node.everywhere_callerScope.1 h
    exact delimiters_resolveAll fun n hn => ih n hn (hc n hn) own
  | conditional branches alternate d l =>
    cases alternate <;> rfl
  | component | loop | text | comment | doctype | error => rfl

/-- Two contexts of data for the same nodes give pages with the same delimiters. -/
theorem resolveNodes_adds_no_delimiters (mode : Mode) (file : String) (data data' : Object)
    (nodes : List Node)
    (h : ∀ n ∈ Node.listDescendants nodes, ∀ code ∈ n.codes,
      data.Writes code ∧ data'.Writes code) :
    delimiters (renderAll (resolveNodes mode data file nodes).value) =
      delimiters (renderAll (resolveNodes mode data' file nodes).value) := by
  have keeps (d : Object)
      (hd : ∀ n ∈ Node.listDescendants nodes, ∀ code ∈ n.codes, d.Writes code) :
      delimiters (renderAll (resolveNodes mode d file nodes).value) =
        delimiters (renderAll nodes) :=
    delimiters_resolveAll fun n hn =>
      delimiters_resolve n (Node.forall_listDescendants.1 hd n hn) none
  rw [keeps data fun n hn code hc => (h n hn code hc).1,
    keeps data' fun n hn code hc => (h n hn code hc).2]

/-- Data that tries to leave an attribute and to open a tag, in all three places. -/
theorem resolveNodes_adds_no_delimiters_link :
    let nodes : List Node :=
      [.element "a" [.new "href" (.expression "url"),
          .new "title" (.interpolated [.text "to \"", .expression "url", .text "\""])]
        [.expression "name" "" .unknown] false .unknown]
    let data : Object := [("name", .string "<b>"), ("url", .string "\"><script>")]
    let data' : Object := [("name", .string "b"), ("url", .number (.integer 1))]
    (∀ n ∈ Node.listDescendants nodes, ∀ code ∈ n.codes, data.Writes code ∧ data'.Writes code) ∧
      delimiters (renderAll (resolveNodes .strict data "" nodes).value) =
        delimiters (renderAll (resolveNodes .strict data' "" nodes).value) := by
  intro nodes data data'
  have hurl : data.Writes "url" ∧ data'.Writes "url" :=
    ⟨⟨.ident "url", _, by cbv, rfl, .inl ⟨_, rfl⟩⟩, ⟨.ident "url", _, by cbv, rfl, .inr ⟨_, rfl⟩⟩⟩
  have hname : data.Writes "name" ∧ data'.Writes "name" :=
    ⟨⟨.ident "name", _, by cbv, rfl, .inl ⟨_, rfl⟩⟩, ⟨.ident "name", _, by cbv, rfl, .inl ⟨_, rfl⟩⟩⟩
  have h : ∀ n ∈ Node.listDescendants nodes, ∀ code ∈ n.codes,
      data.Writes code ∧ data'.Writes code := by
    simp [nodes, Node.listDescendants, Node.descendants, Node.codes, AttributeValue.codes,
      Attribute.new, hurl, hname]
  exact ⟨h, resolveNodes_adds_no_delimiters .strict "" data data' nodes h⟩

end Interpolation

end PageCompiler
