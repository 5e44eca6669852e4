import PageCompiler.Proofs.Escaping
import PageCompiler.Proofs.Pieces
import PageCompiler.Proofs.References
import PageCompiler.Proofs.Settling

/-!
What stands on the page for expressions whose names are bound nowhere, in lenient mode. In a body it
is what was written. Main statement: in an attribute it is the trimmed code in single braces, so
that the text is as it was written exactly if every expression was written in that way.
-/

namespace PageCompiler

open Json (Object)

namespace Markup

/-! ### The texts of pieces -/

namespace Piece

/-- What was written, in HTML. -/
def written : Piece → String
  | text cs => .ofList cs
  | p@(single _) | p@(double _) => Text.escapeHtml (.ofList p.source)

/-- The piece with its code between single braces, whatever it was written in. -/
def tightened : Piece → Piece
  | text cs => text cs
  | single inside | double inside => single (Text.trim inside)

/-- An expression without a value where no name is bound. -/
def IsOpen (p : Piece) : Prop :=
  ∀ code, p.part = .expression code →
    ∃ u, Evaluation.meaning ⟨[], []⟩ code = .unresolved u

/-- What stands in an attribute for a piece where no name is bound. In an event nothing is
evaluated. -/
def shown (event : Bool) (p : Piece) : String :=
  if event then renderPart p.part else Evaluation.partText .lenient ⟨[], []⟩ p.part

theorem trim_sublist (inside : List Char) : (Text.trim inside).Sublist inside := by
  obtain ⟨before, behind, hcs, -⟩ := Text.exists_trim inside
  nth_rewrite 2 [hcs]
  exact (List.sublist_append_left _ behind).trans (List.sublist_append_right before _)

theorem sublist_tightened (p : Piece) : p.tightened.source.Sublist p.source := by
  cases p with
  | text cs => exact .refl cs
  | single inside => exact ((trim_sublist inside).append_right _).cons_cons _
  | double inside =>
    exact (((trim_sublist inside).append (List.sublist_append_left ['\x7d'] ['\x7d'])).cons
      _).cons_cons _

theorem tightened_of_source {p : Piece} (h : p.tightened.source = p.source) : p.tightened = p := by
  cases p with
  | text cs => rfl
  | single inside =>
    have htrim : Text.trim inside = inside := by simpa [tightened, source] using h
    rw [tightened, htrim]
  | double inside =>
    have hle := (trim_sublist inside).length_le
    have hlength := congrArg List.length h
    simp only [tightened, source, List.length_cons, List.length_append, List.length_nil] at hlength
    omega

theorem shown_of_isOpen {p : Piece} (h : p.IsOpen) (event : Bool) :
    p.shown event = p.tightened.written := by
  have hcode (inside : List Char) :
      bracedCode (codeOf inside) = (single (Text.trim inside)).written := by
    simp [bracedCode, written, source, codeOf, String.append_assoc]
  cases p with
  | text cs => cases event <;> rfl
  | single inside | double inside =>
    obtain ⟨u, hu⟩ := h _ rfl
    rw [tightened, ← hcode, shown, part, renderPart, Evaluation.partText, hu, Evaluation.text]
    cases event <;> rfl

theorem quote_notMem_escapeHtml (s : String) : '"' ∉ (Text.escapeHtml s).toList := by
  intro h
  have hmem := List.mem_filter.2 ⟨h, (by decide : Text.isDelimiter '"' = true)⟩
  have hnil : (Text.escapeHtml s).toList.filter Text.isDelimiter = [] :=
    Text.delimiters_escapeHtml s
  simp [hnil] at hmem

/-- The piece between double quotes. -/
def quoted (p : Piece) : List Char := (Text.escapeQuotes p.written).toList

theorem quoted_expression {p : Piece} (h : p.written = Text.escapeHtml (.ofList p.source)) :
    p.quoted = p.source.flatMap Text.escapeHtmlChar := by
  rw [quoted, h, escapeQuotes_of_notMem (quote_notMem_escapeHtml _), Text.escapeHtml,
    String.toList_ofList, String.toList_ofList]

theorem quoted_single (inside : List Char) :
    (single inside).quoted = (single inside).source.flatMap Text.escapeHtmlChar :=
  quoted_expression rfl

theorem quoted_double (inside : List Char) :
    (double inside).quoted = (double inside).source.flatMap Text.escapeHtmlChar :=
  quoted_expression rfl

theorem sublist_quoted (p : Piece) : p.tightened.quoted.Sublist p.quoted := by
  cases p with
  | text cs => exact .refl _
  | single inside =>
    rw [tightened, quoted_single, quoted_single]
    exact (sublist_tightened (single inside)).flatMap _
  | double inside =>
    rw [tightened, quoted_single, quoted_double]
    exact (sublist_tightened (double inside)).flatMap _

theorem tightened_of_quoted {p : Piece} (h : p.tightened.quoted = p.quoted) : p.tightened = p := by
  have hsource {cs ds : List Char}
      (h : cs.flatMap Text.escapeHtmlChar = ds.flatMap Text.escapeHtmlChar) : cs = ds := by
    have hcs := congrArg Text.unescapeChars h
    rwa [Text.unescapeChars_flatMap, Text.unescapeChars_flatMap] at hcs
  cases p with
  | text cs => rfl
  | single inside =>
    rw [tightened, quoted_single, quoted_single] at h
    exact tightened_of_source (hsource h)
  | double inside =>
    rw [tightened, quoted_single, quoted_double] at h
    exact tightened_of_source (hsource h)

end Piece

/-- Lists that lie in others one by one, and are the same in a row, are the same one by one. -/
theorem forall_eq_of_flatMap {α β : Type} {f g : α → List β} {as : List α}
    (hfg : ∀ a ∈ as, (f a).Sublist (g a)) (h : as.flatMap f = as.flatMap g) :
    ∀ a ∈ as, f a = g a := by
  induction as with
  | nil => exact List.forall_mem_nil _
  | cons a as ih =>
    obtain ⟨ha, has⟩ := List.forall_mem_cons.1 hfg
    have hle := ha.length_le
    have hrest := (List.Sublist.flatMap_right as has).length_le
    have hlength := congrArg List.length h
    simp only [List.flatMap_cons, List.length_append] at hlength
    have heq := ha.eq_of_length (by omega)
    rw [List.flatMap_cons, List.flatMap_cons, heq, List.append_cancel_left_eq] at h
    exact List.forall_mem_cons.2 ⟨heq, ih has h⟩

theorem toList_escapeQuotes_join (ss : List String) :
    (Text.escapeQuotes (String.join ss)).toList =
      ss.flatMap fun s => (Text.escapeQuotes s).toList := by
  simp only [Text.escapeQuotes, String.toList_ofList, String.toList_join, List.flatMap_assoc]

/-- An attribute with its text between double quotes. -/
def attributeWith (name : String) (texts : List String) : String :=
  " " ++ name ++ "=\"" ++ Text.escapeQuotes (String.join texts) ++ "\""

/-- Pieces of which each is written in single braces without blanks are the only ones that stay the
same when all are written so. -/
theorem attributeWith_tightened (name : String) (ps : List Piece) :
    attributeWith name (ps.map fun p => p.tightened.written) =
        attributeWith name (ps.map Piece.written) ↔
      ∀ p ∈ ps, p.tightened = p := by
  refine ⟨fun h => ?_, fun h => ?_⟩
  · have hquoted : ps.flatMap (fun p => p.tightened.quoted) = ps.flatMap Piece.quoted := by
      have h := congrArg String.toList h
      simp only [attributeWith, String.toList_append, toList_escapeQuotes_join, List.flatMap_map,
        List.append_cancel_left_eq, List.append_cancel_right_eq] at h
      exact h
    intro p hp
    exact Piece.tightened_of_quoted
      (forall_eq_of_flatMap (fun p _ => p.sublist_quoted) hquoted p hp)
  · rw [List.map_congr_left fun p hp => congrArg Piece.written (h p hp)]

end Markup

namespace ControlFlow

open Interpolation (IslandNames isIslandName isIslandExpression isEvent resolver resolveAll)
open Markup (Piece pieces splitParts attributeText attributesOf attributeWith RawAttribute
  renderPart renderParts renderAttribute)

/-- No name of an expression in the text is bound, be it in the scope or in the islands around. -/
def IsUnbound (s : Scope) (own : IslandNames) (text : String) : Prop :=
  ∀ code e, .expression code ∈ splitParts text → Expr.parse code = .ok e →
    ∀ name ∈ e.roots, s.get? name = none ∧ isIslandName own name = false

/-- What control flow in the scope `s` makes of nodes in lenient mode, and then interpolation. -/
def lenient (file : String) (s : Scope) (own : IslandNames) (nodes : List Node) :
    Reported (List Node) :=
  expandAll ⟨.lenient, .controlFlow, file⟩ s nodes >>=
    resolveAll (resolver .lenient file) s.data own

section Parts

variable {file : String} {s : Scope} {own : IslandNames} {p : Part} {e : Expr} {code : String}

/-- Control flow leaves an expression for later if none of its names is bound. -/
theorem isLocalTo_of_unbound (h : ∀ name ∈ e.roots, s.get? name = none) :
    isLocalTo s e = false := by
  refine List.any_eq_false.2 fun name hn => ?_
  have hnone := (Option.or_eq_none_iff.1 (h name hn)).1
  rw [Scope.isLocal, hnone]
  simp

theorem meaning_of_unbound (hp : Expr.parse code = .ok e)
    (h : ∀ name ∈ e.roots, s.get? name = none) :
    Evaluation.meaning ⟨s.data, []⟩ code = Evaluation.meaning ⟨[], []⟩ code := by
  have he : e.evaluate s.data.get? = e.evaluate (Object.get? []) :=
    Expr.evaluate_congr fun name hn => (Option.or_eq_none_iff.1 (h name hn)).2
  simp only [Evaluation.meaning, hp, Evaluation.get?_ofData, he]

theorem resolve_first_unbound
    (h : ∀ e, Expr.parse code = .ok e → ∀ name ∈ e.roots, s.get? name = none) :
    (Resolver.mk .lenient .controlFlow file).resolve (bindingsIn s) code = .kept := by
  cases hp : Expr.parse code with
  | error e => simp [Resolver.resolve, hp]
  | ok e => simp [Resolver.resolve, hp, bindingsIn, isLocalTo_of_unbound (h e hp)]

theorem isIslandExpression_of_unbound (h : ∀ name ∈ e.roots, isIslandName own name = false) :
    isIslandExpression own e = false :=
  List.any_eq_false.2 fun name hn => by simp [h name hn]

/-- Interpolation gives it the value that it has without any names. -/
theorem resolve_last_unbound
    (h : ∀ e, Expr.parse code = .ok e →
      ∀ name ∈ e.roots, s.get? name = none ∧ isIslandName own name = false) :
    (resolver .lenient file).resolve ⟨s.data.get?, fun e => !isIslandExpression own e⟩ code =
      (Evaluation.meaning ⟨[], []⟩ code).resolved := by
  cases hp : Expr.parse code with
  | error e =>
    simp [Resolver.resolve, hp, Evaluation.meaning, resolver, Evaluation.Meaning.resolved]
  | ok e =>
    have hown := isIslandExpression_of_unbound fun name hn => (h e hp name hn).2
    rw [← meaning_of_unbound hp fun name hn => (h e hp name hn).1]
    simp only [Resolver.resolve, hp, hown, Evaluation.meaning, Evaluation.get?_ofData]
    cases e.evaluate s.data.get? <;> rfl

/-- An expression in a body. -/
theorem value_lenient_expression (hp : Expr.parse code = .ok e)
    (h : ∀ name ∈ e.roots, s.get? name = none ∧ isIslandName own name = false)
    (file raw : String) (l : Location) :
    (lenient file s own [.expression code raw l]).value =
      [Evaluation.node .lenient code raw l (Evaluation.meaning ⟨[], []⟩ code)] := by
  have hlocal := isLocalTo_of_unbound fun name hn => (h name hn).1
  have hown := isIslandExpression_of_unbound fun name hn => (h name hn).2
  have hvalue := @Evaluation.value_expression ⟨s.data, []⟩ _ (resolver .lenient file) _ hp raw l
  rw [Evaluation.get?_ofData, meaning_of_unbound hp fun name hn => (h name hn).1] at hvalue
  simp [lenient, expandAll, expand, hp, hlocal, resolveAll, Interpolation.resolve, hown, hvalue]
  rfl

theorem settledPart_unbound (a : Attribute)
    (h : ∀ code e, p = .expression code → Expr.parse code = .ok e →
      ∀ name ∈ e.roots, s.get? name = none ∧ isIslandName own name = false) :
    settledPart .lenient file s s.data own a p =
      if isEvent own a then p else .text (Evaluation.partText .lenient ⟨[], []⟩ p) := by
  cases p with
  | text t =>
    unfold settledPart
    split <;> rfl
  | expression code =>
    have hcode e := h code e rfl
    have hfirst := @resolve_first_unbound file s code fun e he name hn => (hcode e he name hn).1
    rw [settledPart, Resolver.part, hfirst]
    dsimp only
    split
    · rfl
    · exact Evaluation.value_part_of_resolved (resolve_last_unbound hcode)

end Parts

section Texts

variable {file : String} {s : Scope} {own : IslandNames}

theorem renderParts_joinTexts (ps : List Part) :
    renderParts (Resolver.joinTexts ps) = renderParts ps :=
  Evaluation.join_joinTexts (fun _ => rfl) ps

theorem renderAttribute_ofParts (a : Attribute) (ps : List Part) :
    renderAttribute { a with value := Resolver.ofParts ps } =
      attributeWith a.name (ps.map renderPart) := by
  rw [attributeWith, ← renderParts, ← renderParts_joinTexts, Resolver.ofParts]
  split
  · next h =>
    rw [h]
    rfl
  · next t h =>
    rw [h]
    simp [renderAttribute, renderParts, renderPart]
  · rfl

/-- The pieces of a text without expressions are the text. -/
theorem splitParts_of_static {text : String} (h : ¬(splitParts text).any Markup.isExpressionPart) :
    ∃ ts : List String, splitParts text = ts.map Part.text ∧ String.join ts = text := by
  refine ⟨(pieces text).map fun p => .ofList p.source, ?_, Markup.join_sources text⟩
  rw [Markup.splitParts_eq, List.map_map]
  refine List.map_congr_left fun p hp => ?_
  cases p with
  | text cs => rfl
  | single inside | double inside =>
    exact absurd (List.any_eq_true.2 ⟨_, Markup.part_mem_splitParts hp, rfl⟩) h

theorem settled?_attributeText (data : Object) (a : Attribute) (text : String) :
    settled? .lenient file s data own { a with value := attributeText text } =
      some { a with
        value := Resolver.ofParts
          ((splitParts text).map (settledPart .lenient file s data own a)) } := by
  unfold attributeText
  split
  · exact settled?_interpolated a _
  · next h =>
    obtain ⟨ts, hts, rfl⟩ := splitParts_of_static h
    have htext (t : String) : settledPart .lenient file s data own a (.text t) = .text t := by
      unfold settledPart
      split <;> rfl
    rw [settled?_static, hts, List.map_map]
    simp only [Function.comp_def, htext, Evaluation.ofParts_texts]

end Texts

section Nodes

variable {file : String} {s : Scope} {own : IslandNames} {text : String}

theorem value_lenient_element (file : String) (s : Scope) (own : IslandNames) (tag : String)
    (as : List Attribute) (children : List Node) (closing : Bool) (l : Location) :
    (lenient file s own [.element tag as children closing l]).value =
      [.element tag (as.filterMap (settled? .lenient file s s.data own))
        (lenient file s own children).value closing l] := by
  simp [lenient, expandAll, expand, resolveAll, Interpolation.resolve, ← value_settled]

/-- In a body a piece shows how it was written. -/
theorem render_lenient_node (h : IsUnbound s own text) {p : Piece} (hp : p ∈ pieces text)
    (hopen : p.IsOpen) (file : String) (l : Location) :
    Markup.renderAll (lenient file s own [p.node l]).value = p.written := by
  cases p with
  | text cs =>
    simp [lenient, expandAll, expand, resolveAll, Interpolation.resolve, Piece.node, Piece.written,
      Markup.renderAll, Markup.render]
  | single inside | double inside =>
    obtain ⟨u, hu⟩ := hopen _ rfl
    obtain ⟨e, he⟩ : ∃ e, Expr.parse (Markup.codeOf inside) = .ok e := by
      cases he : Expr.parse (Markup.codeOf inside) with
      | error e => simp [Evaluation.meaning, he] at hu
      | ok e => exact ⟨e, rfl⟩
    have hunbound := h _ e (Markup.part_mem_splitParts hp) he
    rw [Piece.node, value_lenient_expression he hunbound, hu, Evaluation.node, Markup.renderAll,
      Markup.render, Markup.renderAll, String.append_empty]
    rfl

theorem renderPart_settledPart (h : IsUnbound s own text) (file : String) (a : Attribute)
    {p : Piece} (hp : p ∈ pieces text) :
    renderPart (settledPart .lenient file s s.data own a p.part) = p.shown (isEvent own a) := by
  rw [settledPart_unbound a fun code e hc => h code e (hc ▸ Markup.part_mem_splitParts hp),
    Piece.shown]
  split <;> rfl

/-- What stands on the page for the text of an attribute if its names are bound nowhere. -/
theorem lenient_attribute (h : IsUnbound s own text) (file tag name : String)
    (before after : List RawAttribute) (children : List Node) (closing : Bool) (l l' : Location) :
    let written : RawAttribute := ⟨name, some (.text text), l⟩
    let event := isEvent own (.new name .bare)
    ∃ bs a cs,
      (lenient file s own
        [.element tag (attributesOf (before ++ written :: after)) children closing l']).value =
          [.element tag (bs ++ a :: cs) (lenient file s own children).value closing l'] ∧
      renderAttribute a = attributeWith name ((pieces text).map (Piece.shown event)) ∧
      ((∀ p ∈ pieces text, p.IsOpen) →
        (renderAttribute a = attributeWith name ((pieces text).map Piece.written) ↔
          ∀ p ∈ pieces text, p.tightened = p) ∧
        ∀ p ∈ pieces text, Markup.renderAll (lenient file s own [p.node l]).value = p.written) := by
  intro written event
  let a : Attribute := ⟨name, .bare, l⟩
  let b : Attribute := { a with
    value := Resolver.ofParts ((splitParts text).map (settledPart .lenient file s s.data own a)) }
  have hb : settled? .lenient file s s.data own ⟨name, attributeText text, l⟩ = some b :=
    settled?_attributeText s.data a text
  have hshown : renderAttribute b = attributeWith name ((pieces text).map (Piece.shown event)) := by
    rw [renderAttribute_ofParts, Markup.splitParts_eq, List.map_map, List.map_map]
    exact congrArg _ (List.map_congr_left fun p hp => renderPart_settledPart h file a hp)
  refine ⟨(attributesOf before).filterMap (settled? .lenient file s s.data own), b,
    (attributesOf after).filterMap (settled? .lenient file s s.data own), ?_, hshown, ?_⟩
  · rw [value_lenient_element, attributesOf, List.map_append, List.map_cons, List.filterMap_append,
      List.filterMap_cons, hb]
    rfl
  · intro hopen
    refine ⟨?_, fun p hp => render_lenient_node h hp (hopen p hp) file l⟩
    have htightened : (pieces text).map (Piece.shown event) =
        (pieces text).map fun p => p.tightened.written :=
      List.map_congr_left fun p hp => Piece.shown_of_isOpen (hopen p hp) event
    rw [hshown, htightened]
    exact Markup.attributeWith_tightened name (pieces text)

/-- One expression that was written in single braces without blanks, and one that was not. -/
theorem lenient_attribute_braces :
    let s := Scope.ofData [("known", .null)]
    let text := "\x7bfirst\x7d & \x7b\x7b last \x7d\x7d"
    let written : RawAttribute := ⟨"title", some (.text text), .unknown⟩
    IsUnbound s none text ∧
      ∃ bs a cs,
        (lenient "page" s none
          [.element "p" (attributesOf ([] ++ written :: [])) [] false .unknown]).value =
            [.element "p" (bs ++ a :: cs) (lenient "page" s none []).value false .unknown] ∧
        renderAttribute a = " title=\"\x7bfirst\x7d & \x7blast\x7d\"" ∧
        renderAttribute a ≠ attributeWith "title" ((pieces text).map Piece.written) ∧
        ∀ p ∈ pieces text,
          Markup.renderAll (lenient "page" s none [p.node .unknown]).value = p.written := by
  intro s text written
  have hparts : splitParts text = [.expression "first", .text " & ", .expression "last"] := by cbv
  have hpieces : pieces text = [.single "first".toList, .text " & ".toList,
      .double " last ".toList] := by
    cbv
  have hfirst : Expr.parse "first" = .ok (.ident "first") := by cbv
  have hlast : Expr.parse "last" = .ok (.ident "last") := by cbv
  have hunbound : IsUnbound s none text := by
    intro code e hmem he name hn
    simp only [hparts, List.mem_cons, List.not_mem_nil, or_false, Part.expression.injEq,
      reduceCtorEq, false_or] at hmem
    obtain rfl | rfl := hmem
    · obtain rfl := Except.ok.inj (hfirst.symm.trans he)
      obtain rfl : name = "first" := by simpa [Expr.roots, Expr.idents] using hn
      exact ⟨by decide, rfl⟩
    · obtain rfl := Except.ok.inj (hlast.symm.trans he)
      obtain rfl : name = "last" := by simpa [Expr.roots, Expr.idents] using hn
      exact ⟨by decide, rfl⟩
  have hopen : ∀ p ∈ pieces text, p.IsOpen := by
    have hident {code name : String} (h : Expr.parse code = .ok (.ident name)) :
        ∃ u, Evaluation.meaning ⟨[], []⟩ code = .unresolved u :=
      ⟨⟨name⟩, by rw [Evaluation.meaning, h]; rfl⟩
    rw [hpieces]
    refine List.forall_mem_cons.2 ⟨?_, List.forall_mem_cons.2 ⟨?_, List.forall_mem_singleton.2 ?_⟩⟩
    · rintro code ⟨⟩
      exact hident hfirst
    · rintro code ⟨⟩
    · rintro code ⟨⟩
      exact hident hlast
  obtain ⟨bs, a, cs, hvalue, hshown, hopened⟩ :=
    lenient_attribute hunbound "page" "p" "title" [] [] [] false .unknown .unknown
  obtain ⟨hiff, hbody⟩ := hopened hopen
  refine ⟨hunbound, bs, a, cs, hvalue, ?_, fun h => ?_, hbody⟩
  · rw [hshown, hpieces]
    decide +kernel
  · have htight := hiff.1 h (.double " last ".toList) (by simp [hpieces])
    cases htight

/-- Double braces and blanks are lost in an attribute, and stay in a body. -/
theorem lenient_doubleBraces :
    let text := "\x7b\x7b ghost \x7d\x7d"
    let title : RawAttribute := ⟨"title", some (.text text), .unknown⟩
    let body : Node := .expression "ghost" text .unknown
    Markup.renderAll (lenient "page" (.ofData []) none
        [.element "p" (attributesOf [title]) [body] false .unknown]).value =
      "<p title=\"\x7bghost\x7d\">\x7b\x7b ghost \x7d\x7d</p>" ∧
    attributeWith "title" ((pieces text).map Piece.written) =
      " title=\"\x7b\x7b ghost \x7d\x7d\"" := by
  decide +kernel

end Nodes

end ControlFlow

end PageCompiler
