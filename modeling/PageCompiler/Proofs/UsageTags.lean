import Mathlib
import PageCompiler.Proofs.Fragment

/-!
Which tags are usages of components. Main statement: a tag whose name begins with a capital is read
as the usage of a component with the content that stands in it, unless its name is, in some case of
letters, that of a void element, of an element with raw text, or of a tag that directs the compiler.
-/

namespace PageCompiler

namespace Markup

open Node (listUnplaced)

/-- Elements and text: no components, no directives, no raw text and no expressions. -/
inductive Plain : List Node → Prop
  | nil : Plain []
  | text : IsLoose s.toList → Plain ns → Plain (.text s l :: ns)
  | void : IsElementName tag → isVoid tag → (∀ a ∈ as, a.IsBraceless) → Plain ns →
    Plain (.element tag as children selfClosing l :: ns)
  | element : IsElementName tag → ¬isVoid tag → ¬isRawText tag → (∀ a ∈ as, a.IsBraceless) →
    Plain children → Plain ns → Plain (.element tag as children selfClosing l :: ns)

theorem Plain.fragment {ns : List Node} (h : Plain ns) : Fragment (fun _ => True) ns := by
  induction h with
  | nil => exact .nil
  | text hs _ ih => exact .text hs ih
  | void ht hv ha _ ih => exact .void ht trivial hv ha ih
  | element ht hv hraw ha _ _ ihc ih => exact .element ht trivial hv hraw ha ihc ih

/-- ASCII letters and digits, the first of which is a capital. -/
structure IsPascalName (name : String) : Prop where
  head : name.toList.head?.any Char.isUpper
  chars : ∀ c ∈ name.toList, c.isAlphanum

/-- Tags that direct the compiler. -/
def directingTags : List String := ["for", "if", "elif", "else", "slot", "n:slot", "n:island"]

/-- In some case of letters it is the name of something that is not a component. -/
def IsReserved (name : String) : Prop :=
  isVoid name ∨ isRawText name ∨ asciiLower name ∈ directingTags

/-- A tag with what is written for the nodes in it. -/
def enclosed (name : String) (ns : List Node) : String :=
  "<" ++ name ++ ">" ++ renderAll ns ++ "</" ++ name ++ ">"

/-- The tag is read as the usage of a component, with the content that is in it. -/
def ReadsAsUsage (name : String) (ns : List Node) (file : String) : Prop :=
  (parse (enclosed name ns) file).diagnostics = [] ∧
    ∃ children l, (parse (enclosed name ns) file).value = [.component name [] children l] ∧
      listUnplaced children = listUnplaced (parse (renderAll ns) file).value

section Usages

variable {name : String} {ns ms : List Node} {file : String} {xs : List Lexeme} {l l' : Location}

theorem IsPascalName.isTagName (h : IsPascalName name) : IsTagName name where
  head := by
    have hhead := h.head
    cases hn : name.toList with
    | nil => simp [hn] at hhead
    | cons c cs => simp_all [Char.isAlpha]
  chars c hc := not_endsTagName_of_isAlphanum (h.chars c hc)

theorem toList_enclosed (name : String) (ns : List Node) :
    (enclosed name ns).toList =
      '<' :: opening name [] ++ (renderAll ns).toList ++ closing name := by
  simp [enclosed, opening, closing, renderAttributes]

/-- A tag that is closed behind its content is built from that content. -/
theorem parse_of_scan {source : String} (hv : ¬isVoid name) (h : Spells xs ms)
    (hs : scan source file =
      pure (⟨.openTag name [] false, l⟩ :: (xs ++ [⟨.closeTag name, l'⟩]))) :
    parse source file =
      build file name [] false ms l >>= fun b =>
        pure (Progress.place [] [] b).settle.nodes.reverse := by
  have hstack (b : Built) : (Progress.place [] [] b).stack = [] := by cases b <;> rfl
  rw [parse, hs, pure_bind, List.foldlM_cons, Progress.start, step_openTag hv, pure_bind,
    List.foldlM_append, h.foldlM, pure_bind, List.foldlM_cons, List.append_nil, step_closeTag]
  simp [hstack, Progress.closeAll]

theorem build_component (h : IsPascalName name) (hd : asciiLower name ∉ directingTags)
    (raw : List RawAttribute) (selfClosing : Bool) (children : List Node) (l : Location) :
    build file name raw selfClosing children l =
      pure (.node (.component name (attributesOf raw) children l)) := by
  have hcomponent : isComponentTag name := h.head
  simp only [directingTags, List.mem_cons, List.not_mem_nil, or_false, not_or] at hd
  unfold build
  split <;> simp_all

variable (file)

theorem scan_enclosed (ht : IsTagName name) (hraw : ¬isRawText name) (hns : Plain ns) :
    ∃ xs ms l l', scan (enclosed name ns) file =
        pure (⟨.openTag name [] false, l⟩ :: (xs ++ [⟨.closeTag name, l'⟩])) ∧
      Spells xs ms ∧ listUnplaced ms = listUnplaced (parse (renderAll ns) file).value := by
  have hplain : ∀ a ∈ ([] : List Attribute), a.IsPlain := List.forall_mem_nil _
  obtain ⟨raw, l₁, hfound, h₁⟩ := scans_opening file .start
    ((renderAll ns).toList ++ (closing name ++ [])) ht hplain hraw
  obtain rfl : raw = [] := by simpa [Found] using hfound
  have hend : EndsText (closing name ++ []) := by simp [closing, EndsText]
  obtain ⟨xs, ms, l₂, h₂⟩ := hns.fragment.spelled file l₁ hend
  obtain ⟨l₃, h₃⟩ := scans_closing file l₂ [] ht
  have hs := (h₁.append h₂.scans).append h₃
  rw [Scans, List.append_nil, ← toList_enclosed] at hs
  refine ⟨joinText xs, ms, .start, l₂, ?_, h₂.spells, h₂.unplaced⟩
  rw [scan, hs, steps, map_pure, map_pure, List.append_nil, joinText_append_cons rfl,
    List.singleton_append, joinText_cons fun hx => Bool.noConfusion hx]
  rfl

theorem readsAsUsage (h : IsPascalName name) (hr : ¬IsReserved name) (hns : Plain ns) :
    ReadsAsUsage name ns file := by
  obtain ⟨hv, hraw, hd⟩ := not_or.1 hr |>.imp_right not_or.1
  obtain ⟨xs, ms, l, l', hs, hsp, hun⟩ := scan_enclosed file h.isTagName hraw hns
  rw [ReadsAsUsage, parse_of_scan hv hsp hs, build_component h hd]
  exact ⟨rfl, ms, l, rfl, hun⟩

theorem not_directing_of_isVoid (hv : isVoid name) : asciiLower name ∉ directingTags := by
  simp only [isVoid, List.any_eq_true, Text.eqIgnoringAsciiCase, beq_iff_eq] at hv
  obtain ⟨t, ht, hlower⟩ := hv
  have htags : ∀ t ∈ voidTags, asciiLower t ∉ directingTags := by decide +kernel
  rw [asciiLower, hlower]
  exact htags t ht

/-- The opening tag is all of the usage: its content follows it, and nothing is left to close. -/
theorem parse_enclosed_of_isVoid (h : IsPascalName name) (hv : isVoid name) (hns : Plain ns) :
    ∃ ms l l', parse (enclosed name ns) file = ⟨.component name [] [] l :: ms,
        [(Diagnostic.warning .parse .structuralDirective
          ("Stray closing tag </" ++ name ++ ">.")).placed file l']⟩ ∧
      listUnplaced ms = listUnplaced (parse (renderAll ns) file).value := by
  have hraw : ¬isRawText name := fun hraw => by simp [isVoid_of_isRawText hraw] at hv
  obtain ⟨xs, ms, l, l', hs, hsp, hun⟩ := scan_enclosed file h.isTagName hraw hns
  have hopen : Progress.step file .start ⟨.openTag name [] false, l⟩ =
      pure ⟨[.component name [] [] l], [], none⟩ := by
    simp [Progress.start, Progress.step, Progress.take, hv,
      build_component h (not_directing_of_isVoid hv), Progress.place, attributesOf]
  refine ⟨ms, l, l', ?_, hun⟩
  rw [parse, hs, pure_bind, List.foldlM_cons, hopen, pure_bind, List.foldlM_append, hsp.foldlM,
    pure_bind]
  refine Reported.ext ?_ ?_ <;>
  simp [Progress.step, Progress.take, Progress.settle, Progress.settled, Progress.closeAll, report]

theorem not_readsAsUsage_of_isVoid (h : IsPascalName name) (hv : isVoid name) (hns : Plain ns) :
    ¬ReadsAsUsage name ns file := by
  obtain ⟨ms, l, l', hparse, -⟩ := parse_enclosed_of_isVoid file h hv hns
  rintro ⟨hclean, -⟩
  rw [hparse] at hclean
  cases hclean

theorem isElementName_b : IsElementName "b" :=
  ⟨by decide +kernel, by simp [Step.endsTagName, Text.isBlank], by decide +kernel⟩

theorem plain_b : Plain [.element "b" [] [] false .unknown] :=
  .element isElementName_b (by decide +kernel) (by decide +kernel) (List.forall_mem_nil _) .nil .nil

/-- The content is text, whatever stands in it. -/
theorem not_readsAsUsage_of_isRawText (h : IsPascalName name) (hraw : isRawText name) :
    ¬ReadsAsUsage name [.element "b" [] [] false .unknown] file := by
  obtain ⟨t, ht, hlower⟩ := exists_rawTextTag hraw
  have hv : ¬isVoid name := by simp [isVoid_of_isRawText hraw]
  have hd : asciiLower name ∉ directingTags := by
    have htags : ∀ t ∈ rawTextTags, asciiLower t ∉ directingTags := by decide +kernel
    rw [asciiLower, hlower]
    exact htags t ht
  have hmark : ¬closingMark name <:+: "<b></b>".toList.map Char.toLower := by
    have hmarks : ∀ t ∈ rawTextTags, ¬closingMark t <:+: "<b></b>".toList.map Char.toLower := by
      decide +kernel
    rw [closingMark, hlower]
    exact hmarks t ht
  have hplain : ∀ a ∈ ([] : List Attribute), a.IsPlain := List.forall_mem_nil _
  obtain ⟨raw, l₁, l₂, hfound, h₁⟩ :=
    scans_rawOpening file .start [] h.isTagName hplain hraw hmark
  obtain rfl : raw = [] := by simpa [Found] using hfound
  obtain ⟨l₃, h₂⟩ := scans_closing file l₂ [] h.isTagName
  have hb : renderAll [.element "b" [] [] false .unknown] = "<b></b>" := by decide +kernel
  have hs := h₁.append h₂
  rw [Scans, List.append_nil] at hs
  have hscan : scan (enclosed name [.element "b" [] [] false .unknown]) file =
      pure (⟨.openTag name [] false, .start⟩ :: ([⟨.rawText "<b></b>", l₁⟩] ++
        [⟨.closeTag name, l₂⟩])) := by
    rw [scan, toList_enclosed, hb, List.cons_append, hs, steps, map_pure, map_pure]
    rfl
  rintro ⟨-, children, l₄, hvalue, hun⟩
  rw [parse_of_scan hv .rawText hscan, build_component h hd] at hvalue
  cases hvalue
  have hcanonical : Canonical [.element "b" [] [] false .unknown] :=
    .element isElementName_b (by decide +kernel) (by decide +kernel) (List.forall_mem_nil _) .nil
      .nil
  rw [(parse_renderAll hcanonical file).2] at hun
  cases hun

theorem not_readsAsUsage_of_mem (ht : IsTagName name) (hv : ¬isVoid name) (hraw : ¬isRawText name)
    (hd : asciiLower name ∈ directingTags) : ¬ReadsAsUsage name [] file := by
  obtain ⟨xs, ms, l, l', hs, hsp, -⟩ := scan_enclosed file ht hraw .nil
  rintro ⟨hclean, children, l₁, hvalue, -⟩
  rw [parse_of_scan hv hsp hs] at hclean hvalue
  simp only [directingTags, List.mem_cons, List.not_mem_nil, or_false] at hd
  obtain h | h | h | h | h | h | h := hd <;>
  simp [build, h, filledDirective?, directive?, controlFlowError, report, islandOf, Progress.place,
    Progress.settle, Progress.settled] at hclean hvalue

/-- A name that begins with a capital is that of a component, unless it is reserved. -/
theorem readsAsUsage_iff (h : IsPascalName name) :
    (∀ ns, Plain ns → ReadsAsUsage name ns file) ↔ ¬IsReserved name := by
  refine ⟨fun hall hr => ?_, fun hr ns hns => readsAsUsage file h hr hns⟩
  by_cases hv : isVoid name
  · exact not_readsAsUsage_of_isVoid file h hv .nil (hall [] .nil)
  by_cases hraw : isRawText name
  · exact not_readsAsUsage_of_isRawText file h hraw (hall _ plain_b)
  · have hd : asciiLower name ∈ directingTags := (hr.resolve_left hv).resolve_left hraw
    exact not_readsAsUsage_of_mem file h.isTagName hv hraw hd (hall [] .nil)

theorem readsAsUsage_iff_card :
    let ns := [.newText "1 < 2", .element "b" [] [] false .unknown]
    IsPascalName "Card" ∧ Plain ns ∧ ReadsAsUsage "Card" ns "page" := by
  intro ns
  have h : IsPascalName "Card" := ⟨by decide +kernel, List.all_eq_true.1 (by decide +kernel)⟩
  have hns : Plain ns :=
    .text ⟨by decide +kernel, by decide +kernel, by decide +kernel⟩ plain_b
  have hr : ¬IsReserved "Card" := by
    rintro (h | h | h) <;> revert h <;> decide +kernel
  exact ⟨h, hns, (readsAsUsage_iff "page" h).2 hr ns hns⟩

/-- A link cannot be a component, for in lower case it is a void element. -/
theorem not_readsAsUsage_link :
    IsPascalName "Link" ∧ Plain [.newText "C"] ∧ ¬ReadsAsUsage "Link" [.newText "C"] "page" := by
  have h : IsPascalName "Link" := ⟨by decide +kernel, List.all_eq_true.1 (by decide +kernel)⟩
  have hns : Plain [.newText "C"] :=
    .text ⟨by decide +kernel, by decide +kernel, by decide +kernel⟩ .nil
  exact ⟨h, hns, not_readsAsUsage_of_isVoid "page" h (by decide +kernel) hns⟩

end Usages

end Markup

end PageCompiler
