import Mathlib
import PageCompiler.Proofs.Search
import PageCompiler.Shell

/-!
Style sheets and scripts in their elements. Main statement: the script of a page holds nothing that
ends or comments out its element, and the style sheet holds such an end only if it has one that is
not in small letters.
-/

namespace PageCompiler

namespace Text

/-- The word stands in the text, in any case of its ASCII letters. -/
def HoldsWord (word text : String) : Prop :=
  word.toList.map Char.toLower <:+: text.toList.map Char.toLower

instance (word text : String) : Decidable (HoldsWord word text) :=
  inferInstanceAs (Decidable (_ <:+: _))

theorem holdsWord_iff {word text : String} :
    HoldsWord word text ↔
      ∃ w, w <:+: text.toList ∧ w.map Char.toLower = word.toList.map Char.toLower := by
  simp only [HoldsWord, List.infix_map_iff, eq_comm]

theorem eq_of_toLower {c d : Char} (hd : ¬d.isLower) (h : c.toLower = d) : c = d := by
  by_cases hc : c.isUpper
  · rw [← h, Char.isLower_toLower_eq_isAlpha, Char.isAlpha, hc] at hd
    simp at hd
  · rw [← h, Char.toLower_eq_of_not_isUpper hc]

/-- Words that begin an end tag, in any case. -/
theorem exists_of_map_toLower {w v : List Char}
    (h : w.map Char.toLower = '<' :: '/' :: v) :
    ∃ u, w = '<' :: '/' :: u ∧ u.map Char.toLower = v := by
  obtain ⟨c, w, rfl, hc, h⟩ := List.map_eq_cons_iff.1 h
  obtain ⟨d, u, rfl, hd, hu⟩ := List.map_eq_cons_iff.1 h
  exact ⟨u, by rw [eq_of_toLower (by decide) hc, eq_of_toLower (by decide) hd], hu⟩

theorem angle_notMem {u v : List Char} (h : u.map Char.toLower = v) (hv : '<' ∉ v) : '<' ∉ u :=
  fun hu => hv (h ▸ List.mem_map_of_mem (f := Char.toLower) hu)

end Text

namespace Shell

open Text (HoldsWord)

/-! ### Style sheets -/

/-- Only an end tag in small letters is kept apart. -/
theorem holdsWord_escapeStyle {css : String} : HoldsWord "</style" (escapeStyle css) ↔
    ∃ w, w <:+: css.toList ∧ w.map Char.toLower = "</style".toList ∧ w ≠ "</style".toList := by
  have hlower : "</style".toList.map Char.toLower = "</style".toList := by decide
  have htext : (escapeStyle css).toList =
      Text.replaceAll ('<' :: "/style".toList) ('<' :: '\\' :: "/style".toList) css.toList := by
    rw [escapeStyle, Text.replaced, String.toList_ofList]
    rfl
  rw [Text.holdsWord_iff, hlower, htext]
  constructor
  · rintro ⟨w, hw, h⟩
    obtain ⟨u, rfl, hu⟩ := Text.exists_of_map_toLower h
    have hangle : '<' ∉ u := Text.angle_notMem hu (by decide)
    obtain ⟨hw, hne⟩ :=
      Text.infix_replaceAll (by decide) hangle (by decide) (by decide) (by decide) hw
    exact ⟨_, hw, h, fun he => hne (List.cons.inj he).2⟩
  · rintro ⟨w, hw, h, hne⟩
    obtain ⟨u, rfl, hu⟩ := Text.exists_of_map_toLower h
    have hangle : '<' ∉ '/' :: u := Text.angle_notMem (congrArg ('/' :: ·) hu) (by decide)
    refine ⟨_, Text.infix_replaceAll_of_ne (by decide) hangle ?_ ?_ _ hw, h⟩
    · simpa using congrArg List.length hu
    · exact fun he => hne (congrArg ('<' :: ·) he)

/-! ### Scripts -/

theorem isScriptName_of_toLower {cs : List Char} (h : cs.map Char.toLower = "script".toList) :
    isScriptName cs := by
  have hs : ∀ c ∈ cs, (if c = 'ſ' then 's' else c.toLower) = c.toLower := by
    intro c hc
    rw [if_neg]
    rintro rfl
    have : 'ſ' ∈ "script".toList := h ▸ List.mem_map_of_mem (f := Char.toLower) hc
    exact absurd this (by decide)
  rw [isScriptName, List.map_congr_left hs, h, beq_self_eq_true]

theorem angle_notMem_of_isScriptName {cs : List Char} (h : isScriptName cs) : '<' ∉ cs := by
  intro hc
  have h := beq_iff_eq.1 h
  have : (if '<' = 'ſ' then 's' else '<'.toLower) ∈ "script".toList :=
    h ▸ List.mem_map_of_mem (f := fun c => if c = 'ſ' then 's' else c.toLower) hc
  exact absurd this (by decide)

theorem length_of_isScriptName {cs : List Char} (h : isScriptName cs) : cs.length = 6 := by
  simpa using congrArg List.length (beq_iff_eq.1 h)

/-- In front of the first `<` everything stays. -/
theorem prefix_of_escapeScriptEnd {v cs : List Char} (hv : '<' ∉ v)
    (h : v <+: escapeScriptEnd cs) : v <+: cs := by
  induction v generalizing cs with
  | nil => exact List.nil_prefix
  | cons c v ih =>
    rw [List.mem_cons, not_or] at hv
    unfold escapeScriptEnd at h
    split at h
    · split at h
      all_goals exact absurd (List.cons_prefix_cons.1 h).1.symm hv.1
    · next d cs _ =>
      obtain ⟨rfl, ht⟩ := List.cons_prefix_cons.1 h
      exact List.cons_prefix_cons.2 ⟨rfl, ih hv.2 ht⟩
    · exact h

theorem not_infix_escapeScriptEnd {name : List Char} (hn : isScriptName name) (cs : List Char) :
    ¬('<' :: '/' :: name) <:+: escapeScriptEnd cs := by
  fun_induction escapeScriptEnd cs with
  | case1 cs hs ih =>
    have hangle : '<' ∉ '\\' :: '/' :: cs.take 6 := by
      simpa using angle_notMem_of_isScriptName hs
    rw [List.cons_append, List.infix_cons_iff, not_or, Text.infix_append_iff_of_notMem hangle]
    exact ⟨by simp [List.cons_prefix_cons], ih⟩
  | case2 cs hs ih =>
    rw [List.infix_cons_iff, not_or]
    refine ⟨fun h => hs ?_, ih⟩
    -- the name would be that of the end tag in front of which the text goes on
    have hname : '/' :: name <+: '/' :: cs :=
      prefix_of_escapeScriptEnd (by simpa using angle_notMem_of_isScriptName hn)
        (List.cons_prefix_cons.1 h).2
    obtain ⟨rest, rfl⟩ := (List.cons_prefix_cons.1 hname).2
    rwa [← length_of_isScriptName hn, List.take_left]
  | case3 c cs hc ih =>
    rw [List.infix_cons_iff, not_or]
    refine ⟨fun hpre => ?_, ih⟩
    obtain ⟨rfl, h⟩ := List.cons_prefix_cons.1 hpre
    have hslash : ['/'] <+: cs :=
      prefix_of_escapeScriptEnd (by decide) ((List.prefix_append ['/'] name).trans h)
    obtain ⟨rest, rfl⟩ := hslash
    exact hc rest rfl rfl
  | case4 => simp

theorem toList_escapeScript (js : String) : (escapeScript js).toList =
    Text.replaceAll ('<' :: "!--".toList) ('<' :: '\\' :: "!--".toList)
      (escapeScriptEnd js.toList) := by
  have hmarks : "<!--".toList = '<' :: "!--".toList ∧
      "<\\!--".toList = '<' :: '\\' :: "!--".toList := by decide
  rw [escapeScript, Text.replaced, hmarks.1, hmarks.2, String.toList_ofList,
    String.toList_ofList (l := escapeScriptEnd _)]

theorem not_holdsWord_escapeScript (js : String) : ¬HoldsWord "</script" (escapeScript js) := by
  have hlower : "</script".toList.map Char.toLower = "</script".toList := by decide
  rw [Text.holdsWord_iff, hlower, toList_escapeScript]
  rintro ⟨w, hw, h⟩
  obtain ⟨u, rfl, hu⟩ := Text.exists_of_map_toLower h
  have hangle : '<' ∉ u := Text.angle_notMem hu (by decide)
  have hw := (Text.infix_replaceAll (by decide) hangle (by decide) (by decide) (by decide) hw).1
  exact not_infix_escapeScriptEnd (isScriptName_of_toLower hu) _ hw

theorem not_infix_escapeScript (js : String) : ¬"<!--".toList <:+: (escapeScript js).toList := by
  rw [toList_escapeScript]
  intro h
  exact (Text.infix_replaceAll (v := "--".toList) (by decide) (by decide) (by decide) (by decide)
    (by decide) h).2 rfl

/-! ### The document -/

/-- The style element of a page, if it has any style. -/
def styleElement (css : String) : String :=
  if Text.isAllBlank css then "" else "<style>\n" ++ escapeStyle css ++ "\n</style>\n"

/-- The element of a page for the scripts that are written in it. -/
def scriptElement (js : String) : String :=
  if Text.isAllBlank js then ""
  else "<script type=\"module\">\n" ++ escapeScript js ++ "\n</script>\n"

theorem join_head (s : Shell) :
    String.join s.head = String.join { s with css := "" }.head ++ styleElement s.css := by
  have hblank : Text.isAllBlank "" = true := rfl
  have helement : String.join (if Text.isAllBlank s.css then []
      else ["<style>\n", escapeStyle s.css, "\n</style>\n"]) = styleElement s.css := by
    unfold styleElement
    split <;> simp [String.append_assoc]
  simp only [head, hblank, if_true, List.append_nil]
  rw [String.join_append, helement]
  rfl

theorem join_scriptElements (s : Shell) : String.join s.scriptElements =
    String.join { s with inlineScript := "" }.scriptElements ++ scriptElement s.inlineScript := by
  have hblank : Text.isAllBlank "" = true := rfl
  have helement : String.join (if Text.isAllBlank s.inlineScript then []
      else ["<script type=\"module\">\n", escapeScript s.inlineScript, "\n</script>\n"]) =
        scriptElement s.inlineScript := by
    unfold scriptElement
    split <;> simp [String.append_assoc]
  simp only [scriptElements, hblank, if_true, List.append_nil]
  rw [String.join_append, helement]

/-- Where the code stands in a page: what is around it does not depend on it. Style sheets can end
their element, unless the end tag is in small letters. Scripts cannot end or comment out theirs. -/
theorem document_holds_code (s : Shell) (body : String) : ∃ before between, ∀ css js,
    { s with css, inlineScript := js }.document body =
        before ++ styleElement css ++ between ++ scriptElement js ++ "</body>\n</html>\n" ∧
      (HoldsWord "</style" (escapeStyle css) ↔
        ∃ w, w <:+: css.toList ∧ w.map Char.toLower = "</style".toList ∧ w ≠ "</style".toList) ∧
      ¬HoldsWord "</script" (escapeScript js) ∧ ¬"<!--".toList <:+: (escapeScript js).toList := by
  refine ⟨"<!DOCTYPE html>\n<html lang=\"" ++ Text.escapeHtml s.lang ++ "\">\n<head>\n" ++
      String.join { s with css := "" }.head,
    "</head>\n<body>\n" ++ body ++ (if Text.endsWith body "\n" then "" else "\n") ++
      String.join { s with inlineScript := "" }.scriptElements, fun css js => ⟨?_,
    holdsWord_escapeStyle, not_holdsWord_escapeScript js, not_infix_escapeScript js⟩⟩
  have hhead : { s with css := "", inlineScript := js }.head = { s with css := "" }.head := rfl
  have hscripts : { s with css, inlineScript := "" }.scriptElements =
      { s with inlineScript := "" }.scriptElements := rfl
  unfold document
  rw [join_head, join_scriptElements]
  simp only [hhead, hscripts, String.append_assoc]

/-- An end tag in capital letters gets into the page as it is. -/
theorem document_lets_style_out :
    let s : Shell := ⟨"en", "T", false, none, [], "</STYLE>", [], ""⟩
    (∃ before after, s.document "" = before ++ "<style>\n</STYLE>\n</style>\n" ++ after) ∧
      escapeStyle s.css = "</STYLE>" ∧ HoldsWord "</style" (escapeStyle s.css) := by
  intro s
  refine ⟨⟨"<!DOCTYPE html>\n<html lang=\"en\">\n<head>\n" ++
      String.join { s with css := "" }.head, "</head>\n<body>\n\n</body>\n</html>\n", ?_⟩, ?_, ?_⟩
  all_goals decide +kernel

end Shell

end PageCompiler
