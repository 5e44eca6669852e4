import Mathlib
import PageCompiler.Text.Html
import PageCompiler.Proofs.Blanks

/-!
Characters that are written as references are read as themselves. Texts one behind the other are
read each by itself, unless a reference begins in one of them and ends behind it.
-/

namespace PageCompiler.Text

/-- What is written for a character is read as this character, whatever comes behind it. -/
theorem unescapeChars_escapeHtmlChar (c : Char) (cs : List Char) :
    unescapeChars (escapeHtmlChar c ++ cs) = c :: unescapeChars cs := by
  unfold escapeHtmlChar
  split
  · simp [unescapeChars, reference?]
  · simp [unescapeChars, reference?]
  · simp [unescapeChars, reference?]
  · simp [unescapeChars, reference?]
  · have h : reference? ("#39;".toList ++ cs) = some (some '\'', 4) := by
      simp [reference?, digitsToSemicolon?, Char.isDigit]
      decide
    have hs : "&#39;".toList ++ cs = '&' :: ("#39;".toList ++ cs) := rfl
    rw [hs, unescapeChars, h]
    rfl
  · next h _ _ _ _ =>
    rw [List.singleton_append, unescapeChars, if_neg h]

theorem unescapeChars_flatMap_append (cs u : List Char) :
    unescapeChars (cs.flatMap escapeHtmlChar ++ u) = cs ++ unescapeChars u := by
  induction cs with
  | nil => rfl
  | cons c cs ih =>
    rw [List.flatMap_cons, List.append_assoc, unescapeChars_escapeHtmlChar, ih, List.cons_append]

theorem unescapeChars_flatMap (cs : List Char) :
    unescapeChars (cs.flatMap escapeHtmlChar) = cs := by
  simpa [unescapeChars] using unescapeChars_flatMap_append cs []

theorem unescapeHtml_escapeHtml (s : String) : unescapeHtml (escapeHtml s) = s := by
  rw [unescapeHtml, escapeHtml, String.toList_ofList, unescapeChars_flatMap, String.ofList_toList]

theorem digitsToSemicolon?_eq_some {isDigit : Char → Bool} (hs : isDigit ';' = false)
    {cs digits : List Char} : digitsToSemicolon? isDigit cs = some digits ↔
      digits ≠ [] ∧ (∀ c ∈ digits, isDigit c) ∧ ∃ rest, cs = digits ++ ';' :: rest := by
  constructor
  · intro h
    simp only [digitsToSemicolon?, Option.ite_none_right_eq_some, Bool.and_eq_true,
      Bool.not_eq_true', List.isEmpty_eq_false_iff, decide_eq_true_eq, Option.some.injEq] at h
    obtain ⟨⟨hne, hsemicolon⟩, rfl⟩ := h
    obtain ⟨rest, hrest⟩ := List.head?_eq_some_iff.1 hsemicolon
    refine ⟨hne, fun c => List.mem_takeWhile_imp, rest, ?_⟩
    rw [← hrest]
    exact (List.prefix_iff_eq_append.1 (List.takeWhile_prefix isDigit)).symm
  · rintro ⟨hne, hdigits, rest, rfl⟩
    have htake : (digits ++ ';' :: rest).takeWhile isDigit = digits :=
      takeWhile_append_of_head hdigits (by simp [hs])
    simp [digitsToSemicolon?, htake, hne]

/-- A reference ends with the first semicolon, and what comes behind it does not matter. -/
theorem reference?_ends {cs : List Char} {o : Option Char} {n : Nat}
    (h : reference? cs = some (o, n)) :
    ∃ body rest, cs = body ++ ';' :: rest ∧ n = body.length + 1 ∧ '&' ∉ body ∧
      ∀ u, reference? (body ++ ';' :: u) = some (o, n) := by
  revert h
  fun_cases reference? cs with
  | case1 cs =>
    intro h
    obtain ⟨digits, hd, heq⟩ := Option.map_eq_some_iff.1 h
    have hex : (hexDigitValue? ';').isSome = false := rfl
    obtain ⟨hne, hdigits, rest, rfl⟩ := (digitsToSemicolon?_eq_some hex).1 hd
    obtain ⟨rfl, rfl⟩ := Prod.mk.inj heq
    refine ⟨'#' :: 'x' :: digits, rest, rfl, rfl, ?_, fun u => ?_⟩
    · have hamp : '&' ∉ digits := fun hmem => absurd (hdigits _ hmem) (by decide)
      simpa using hamp
    · have hread := (digitsToSemicolon?_eq_some hex).2 ⟨hne, hdigits, u, rfl⟩
      simp [reference?, hread]
  | case2 cs hx =>
    intro h
    obtain ⟨digits, hd, heq⟩ := Option.map_eq_some_iff.1 h
    have hdec : Char.isDigit ';' = false := rfl
    obtain ⟨hne, hdigits, rest, rfl⟩ := (digitsToSemicolon?_eq_some hdec).1 hd
    obtain ⟨rfl, rfl⟩ := Prod.mk.inj heq
    refine ⟨'#' :: digits, rest, rfl, rfl, ?_, fun u => ?_⟩
    · have hamp : '&' ∉ digits := fun hmem => absurd (hdigits _ hmem) (by decide)
      simpa using hamp
    · have hread := (digitsToSemicolon?_eq_some hdec).2 ⟨hne, hdigits, u, rfl⟩
      cases digits with
      | nil => exact absurd rfl hne
      | cons d ds =>
        have hd : d ≠ 'x' := by
          rintro rfl
          exact absurd (hdigits _ List.mem_cons_self) (by decide)
        simp at hread
        simp [reference?, hd, hread]
  | case3 cs => rintro ⟨⟩; exact ⟨"amp".toList, cs, rfl, rfl, by decide, fun _ => rfl⟩
  | case4 cs => rintro ⟨⟩; exact ⟨"lt".toList, cs, rfl, rfl, by decide, fun _ => rfl⟩
  | case5 cs => rintro ⟨⟩; exact ⟨"gt".toList, cs, rfl, rfl, by decide, fun _ => rfl⟩
  | case6 cs => rintro ⟨⟩; exact ⟨"quot".toList, cs, rfl, rfl, by decide, fun _ => rfl⟩
  | case7 cs => rintro ⟨⟩; exact ⟨"apos".toList, cs, rfl, rfl, by decide, fun _ => rfl⟩
  | case8 => rintro ⟨⟩

theorem reference?_append {cs : List Char} {r : Option Char × Nat} (h : reference? cs = some r)
    (u : List Char) : reference? (cs ++ u) = some r ∧ r.2 ≤ cs.length := by
  obtain ⟨o, n⟩ := r
  obtain ⟨body, rest, rfl, rfl, -, hany⟩ := reference?_ends h
  refine ⟨?_, by simp⟩
  rw [List.append_assoc, List.cons_append]
  exact hany _

/-- A reference that is not whole in `cs` takes all of it, and more. -/
theorem reference?_across {cs u : List Char} {o : Option Char} {n : Nat}
    (hcs : reference? cs = none) (h : reference? (cs ++ u) = some (o, n)) :
    ∃ taken rest, u = taken ++ rest ∧ n = (cs ++ taken).length ∧ cs.length < n ∧
      '&' ∉ cs ++ taken := by
  obtain ⟨body, rest, hsplit, rfl, hamp, hany⟩ := reference?_ends h
  have hnot : ¬body ++ [';'] <+: cs := by
    rintro ⟨more, rfl⟩
    rw [List.append_assoc, List.singleton_append, hany] at hcs
    cases hcs
  have hwhole : body ++ [';'] <+: cs ++ u := ⟨rest, by simp [hsplit]⟩
  have hlt : cs.length < body.length + 1 := by
    by_contra hle
    exact hnot (List.prefix_of_prefix_length_le hwhole (List.prefix_append cs u)
      (by simpa using hle))
  obtain ⟨taken, htaken⟩ : cs <+: body ++ [';'] :=
    List.prefix_of_prefix_length_le (List.prefix_append cs u) hwhole (by simpa using hlt.le)
  refine ⟨taken, rest, ?_, ?_, hlt, ?_⟩
  · rw [List.append_cons, ← htaken, List.append_assoc] at hsplit
    exact List.append_cancel_left hsplit
  · simp [htaken]
  · simpa [htaken] using hamp

/-- A reference begins in `t` and ends behind it, where `u` follows. -/
def RunsOn (t u : List Char) : Prop :=
  ∃ w c n, '&' :: w <:+ t ∧ reference? (w ++ u) = some (some c, n) ∧ w.length < n

theorem cons_suffix_of_append {c : Char} {cs ds w : List Char} (hc : c ∉ cs)
    (h : c :: w <:+ cs ++ ds) : c :: w <:+ ds := by
  obtain ⟨before, hsplit⟩ := h
  obtain ⟨more, rfl, hds⟩ | ⟨more, -, hds⟩ := List.append_eq_append_iff.1 hsplit
  · cases more with
    | nil => exact ⟨[], hds⟩
    | cons d more =>
      obtain ⟨rfl, -⟩ := List.cons.inj hds
      exact absurd (by simp) hc
  · exact ⟨more, hds.symm⟩

section RunsOn

variable {c : Char} {t u : List Char}

theorem not_runsOn_nil : ¬RunsOn [] u := by
  rintro ⟨w, c, n, hw, -⟩
  cases List.suffix_nil.1 hw

theorem RunsOn.of_suffix {v : List Char} (h : RunsOn v u) (hv : v <:+ t) : RunsOn t u := by
  obtain ⟨w, c, n, hw, href⟩ := h
  exact ⟨w, c, n, hw.trans hv, href⟩

theorem runsOn_cons_of_ne (hc : c ≠ '&') : RunsOn (c :: t) u ↔ RunsOn t u := by
  simp only [RunsOn, List.suffix_cons_iff, List.cons.injEq, Ne.symm hc, false_and, false_or]

/-- A reference that is whole in the text is passed over. -/
theorem runsOn_of_reference? {o : Option Char} {n : Nat} (h : reference? t = some (o, n)) :
    RunsOn ('&' :: t) u ↔ RunsOn (t.drop n) u := by
  refine ⟨?_, fun hr => hr.of_suffix ((List.drop_suffix n t).trans (List.suffix_cons _ _))⟩
  rintro ⟨w, c, m, hw, href, hlt⟩
  refine ⟨w, c, m, ?_, href, hlt⟩
  obtain hw | hw := List.suffix_cons_iff.1 hw
  · obtain ⟨-, rfl⟩ := List.cons.inj hw
    obtain ⟨hsame, hle⟩ := reference?_append h u
    cases hsame.symm.trans href
    exact absurd hlt (Nat.not_lt.2 hle)
  · obtain ⟨body, rest, rfl, rfl, hamp, -⟩ := reference?_ends h
    rw [List.append_cons] at hw
    have hamp : '&' ∉ body ++ [';'] := by simpa using hamp
    simpa using cons_suffix_of_append hamp hw

theorem runsOn_of_no_reference? (h : reference? t = none) :
    RunsOn ('&' :: t) u ↔ (∃ c n, reference? (t ++ u) = some (some c, n)) ∨ RunsOn t u := by
  constructor
  · rintro ⟨w, c, n, hw, href, hlt⟩
    obtain hw | hw := List.suffix_cons_iff.1 hw
    · obtain ⟨-, rfl⟩ := List.cons.inj hw
      exact .inl ⟨c, n, href⟩
    · exact .inr ⟨w, c, n, hw, href, hlt⟩
  · rintro (⟨c, n, href⟩ | hr)
    · obtain ⟨-, -, -, -, hlt, -⟩ := reference?_across h href
      exact ⟨t, c, n, List.suffix_rfl, href, hlt⟩
    · exact hr.of_suffix (List.suffix_cons _ _)

theorem not_runsOn_of_notMem (h : '&' ∉ t) : ¬RunsOn t u := by
  rintro ⟨w, c, n, hw, -⟩
  exact h (hw.subset List.mem_cons_self)

theorem unescapeChars_append_of_notMem (h : '&' ∉ t) (u : List Char) :
    unescapeChars (t ++ u) = t ++ unescapeChars u := by
  induction t with
  | nil => rfl
  | cons c t ih =>
    rw [List.mem_cons, not_or] at h
    rw [List.cons_append, unescapeChars, if_neg (Ne.symm h.1), ih h.2, List.cons_append]

theorem unescapeChars_of_notMem (h : '&' ∉ t) : unescapeChars t = t := by
  simpa [unescapeChars] using unescapeChars_append_of_notMem h []

/-- A reference that runs on makes one character of several; else each text is read by itself. -/
theorem unescapeChars_append_cases (t u : List Char) :
    RunsOn t u ∧
        (unescapeChars (t ++ u)).length < (unescapeChars t ++ unescapeChars u).length ∨
      ¬RunsOn t u ∧ unescapeChars (t ++ u) = unescapeChars t ++ unescapeChars u := by
  fun_induction unescapeChars t with
  | case1 => exact .inr ⟨not_runsOn_nil, rfl⟩
  | case2 t d n href ih =>
    obtain ⟨hwhole, hle⟩ := reference?_append href u
    rw [runsOn_of_reference? href, List.cons_append, unescapeChars, if_pos rfl, hwhole]
    dsimp only
    rw [List.drop_append_of_le_length hle, List.cons_append]
    exact ih.imp (And.imp_right Nat.succ_lt_succ) (And.imp_right (congrArg _))
  | case3 t n href ih =>
    obtain ⟨hwhole, hle⟩ := reference?_append href u
    rw [runsOn_of_reference? href, List.cons_append, unescapeChars, if_pos rfl, hwhole]
    dsimp only
    rw [List.drop_append_of_le_length hle, List.take_append_of_le_length hle, List.append_assoc]
    refine ih.imp (And.imp_right fun h => ?_) (And.imp_right (congrArg _))
    simp only [List.length_append] at h ⊢
    omega
  | case4 t href ih =>
    rw [runsOn_of_no_reference? href, List.cons_append, unescapeChars, if_pos rfl]
    cases hboth : reference? (t ++ u) with
    | none =>
      simp only [reduceCtorEq, exists_const, false_or, List.cons_append]
      exact ih.imp (And.imp_right Nat.succ_lt_succ) (And.imp_right (congrArg _))
    | some r =>
      obtain ⟨o, n⟩ := r
      obtain ⟨taken, rest, rfl, rfl, hlt, hamp⟩ := reference?_across href hboth
      obtain ⟨ht, htaken⟩ := not_or.1 (mt List.mem_append.2 hamp)
      rw [unescapeChars_of_notMem ht, unescapeChars_append_of_notMem htaken, ← List.append_assoc]
      cases o with
      | none =>
        refine .inr ⟨by simpa using not_runsOn_of_notMem ht, ?_⟩
        dsimp only
        rw [List.take_left, List.drop_left]
        simp
      | some d =>
        refine .inl ⟨.inl ⟨_, _, rfl⟩, ?_⟩
        dsimp only
        rw [List.drop_left]
        simp only [List.length_cons, List.length_append] at hlt ⊢
        omega
  | case5 c t hc ih =>
    rw [runsOn_cons_of_ne hc, List.cons_append, unescapeChars, if_neg hc, List.cons_append]
    exact ih.imp (And.imp_right Nat.succ_lt_succ) (And.imp_right (congrArg _))

theorem unescapeChars_append_iff (t u : List Char) :
    unescapeChars (t ++ u) = unescapeChars t ++ unescapeChars u ↔ ¬RunsOn t u := by
  obtain ⟨hr, hlt⟩ | ⟨hr, heq⟩ := unescapeChars_append_cases t u
  · exact iff_of_false (fun heq => hlt.ne (congrArg _ heq)) (not_not.2 hr)
  · exact iff_of_true heq hr

theorem not_runsOn_escaped (cs u : List Char) : ¬RunsOn (cs.flatMap escapeHtmlChar) u := by
  rw [← unescapeChars_append_iff, unescapeChars_flatMap_append, unescapeChars_flatMap]

theorem length_unescapeChars_append_le (t u : List Char) :
    (unescapeChars (t ++ u)).length ≤ (unescapeChars t ++ unescapeChars u).length := by
  obtain ⟨-, hlt⟩ | ⟨-, heq⟩ := unescapeChars_append_cases t u
  · exact hlt.le
  · exact (congrArg _ heq).le

end RunsOn

section Pieces

variable {α : Type} (text : α → List Char)

theorem length_unescapeChars_pieces_le (as : List α) :
    (unescapeChars (as.flatMap text)).length ≤
      (as.flatMap fun a => unescapeChars (text a)).length := by
  induction as with
  | nil => simp [unescapeChars]
  | cons a as ih =>
    rw [List.flatMap_cons, List.flatMap_cons]
    refine (length_unescapeChars_append_le _ _).trans ?_
    simpa using ih

/-- Texts are read piece by piece if and only if none of them runs on into those behind it. -/
theorem unescapeChars_pieces_iff (as : List α) :
    unescapeChars (as.flatMap text) = (as.flatMap fun a => unescapeChars (text a)) ↔
      ∀ a rest, a :: rest <:+ as → ¬RunsOn (text a) (rest.flatMap text) := by
  induction as with
  | nil => simp [unescapeChars]
  | cons a as ih =>
    simp only [List.suffix_cons_iff, List.cons.injEq, or_imp, forall_and, and_imp,
      List.flatMap_cons, ← ih]
    obtain ⟨hr, hlt⟩ | ⟨hr, heq⟩ := unescapeChars_append_cases (text a) (as.flatMap text)
    · have hle := length_unescapeChars_pieces_le text as
      refine iff_of_false (fun heq => ?_) fun h => h.1 a as rfl rfl hr
      rw [heq] at hlt
      simp only [List.length_append] at hlt
      omega
    · rw [heq, List.append_cancel_left_eq]
      refine ⟨fun h => ⟨?_, h⟩, fun h => h.2⟩
      rintro _ _ rfl rfl
      exact hr

end Pieces

section Escaped

theorem notMem_escapeHtmlChar (c : Char) :
    ∀ d ∈ escapeHtmlChar c, d ∉ ['<', '>', '"', '\''] := by
  unfold escapeHtmlChar
  split
  all_goals simp_all

@[simp] theorem escapeHtml_append (s t : String) :
    escapeHtml (s ++ t) = escapeHtml s ++ escapeHtml t := by
  simp [escapeHtml]

/-- Text that is escaped is read back, whatever stands behind it; texts are escaped piece by piece;
and nothing escaped begins or ends a tag or a value between quotes. -/
theorem escapeHtml_stands_for (s t : String) :
    unescapeHtml (escapeHtml s) = s ∧
      unescapeHtml (escapeHtml s ++ t) = s ++ unescapeHtml t ∧
      escapeHtml (s ++ t) = escapeHtml s ++ escapeHtml t ∧
      ∀ c ∈ (escapeHtml s).toList, c ∉ ['<', '>', '"', '\''] := by
  refine ⟨unescapeHtml_escapeHtml s, ?_, escapeHtml_append s t, ?_⟩
  · simp [unescapeHtml, escapeHtml, unescapeChars_flatMap_append]
  · intro c hc
    rw [escapeHtml, String.toList_ofList] at hc
    obtain ⟨d, -, hd⟩ := List.mem_flatMap.1 hc
    exact notMem_escapeHtmlChar d c hd

/-- A text that looks escaped already, and ends in the middle of a reference. -/
example : escapeHtml "&#38;lt;&am" = "&amp;#38;lt;&amp;am" := by decide

end Escaped

end PageCompiler.Text
