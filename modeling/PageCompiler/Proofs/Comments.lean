import PageCompiler.Proofs.FirstNodes
import PageCompiler.Proofs.Fragment
import PageCompiler.Template

/-!
Rendered comments. Each two hyphens in a comment are kept apart, from the left and without overlap,
so that the last one of an odd run stays next to the one in front of it. Main statement: a comment
is read as it was rendered exactly if no `>` stands behind such a run.
-/

namespace PageCompiler.Markup

/-- The text of a comment, with a space between each two hyphens. -/
def spread : List Char → List Char
  | '-' :: '-' :: cs => '-' :: ' ' :: '-' :: spread cs
  | c :: cs => c :: spread cs
  | [] => []

/-- An odd number of hyphens, three at least, with a `>` behind them and no hyphen in front. -/
def HoldsOddRun (cs : List Char) : Prop :=
  ∃ before k rest, cs = before ++ (List.replicate (2 * k + 3) '-' ++ '>' :: rest) ∧
    before.getLast? ≠ some '-'

section Runs

variable {c : Char} {cs : List Char}

theorem spread_eq (cs : List Char) :
    spread cs = Text.replaceAll ['-', '-'] ['-', ' ', '-'] cs := by
  have hne : ['-', '-'] ≠ [] := List.cons_ne_nil _ _
  fun_induction spread cs with
  | case1 cs ih =>
    rw [ih]
    exact (Text.replaceAll_append hne ['-', ' ', '-'] cs).symm
  | case2 c cs h ih =>
    rw [ih]
    refine (Text.replaceAll_cons hne _ ?_).symm
    rintro ⟨ds, hds⟩
    obtain ⟨rfl, rfl⟩ := List.cons.inj hds
    exact h ds rfl rfl
  | case3 => exact (Text.replaceAll_of_not_isInfix _ (by decide)).symm

/-- A hyphen in front of `>` is the last of its run. -/
theorem hyphen_prefix_spread (cs : List Char) :
    ['-', '>'] <+: spread cs ↔ ['-', '>'] <+: cs := by
  fun_cases spread cs with
  | case1 cs => simp
  | case2 c cs h =>
    rw [List.cons_prefix_cons, List.cons_prefix_cons, and_congr_right]
    rintro rfl
    fun_cases spread cs with
    | case1 cs => exact absurd rfl (h _ rfl)
    | case2 d cs h => simp
    | case3 => rfl
  | case3 => rfl

theorem holdsOddRun_cons (h : c = '-' → cs.head? ≠ some '-') :
    HoldsOddRun (c :: cs) ↔ HoldsOddRun cs := by
  constructor
  · rintro ⟨before, k, rest, hcs, hbefore⟩
    cases before with
    | nil =>
      -- The run would begin with `c`, and go on in `cs`.
      obtain ⟨rfl, rfl⟩ := List.cons.inj hcs
      exact absurd rfl (h rfl)
    | cons d before =>
      obtain ⟨rfl, rfl⟩ := List.cons.inj hcs
      refine ⟨before, k, rest, rfl, fun hlast => hbefore ?_⟩
      rw [List.getLast?_cons, hlast]
      rfl
  · rintro ⟨before, k, rest, rfl, hbefore⟩
    refine ⟨c :: before, k, rest, rfl, fun hlast => ?_⟩
    cases before with
    | nil =>
      obtain rfl : c = '-' := by simpa using hlast
      exact h rfl rfl
    | cons d before => exact hbefore (by rwa [List.getLast?_cons_cons] at hlast)

/-- A pair in front lengthens the run behind it, and makes one of a single hyphen. -/
theorem holdsOddRun_pair (cs : List Char) :
    HoldsOddRun ('-' :: '-' :: cs) ↔ ['-', '>'] <+: cs ∨ HoldsOddRun cs := by
  constructor
  · rintro ⟨before, k, rest, hcs, hbefore⟩
    match before with
    | [] =>
      obtain rfl := (List.cons.inj (List.cons.inj hcs).2).2
      cases k with
      | zero => exact .inl ⟨rest, rfl⟩
      | succ k => exact .inr ⟨[], k, rest, rfl, nofun⟩
    | [d] =>
      obtain ⟨rfl, -⟩ := List.cons.inj hcs
      exact absurd rfl hbefore
    | d :: e :: before =>
      obtain rfl := (List.cons.inj (List.cons.inj hcs).2).2
      refine .inr ⟨before, k, rest, rfl, fun hlast => hbefore ?_⟩
      rw [List.getLast?_cons_cons, List.getLast?_cons, hlast]
      rfl
  · rintro (⟨rest, rfl⟩ | ⟨before, k, rest, rfl, hbefore⟩)
    · exact ⟨[], 0, rest, rfl, nofun⟩
    · cases before with
      | nil => exact ⟨[], k + 1, rest, rfl, nofun⟩
      | cons d before =>
        refine ⟨'-' :: '-' :: d :: before, k, rest, rfl, ?_⟩
        rwa [List.getLast?_cons_cons, List.getLast?_cons_cons]

/-- The end of a comment is left in its text exactly behind an odd run. -/
theorem commentEnd_infix_spread (cs : List Char) :
    ['-', '-', '>'] <:+: spread cs ↔ HoldsOddRun cs := by
  fun_induction spread cs with
  | case1 cs ih =>
    rw [holdsOddRun_pair, ← ih, ← hyphen_prefix_spread]
    simp [List.infix_cons_iff]
  | case2 c cs h ih =>
    have hhead (hc : c = '-') : cs.head? ≠ some '-' := fun hd =>
      (List.head?_eq_some_iff.1 hd).elim fun ds hds => h ds hc hds
    rw [holdsOddRun_cons hhead, ← ih, List.infix_cons_iff, List.cons_prefix_cons,
      hyphen_prefix_spread, or_iff_right]
    rintro ⟨rfl, ds, rfl⟩
    exact hhead rfl rfl
  | case3 =>
    refine iff_of_false (by decide) ?_
    rintro ⟨before, k, rest, hcs, -⟩
    simpa using congrArg List.length hcs

/-- What stands around a text adds no run to it. -/
theorem holdsOddRun_between {before : List Char} (hb : '-' ∉ before) (hc : c ≠ '>') :
    HoldsOddRun (before ++ (cs ++ [c])) ↔ HoldsOddRun cs := by
  induction before with
  | cons d before ih =>
    rw [List.mem_cons, not_or] at hb
    rw [List.cons_append, holdsOddRun_cons fun hd => absurd hd.symm hb.1, ih hb.2]
  | nil =>
    constructor
    · rintro ⟨before, k, rest, hcs, hbefore⟩
      obtain rfl | ⟨rest, d, rfl⟩ := List.eq_nil_or_concat rest
      · have hlast := congrArg List.getLast? hcs
        simp [List.getLast?_append] at hlast
        exact absurd hlast hc
      · have hcs : cs ++ [c] =
            before ++ (List.replicate (2 * k + 3) '-' ++ '>' :: rest) ++ [d] := by
          rw [List.nil_append] at hcs
          simp [hcs]
        obtain ⟨rfl, -⟩ := List.append_inj' hcs rfl
        exact ⟨before, k, rest, rfl, hbefore⟩
    · rintro ⟨before, k, rest, rfl, hbefore⟩
      exact ⟨before, k, rest ++ [c], by simp, hbefore⟩

end Runs

section Comments

theorem toList_render_comment (value : String) (l : Location) :
    (render (.comment value l)).toList =
      '<' :: '!' :: '-' :: '-' :: ((Text.replaced "--" "- -" value).toList ++ ['-', '-', '>']) := by
  simp [render]

/-- A comment that holds its own end is read as a shorter one. -/
theorem scan_comment_infix {s : String} (h : ['-', '-', '>'] <:+: s.toList) (file : String) :
    ∃ t l xs, t ≠ s ∧
      (scan (.ofList ('<' :: '!' :: '-' :: '-' :: (s.toList ++ ['-', '-', '>']))) file).value =
        [⟨.comment t, l⟩] ++ xs := by
  obtain ⟨before, rest, hcut⟩ : ∃ before rest,
      Text.cutAt? ['-', '-', '>'] s.toList = some (before, rest) := by
    cases hcut : Text.cutAt? ['-', '-', '>'] s.toList with
    | none => exact absurd h (Text.cutAt?_eq_none_iff.1 hcut)
    | some r => exact ⟨r.1, r.2, rfl⟩
  have hs := Text.eq_of_cutAt? hcut
  have hbefore : ¬['-', '-', '>'] <:+: (String.ofList before).toList := by
    rw [String.toList_ofList]
    exact Text.not_infix_of_cutAt? (List.cons_ne_nil _ _) hcut
  obtain ⟨l, hscans⟩ := scans_comment file .start (rest ++ ['-', '-', '>']) hbefore
  refine ⟨.ofList before, .start, joinText (steps file l (rest ++ ['-', '-', '>'])).value, ?_, ?_⟩
  · rintro rfl
    exact hbefore h
  · rw [Scans, String.toList_ofList] at hscans
    simp only [List.cons_append, List.append_assoc, List.nil_append] at hscans
    simp only [scan, String.toList_ofList, hs, List.cons_append, List.append_assoc,
      List.nil_append, hscans, Reported.value_map]
    exact joinText_cons fun hx => Bool.noConfusion hx

/-- A comment ends where it was made to end, unless an odd run of hyphens is followed by `>`. -/
theorem parse_render_comment_iff (value file : String) (l : Location) :
    parse (render (.comment value l)) file =
        pure [.comment (Text.replaced "--" "- -" value) .start] ↔
      ¬HoldsOddRun value.toList := by
  have hrender := toList_render_comment value l
  have hend : ['-', '-', '>'] <:+: (Text.replaced "--" "- -" value).toList ↔
      HoldsOddRun value.toList := by
    rw [Text.replaced, String.toList_ofList, ← commentEnd_infix_spread, spread_eq]
    rfl
  rw [← hend]
  generalize Text.replaced "--" "- -" value = s at *
  constructor
  · intro hparse h
    obtain ⟨t, l', xs, hne, hscan⟩ := scan_comment_infix h file
    rw [← hrender, String.ofList_toList] at hscan
    have hfirst := prefix_parse hscan (.comment .nil)
    rw [hparse, Reported.value_pure, List.cons_prefix_cons, Node.comment.injEq] at hfirst
    exact hne hfirst.1.1
  · intro h
    obtain ⟨l', hscans⟩ := scans_comment file .start [] h
    rw [← hrender] at hscans
    have hspells : Spells (joinText [⟨.comment s, .start⟩]) [.comment s .start] := .comment .nil
    exact parse_of_scans hspells hscans

/-- The name in a comment that stands for a directive decides whether the comment is whole. -/
theorem parse_render_marker_iff {before : String} (hb : '-' ∉ before.toList) (name file : String)
    (l : Location) :
    parse (render (.comment (before ++ name ++ " ") l)) file =
        pure [.comment (Text.replaced "--" "- -" (before ++ name ++ " ")) .start] ↔
      ¬HoldsOddRun name.toList := by
  rw [parse_render_comment_iff, String.toList_append, String.toList_append, List.append_assoc]
  exact not_congr (holdsOddRun_between hb (by decide))

/-- A comment is read as it was rendered unless an odd run of hyphens with a `>` behind it is in the
text; in the comments that stand for slots and layouts, unless one is in the name. -/
theorem parse_comment (file : String) :
    (∀ value l, parse (render (.comment value l)) file =
        pure [.comment (Text.replaced "--" "- -" value) .start] ↔ ¬HoldsOddRun value.toList) ∧
      ∀ name,
        (parse (render (Template.slotMarker (some name))) file =
            pure [.comment (Text.replaced "--" "- -" (" slot:" ++ name ++ " ")) .start] ↔
          ¬HoldsOddRun name.toList) ∧
        (parse (renderAll (Template.Directive.marker (.layout (some name)))) file =
            pure [.comment (Text.replaced "--" "- -" (" layout:" ++ name ++ " ")) .start] ↔
          ¬HoldsOddRun name.toList) := by
  refine ⟨fun value l => parse_render_comment_iff value file l, fun name => ⟨?_, ?_⟩⟩
  · exact parse_render_marker_iff (by decide) name file .unknown
  · rw [Template.Directive.marker, renderAll, renderAll, String.append_empty]
    exact parse_render_marker_iff (by decide) name file .unknown

/-- The name of a slot ends the comment in its place, and what is behind it leaves the comment. -/
theorem parse_slotMarker_element :
    let marker := Template.slotMarker (some "---><b>x</b>")
    render marker = "<!-- slot:- --><b>x</b> -->" ∧
      (parse (render marker) "page").value =
        [.comment " slot:- " .start,
          .element "b" [] [.text "x" ⟨1, 19⟩] false ⟨1, 16⟩, .text " -->" ⟨1, 24⟩] ∧
      ∀ s l, (parse (render marker) "page").value ≠ [.comment s l] := by
  intro marker
  have hrender : render marker = "<!-- slot:- --><b>x</b> -->" := by decide +kernel
  have hread : (parse (render marker) "page").value =
      [.comment " slot:- " .start,
        .element "b" [] [.text "x" ⟨1, 19⟩] false ⟨1, 16⟩, .text " -->" ⟨1, 24⟩] := by
    rw [hrender]
    with_unfolding_all rfl
  exact ⟨hrender, hread, fun s l h => by simp [hread] at h⟩

end Comments

end PageCompiler.Markup
