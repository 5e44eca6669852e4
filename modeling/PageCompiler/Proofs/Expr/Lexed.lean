import PageCompiler.Proofs.Expr.Lexeme

/-!
What can be said of a text just because it has tokens. Main statements: outside of quotes there
are the characters of names, numbers and marks only, every literal is closed, and blanks at the end
make no difference.
-/

namespace PageCompiler.Expr

open Text (isBlank)

namespace Token

def codeMarks : List Char := ['.', '-', '=', '!', '<', '>', '&', '|', '[', ']', '(', ')']

/-- A character that may stand outside of quotes. -/
def isCode (c : Char) : Bool := continuesName c || isBlank c || codeMarks.contains c

/-- Code and literals, one behind the other. -/
inductive Lexed : List Char → Prop
  | nil : Lexed []
  | code {c cs} : isCode c → Lexed cs → Lexed (c :: cs)
  | literal {quote text ds cs} : quote = '"' ∨ quote = '\'' →
    Text.Quoted unescape quote text ds → Lexed cs → Lexed (quote :: (ds ++ cs))

section Sound

variable {previous : Option Token} {c : Char} {cs ds : List Char} {t : Token} {width : Nat}

theorem Lexed.code_append (h : ∀ d ∈ ds, isCode d) (hcs : Lexed cs) : Lexed (ds ++ cs) := by
  induction ds with
  | nil => exact hcs
  | cons d ds ih =>
    rw [List.forall_mem_cons] at h
    exact .code h.1 (ih h.2)

theorem continuesName_of_startsName (h : startsName c) : continuesName c := by
  simp only [startsName, Bool.or_eq_true, decide_eq_true_eq] at h
  simp only [continuesName, Char.isAlphanum, Bool.or_eq_true, decide_eq_true_eq]
  tauto

theorem isCode_of_continuesName (h : continuesName c) : isCode c := by simp [isCode, h]

theorem digitRun_prefix (cs : List Char) : digitRun cs <+: cs := by
  fun_induction digitRun cs with
  | case1 d cs hd ih => exact List.cons_prefix_cons.2 ⟨rfl, ih⟩
  | case2 => exact List.nil_prefix
  | case3 c cs _ hc ih => exact List.cons_prefix_cons.2 ⟨rfl, ih⟩
  | case4 => exact List.nil_prefix
  | case5 => exact List.nil_prefix

theorem isCode_of_isDigit (h : c.isDigit) : isCode c :=
  isCode_of_continuesName (by simp [continuesName, Char.isAlphanum, h])

theorem isCode_of_mem_digitRun : ∀ d ∈ digitRun cs, isCode d := by
  fun_induction digitRun cs with
  | case1 d cs hd ih => exact List.forall_mem_cons.2 ⟨by decide, ih⟩
  | case3 c cs _ hc ih => exact List.forall_mem_cons.2 ⟨isCode_of_isDigit hc, ih⟩
  | _ => exact List.forall_mem_nil _

/-- A backslash either ends the text or hides a character. -/
theorem ne_backslash (hlast : c = '\\' → cs = [] → False)
    (hescape : ∀ d ds, c = '\\' → cs = d :: ds → False) : c ≠ '\\' := fun he => by
  cases cs with
  | nil => exact hlast he rfl
  | cons d ds => exact hescape d ds he rfl

theorem stringBody?_cons {quote : Char} (hc : c ≠ '\\') (cs : List Char) :
    stringBody? quote (c :: cs) =
      if c = quote then some ([], 1)
      else (stringBody? quote cs).map fun (text, width) => (c :: text, width + 1) := by
  rw [stringBody?.eq_def]
  split
  · next h => cases h
  · next h => exact absurd (List.cons.inj h).1 hc
  · next h => exact absurd (List.cons.inj h).1 hc
  · next h =>
    obtain ⟨rfl, rfl⟩ := List.cons.inj h
    split
    · rfl
    · cases stringBody? quote cs <;> rfl

/-- What is read up to a quote is the text of a literal. -/
theorem quoted_of_stringBody? {quote : Char} {text : List Char}
    (h : stringBody? quote cs = some (text, width)) :
    ∃ ds rest, cs = ds ++ rest ∧ ds.length = width ∧ Text.Quoted unescape quote text ds := by
  fun_induction stringBody? quote cs generalizing text width with
  | case1 => cases h
  | case2 => cases h
  | case3 c cs ih =>
    obtain ⟨⟨text, width⟩, hbody, he⟩ := Option.bind_eq_some_iff.1 h
    cases he
    obtain ⟨ds, rest, rfl, rfl, hquoted⟩ := ih hbody
    exact ⟨'\\' :: c :: ds, rest, rfl, rfl, .escape c hquoted⟩
  | case4 cs _ =>
    cases h
    exact ⟨[_], cs, rfl, rfl, .close⟩
  | case5 c cs hlast hescape hc ih =>
    have hslash : c ≠ '\\' := ne_backslash hlast hescape
    obtain ⟨⟨text, width⟩, hbody, he⟩ := Option.bind_eq_some_iff.1 h
    cases he
    obtain ⟨ds, rest, rfl, rfl, hquoted⟩ := ih hbody
    exact ⟨c :: ds, rest, rfl, rfl, .plain hc hslash hquoted⟩

theorem punctuation?_cases (h : punctuation? c cs = some (t, width)) :
    ∃ ds rest, cs = ds ++ rest ∧ ds.length = width ∧ ∀ d ∈ c :: ds, isCode d := by
  unfold punctuation? at h
  split at h
  all_goals cases h
  all_goals first
    | exact ⟨[], _, rfl, rfl, List.all_eq_true.1 rfl⟩
    | exact ⟨[_], _, rfl, rfl, List.all_eq_true.1 rfl⟩
    | exact ⟨[_, _], _, rfl, rfl, List.all_eq_true.1 rfl⟩

/-- A token is code, or a literal. -/
theorem next_cases (h : next previous c cs = .ok (t, width)) :
    ∃ ds rest, cs = ds ++ rest ∧ ds.length = width ∧
      ((∀ d ∈ c :: ds, isCode d) ∨
        (c = '"' ∨ c = '\'') ∧ ∃ text, Text.Quoted unescape c text ds) := by
  unfold next at h
  split at h
  · next hc =>
    cases h
    refine ⟨_, _, (List.takeWhile_append_dropWhile (p := continuesName)).symm, rfl,
      .inl (List.forall_mem_cons.2 ⟨?_, fun d hd => ?_⟩)⟩
    · exact isCode_of_continuesName (continuesName_of_startsName hc)
    · exact isCode_of_continuesName (List.mem_takeWhile_imp hd)
  split at h
  · next hc =>
    dsimp only at h
    split at h
    · cases h
      obtain ⟨rest, hrest⟩ := digitRun_prefix cs
      refine ⟨digitRun cs, rest, hrest.symm, rfl,
        .inl (List.forall_mem_cons.2 ⟨?_, isCode_of_mem_digitRun⟩)⟩
      simp only [startsNumber, Bool.or_eq_true, Bool.and_eq_true, decide_eq_true_eq] at hc
      obtain hdigit | ⟨⟨rfl, -⟩, -⟩ := hc
      · exact isCode_of_isDigit hdigit
      · decide
    · cases h
  split at h
  · next hc =>
    split at h
    · next text width' hbody =>
      cases h
      obtain ⟨ds, rest, hcs, hwidth, hquoted⟩ := quoted_of_stringBody? hbody
      exact ⟨ds, rest, hcs, hwidth, .inr ⟨hc, text, hquoted⟩⟩
    · cases h
  · split at h
    · next found hfound =>
      cases h
      obtain ⟨ds, rest, hcs, hwidth, hcode⟩ := punctuation?_cases hfound
      exact ⟨ds, rest, hcs, hwidth, .inl hcode⟩
    · cases h

theorem lexed_of_all {ts : List Token} (h : all previous cs = .ok ts) : Lexed cs := by
  fun_induction all previous cs generalizing ts with
  | case1 => exact .nil
  | case2 previous c cs hblank ih => exact .code (by simp [isCode, hblank]) (ih h)
  | case3 => cases h
  | case4 => cases h
  | case5 previous c cs hblank t width hnext rest hrest ih =>
    obtain ⟨ds, rest, rfl, rfl, hcases⟩ := next_cases hnext
    rw [List.drop_left] at ih hrest
    obtain hcode | ⟨hquote, text, hquoted⟩ := hcases
    · exact .code_append hcode (ih hrest)
    · exact .literal hquote hquoted (ih hrest)

end Sound

/-! ### Blanks at the end -/

section Blanks

variable {previous : Option Token} {c : Char} {cs q : List Char}

theorem head?_append_blanks {p : Char → Bool} (hp : ∀ c, isBlank c → p c = false)
    (hq : ∀ c ∈ q, isBlank c) : (cs ++ q).head?.any p = cs.head?.any p := by
  cases cs with
  | cons c cs => rfl
  | nil =>
    cases q with
    | nil => rfl
    | cons b q => exact hp b (hq b List.mem_cons_self)

theorem takeWhile_append_blanks {p : Char → Bool} (hp : ∀ c, isBlank c → p c = false)
    (hq : ∀ c ∈ q, isBlank c) : (cs ++ q).takeWhile p = cs.takeWhile p := by
  induction cs with
  | nil =>
    cases q with
    | nil => rfl
    | cons b q => exact List.takeWhile_cons_of_neg (by simp [hp b (hq b List.mem_cons_self)])
  | cons c cs ih => rw [List.cons_append, List.takeWhile_cons, List.takeWhile_cons, ih]

theorem digitRun_cons (c : Char) (cs : List Char) :
    digitRun (c :: cs) =
      if c = '.' then if cs.head?.any Char.isDigit then '.' :: digitRun cs else []
      else if c.isDigit then c :: digitRun cs else [] := by
  by_cases hc : c = '.'
  · subst hc
    cases cs with
    | nil => rfl
    | cons d cs => rw [digitRun, if_pos rfl]; rfl
  · rw [if_neg hc, digitRun.eq_def]
    split
    · next h => exact absurd (List.cons.inj h).1 hc
    · next h =>
      obtain ⟨rfl, rfl⟩ := List.cons.inj h
      rfl
    · next h => cases h

theorem isAlphanum_of_isBlank (h : isBlank c) : c.isAlphanum = false := by
  cases hc : c.isAlphanum with
  | false => rfl
  | true => exact absurd h (by simp [Text.isBlank_of_isAlphanum hc])

theorem isDigit_of_isBlank (h : isBlank c) : c.isDigit = false := by
  have halphanum := isAlphanum_of_isBlank h
  simp only [Char.isAlphanum, Bool.or_eq_false_iff] at halphanum
  exact halphanum.2

theorem continuesName_of_isBlank (h : isBlank c) : continuesName c = false := by
  have hmark (d : Char) (hd : isBlank d = false) : c ≠ d := by
    rintro rfl
    cases h.symm.trans hd
  simp [continuesName, isAlphanum_of_isBlank h, hmark '_' rfl, hmark '$' rfl]

theorem digitRun_append_blanks (hq : ∀ c ∈ q, isBlank c) : digitRun (cs ++ q) = digitRun cs := by
  induction cs with
  | nil =>
    cases q with
    | nil => rfl
    | cons b q =>
      have hb := hq b List.mem_cons_self
      have hpoint : b ≠ '.' := by
        rintro rfl
        cases hb
      rw [List.nil_append, digitRun_cons, if_neg hpoint, isDigit_of_isBlank hb]
      rfl
  | cons c cs ih =>
    rw [List.cons_append, digitRun_cons, digitRun_cons, ih,
      head?_append_blanks (fun _ => isDigit_of_isBlank) hq]

theorem stringBody?_of_notMem {quote : Char} (h : quote ∉ cs) : stringBody? quote cs = none := by
  cases hbody : stringBody? quote cs with
  | none => rfl
  | some body =>
    obtain ⟨ds, rest, rfl, -, hquoted⟩ := quoted_of_stringBody? hbody
    have hlast := List.mem_of_getLast? hquoted.getLast?_eq
    exact absurd (List.mem_append_left rest hlast) h

theorem stringBody?_append_blanks {quote : Char} (hquote : isBlank quote = false)
    (hq : ∀ c ∈ q, isBlank c) : stringBody? quote (cs ++ q) = stringBody? quote cs := by
  have hnone {q : List Char} (hq : ∀ c ∈ q, isBlank c) : stringBody? quote q = none :=
    stringBody?_of_notMem fun hm => by cases (hq quote hm).symm.trans hquote
  fun_induction stringBody? quote cs with
  | case1 => exact hnone hq
  | case2 =>
    cases q with
    | nil => rfl
    | cons b q => simp [stringBody?, hnone fun c hc => hq c (List.mem_cons_of_mem b hc)]
  | case3 c cs ih => simp [stringBody?, ih]
  | case4 cs hlast hescape =>
    rw [List.cons_append, stringBody?_cons (ne_backslash hlast hescape), if_pos rfl]
  | case5 c cs hlast hescape hc ih =>
    have hslash : c ≠ '\\' := ne_backslash hlast hescape
    rw [List.cons_append, stringBody?_cons hslash, if_neg hc, ih]
    cases stringBody? quote cs <;> rfl

theorem punctuation?_append_blanks (hq : ∀ c ∈ q, isBlank c) :
    punctuation? c (cs ++ q) = punctuation? c cs := by
  cases q with
  | nil => rw [List.append_nil]
  | cons b q =>
    have hb := hq b List.mem_cons_self
    have hmark (d : Char) (hd : isBlank d = false) : b ≠ d := by
      rintro rfl
      cases hb.symm.trans hd
    have heq := hmark '=' rfl
    have hand := hmark '&' rfl
    have hor := hmark '|' rfl
    match cs with
    | [] =>
      simp only [punctuation?]
      split <;> simp_all
    | [d] =>
      simp only [List.cons_append, List.nil_append, punctuation?]
      split <;> simp_all
    | d :: e :: cs =>
      obtain rfl | he := eq_or_ne e '='
      all_goals
        simp only [List.cons_append, punctuation?]
        split <;> simp_all <;> grind

theorem next_append_blanks (hq : ∀ c ∈ q, isBlank c) :
    next previous c (cs ++ q) = next previous c cs := by
  have hname : (cs ++ q).takeWhile continuesName = cs.takeWhile continuesName :=
    takeWhile_append_blanks (fun _ => continuesName_of_isBlank) hq
  have hnumber : startsNumber previous c (cs ++ q) = startsNumber previous c cs := by
    rw [startsNumber, startsNumber, head?_append_blanks (fun _ => isDigit_of_isBlank) hq]
  rw [next, next, hname, hnumber, digitRun_append_blanks hq, punctuation?_append_blanks hq]
  split
  · rfl
  split
  · rfl
  split
  · next hquote =>
    rw [stringBody?_append_blanks (by obtain rfl | rfl := hquote <;> rfl) hq]
  · rfl

/-- A token takes no character from behind the text. -/
theorem drop_append_of_next {t : Token} {width : Nat} (h : next previous c cs = .ok (t, width))
    (rest : List Char) : (cs ++ rest).drop width = cs.drop width ++ rest := by
  obtain ⟨ds, behind, rfl, rfl, -⟩ := next_cases h
  rw [List.append_assoc, List.drop_left, List.drop_left]

/-- Blanks at the end are passed over, also where the tokens in front of them are faulty. -/
theorem all_append_blanks (hq : ∀ c ∈ q, isBlank c) : all previous (cs ++ q) = all previous cs := by
  fun_induction all previous cs with
  | case1 previous =>
    have hblanks : all previous (q ++ []) = all previous [] := all_blanks hq []
    rwa [List.append_nil, all] at hblanks
  | case2 previous c cs hc ih => rw [List.cons_append, all, if_pos hc, ih]
  | case3 previous c cs hc e hnext =>
    rw [List.cons_append, all, if_neg hc, next_append_blanks hq, hnext]
  | case4 previous c cs hc t width hnext e hrest ih =>
    have hdrop := drop_append_of_next hnext q
    rw [List.cons_append, all, if_neg hc, next_append_blanks hq, hnext]
    simp only [hdrop, ih, hrest]
  | case5 previous c cs hc t width hnext rest hrest ih =>
    have hdrop := drop_append_of_next hnext q
    rw [List.cons_append, all, if_neg hc, next_append_blanks hq, hnext]
    simp only [hdrop, ih, hrest]

end Blanks

end Token

/-- Blanks around an expression make no difference, also where it is none. -/
theorem parse_trim (cs : List Char) : parse (.ofList (Text.trim cs)) = parse (.ofList cs) := by
  obtain ⟨p, q, hcs, hp, hq, -⟩ := Text.exists_trim cs
  have hall : Token.all none cs = Token.all none (Text.trim cs) := by
    nth_rewrite 1 [hcs]
    rw [Token.all_blanks hp, Token.all_append_blanks hq]
  rw [parse, parse, Text.trimmed, Text.trimmed, String.toList_ofList, String.toList_ofList,
    Text.trim_trim, hall]

end PageCompiler.Expr
