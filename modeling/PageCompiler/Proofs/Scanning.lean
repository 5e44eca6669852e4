import PageCompiler.Proofs.Blanks
import PageCompiler.Proofs.Canonical
import PageCompiler.Proofs.Report

/-!
How canonical nodes are scanned: what is written for them makes their tokens, whatever follows.
Only text needs that what follows begins with a tag or a comment.
-/

namespace PageCompiler.Markup

open Step (endsTagName endsAttributeName attributes? assigned? value?)

@[simp] theorem isBlank_space : Text.isBlank ' ' = true := by decide

@[simp] theorem isBlank_angle : Text.isBlank '>' = false := by decide

@[simp] theorem isBlank_equals : Text.isBlank '=' = false := by decide

@[simp] theorem isBlank_quote : Text.isBlank '"' = false := by decide

section Attributes

variable {offset width : Nat} {c : Char} {cs more rest : List Char} {as : List Attribute}

theorem attributes?_blank (h : Text.isBlank c) :
    attributes? offset (c :: cs) = attributes? (offset + 1) cs := by
  rw [attributes?, if_pos h]

theorem attributes?_end : attributes? offset ('>' :: cs) = some ([], false, offset + 1) := by
  rw [attributes?]
  rfl

theorem attributes?_name {value : Option RawValue} (hc : ¬endsAttributeName c)
    (hm : ∀ d ∈ more, ¬endsAttributeName d) (hr : rest.head?.all endsAttributeName)
    (ha : assigned? rest = some (value, width)) :
    attributes? offset (c :: (more ++ rest)) =
      (attributes? (offset + 1 + more.length + width) (rest.drop width)).map
        fun (found, x) => (⟨.ofList (c :: more), value, offset⟩ :: found, x) := by
  have hmore : (more ++ rest).takeWhile (fun c => !endsAttributeName c) = more := by
    refine Text.takeWhile_append_of_head (fun d hd => by simp [hm d hd]) ?_
    cases rest <;> simp_all
  have hends := hc
  simp only [endsAttributeName, Bool.or_eq_true, decide_eq_true_eq, not_or] at hends
  obtain ⟨⟨⟨⟨⟨hblank, -⟩, hangle⟩, hslash⟩, -⟩, -⟩ := hends
  rw [attributes?, if_neg hblank, if_neg hangle, if_neg (by simp [hslash]), if_neg hc]
  have hrest : (more ++ rest).drop more.length = rest := List.drop_left
  have hdrop : (more ++ rest).drop (more.length + width) = rest.drop width := by
    rw [← List.drop_drop, hrest]
  simp only [hmore, hrest, ha, hdrop]
  cases attributes? (offset + 1 + more.length + width) (rest.drop width) <;> rfl

/-- A name that is not followed by an equals sign has no value. -/
theorem assigned?_none (h : (cs.drop (cs.takeWhile Text.isBlank).length).head? ≠ some '=') :
    assigned? cs = some (none, 0) := by
  unfold assigned?
  dsimp only
  split
  · next heq => simp [heq] at h
  · rfl

/-- How an attribute's value is read. -/
def rawValue : AttributeValue → Option RawValue
  | .static text => some (.text text)
  | _ => none

theorem assigned?_static {text : List Char} (h : '"' ∉ text) :
    assigned? ('=' :: '"' :: (text ++ '"' :: rest)) =
      some (some (.text (.ofList text)), text.length + 3) := by
  have hcut : Text.cutAt? ['"'] (text ++ ('"' :: rest)) = some (text, rest) :=
    Text.cutAt?_append_of_notMem (List.not_mem_nil) fun hi => h (hi.subset List.mem_cons_self)
  simp [assigned?, value?, hcut]
  omega

/-- The attributes as they are found in a tag. -/
def Found (raw : List RawAttribute) (as : List Attribute) : Prop :=
  raw.map (fun r => (r.name, r.value)) = as.map fun a => (a.name, rawValue a.value)

/-- Behind an attribute stands the next one, or the end of the tag. -/
theorem renderAttributes_head (h : ∀ a ∈ as, a.IsPlain) (rest : List Char) :
    (∃ cs, (renderAttributes as).toList ++ '>' :: rest = '>' :: cs) ∨
    ∃ c cs, (renderAttributes as).toList ++ '>' :: rest = ' ' :: c :: cs ∧
      ¬endsAttributeName c := by
  cases as with
  | nil => exact .inl ⟨rest, rfl⟩
  | cons a as =>
    have ha := h a List.mem_cons_self
    obtain ⟨c, more, hname, hc, -⟩ := ha.exists_cons
    refine .inr ⟨c, ?_⟩
    simp [toList_renderAttributes_cons, toList_renderAttribute ha, hname, hc]

theorem assigned?_render (ha : v.IsPlain) (h : ∀ a ∈ as, a.IsPlain) (rest : List Char) :
    assigned? (valueChars v ++ ((renderAttributes as).toList ++ '>' :: rest)) =
      some (rawValue v, (valueChars v).length) := by
  have hnone : assigned? ((renderAttributes as).toList ++ '>' :: rest) = some (none, 0) := by
    obtain ⟨cs, hcs⟩ | ⟨c, cs, hcs, hc⟩ := renderAttributes_head h rest
    · exact assigned?_none (by simp [hcs])
    · simp only [endsAttributeName, Bool.or_eq_true, decide_eq_true_eq, not_or] at hc
      exact assigned?_none (by simp [hcs, hc])
  cases v with
  | bare => exact hnone
  | static text => simpa [valueChars, rawValue] using assigned?_static ha.1
  | interpolated parts => exact ha.elim
  | expression code => exact ha.elim

/-- The attributes of a tag are read as they are written. -/
theorem attributes?_render (h : ∀ a ∈ as, a.IsPlain) (offset : Nat) (rest : List Char) :
    ∃ found, attributes? offset ((renderAttributes as).toList ++ '>' :: rest) =
        some (found, false, offset + (renderAttributes as).toList.length + 1) ∧
      found.map (fun f => (f.name, f.value)) = as.map fun a => (a.name, rawValue a.value) := by
  induction as generalizing offset with
  | nil => exact ⟨[], attributes?_end, rfl⟩
  | cons a as ih =>
    obtain ⟨ha, has⟩ := List.forall_mem_cons.1 h
    obtain ⟨c, more, hname, hc, hm⟩ := ha.exists_cons
    obtain ⟨found, hf, hfound⟩ :=
      ih has (offset + 1 + 1 + more.length + (valueChars a.value).length)
    refine ⟨⟨a.name, rawValue a.value, offset + 1⟩ :: found, ?_, by simp [hfound]⟩
    rw [toList_renderAttributes_cons, toList_renderAttribute ha, hname]
    simp only [List.cons_append, List.append_assoc]
    rw [attributes?_blank isBlank_space,
      attributes?_name hc hm _ (assigned?_render ha.value has rest)]
    · simp only [List.drop_left, hf, Option.map_some, ← hname, String.ofList_toList]
      simp
      omega
    · obtain ⟨cs, hcs⟩ | ⟨c, cs, hcs, -⟩ := renderAttributes_head has rest <;>
      cases a.value <;> simp [valueChars, hcs, endsAttributeName]

end Attributes

section Tags

variable {tag : String} {as : List Attribute}

/-- Raw text is read up to the closing tag. -/
theorem rawText_closing (h : isRawText tag) {text : List Char}
    (ht : ¬closingMark tag <:+: text.map Char.toLower)
    (rest : List Char) : Step.rawText tag (text ++ (closing tag ++ rest)) = (text, true) := by
  have hlower : '<' ∉ '/' :: tag.toList.map Char.toLower := by
    obtain ⟨t, hmem, hlower⟩ := exists_rawTextTag h
    have hmark : ∀ t ∈ rawTextTags, '<' ∉ '/' :: t.toList.map Char.toLower := by decide +kernel
    exact hlower ▸ hmark t hmem
  have hmap : (text ++ (closing tag ++ rest)).map Char.toLower =
      text.map Char.toLower ++ ('<' :: '/' :: tag.toList.map Char.toLower ++
        ('>' :: rest).map Char.toLower) := by
    simp [closing]
  rw [Step.rawText, hmap, Text.cutAt?_append_of_notMem hlower ht]
  simp

theorem takeWhile_tagName (h : IsTagName tag) {rest : List Char}
    (hr : rest.head?.all endsTagName) :
    (tag.toList ++ rest).takeWhile (fun c => !endsTagName c) = tag.toList := by
  refine Text.takeWhile_append_of_head (fun c hc => by simp [h.chars c hc]) ?_
  cases rest <;> simp_all

/-- The name and the attributes of an opening tag are read as they are written. -/
theorem opening_read (ht : IsTagName tag) (ha : ∀ a ∈ as, a.IsPlain) (rest : List Char) :
    (opening tag as ++ rest).takeWhile (fun c => !endsTagName c) = tag.toList ∧
    ∃ found, attributes? (tag.toList.length + 1) ((opening tag as ++ rest).drop tag.toList.length) =
        some (found, false, (opening tag as).length + 1) ∧
      found.map (fun f => (f.name, f.value)) = as.map fun a => (a.name, rawValue a.value) := by
  have hcs : opening tag as ++ rest =
      tag.toList ++ ((renderAttributes as).toList ++ '>' :: rest) := by simp [opening]
  obtain ⟨found, hf, hfound⟩ := attributes?_render ha (tag.toList.length + 1) rest
  have hwidth : tag.toList.length + 1 + (renderAttributes as).toList.length + 1 =
      (opening tag as).length + 1 := by
    simp [opening]
    omega
  rw [hcs, List.drop_left]
  refine ⟨takeWhile_tagName ht ?_, found, hwidth ▸ hf, hfound⟩
  obtain ⟨cs, hcs⟩ | ⟨c, cs, hcs, -⟩ := renderAttributes_head ha rest <;> simp [hcs, endsTagName]

def rawAttributes (location : Location) (source : List Char) (found : List Step.Found) :
    List RawAttribute :=
  found.map fun f => ⟨f.name, f.value, location.after (source.take f.offset)⟩

theorem openTag?_opening (ht : IsTagName tag) (ha : ∀ a ∈ as, a.IsPlain)
    (hraw : ¬isRawText tag) (l : Location) (rest : List Char) :
    ∃ raw, Found raw as ∧ Step.openTag? l (opening tag as ++ rest) =
      some (.one (opening tag as).length (.openTag tag raw false)) := by
  obtain ⟨hname, found, hf, hfound⟩ := opening_read ht ha rest
  refine ⟨rawAttributes l ('<' :: (opening tag as ++ rest)) found, ?_, ?_⟩
  · rw [Found, ← hfound, rawAttributes, List.map_map]
    rfl
  · simp [Step.openTag?, hname, hf, hraw, rawAttributes, Step.one]

theorem openTag?_raw (ht : IsTagName tag) (ha : ∀ a ∈ as, a.IsPlain) (hraw : isRawText tag)
    {text : List Char}
    (hc : ¬closingMark tag <:+: text.map Char.toLower)
    (l : Location) (rest : List Char) :
    ∃ raw, Found raw as ∧ Step.openTag? l (opening tag as ++ (text ++ (closing tag ++ rest))) =
      some ⟨(opening tag as ++ text).length,
        (.openTag tag raw false, 0) ::
          if text.isEmpty then [] else [(.rawText (.ofList text), (opening tag as).length + 1)],
        none⟩ := by
  obtain ⟨hname, found, hf, hfound⟩ := opening_read ht ha (text ++ (closing tag ++ rest))
  refine ⟨rawAttributes l ('<' :: (opening tag as ++ (text ++ (closing tag ++ rest)))) found,
    ?_, ?_⟩
  · rw [Found, ← hfound, rawAttributes, List.map_map]
    rfl
  · simp [Step.openTag?, hname, hf, hraw, rawAttributes, rawText_closing hraw hc]

theorem trim_of_forall {cs : List Char} (h : ∀ c ∈ cs, ¬Text.isBlank c) : Text.trim cs = cs := by
  have drop (ds : List Char) (hd : ∀ c ∈ ds, ¬Text.isBlank c) : ds.dropWhile Text.isBlank = ds := by
    cases ds <;> simp_all
  rw [Text.trim, Text.trimStart, drop cs h, Text.trimEnd, Text.dropEndWhile,
    drop _ fun c hc => h c (List.mem_reverse.1 hc), List.reverse_reverse]

theorem next_letter {cs : List Char} (h : Step.startsWithLetter cs) (l : Location) :
    Step.next l '<' cs = (Step.openTag? l cs).getD (.plain '<' cs 0) := by
  cases cs with
  | nil => cases h
  | cons c cs =>
    have hbang : c ≠ '!' := by rintro rfl; cases h
    have hslash : c ≠ '/' := by rintro rfl; cases h
    simp [Step.next, hbang, hslash, h]

theorem next_opening (ht : IsTagName tag) (as : List Attribute) (l : Location)
    (rest : List Char) :
    Step.next l '<' (opening tag as ++ rest) =
      (Step.openTag? l (opening tag as ++ rest)).getD (.plain '<' (opening tag as ++ rest) 0) := by
  obtain ⟨c, cs, hc, hletter⟩ := ht.exists_cons
  refine next_letter ?_ l
  simpa [opening, hc, Step.startsWithLetter] using hletter

theorem next_closing (ht : IsTagName tag) (l : Location) (rest : List Char) :
    Step.next l '<' ('/' :: (tag.toList ++ '>' :: rest)) =
      .one (tag.toList.length + 2) (.closeTag tag) := by
  obtain ⟨c, cs, hc, hletter⟩ := ht.exists_cons
  have htake : (tag.toList ++ '>' :: rest).takeWhile (· != '>') = tag.toList := by
    refine Text.takeWhile_append_of_head (fun d hd => ?_) rfl
    have := ht.chars d hd
    simp_all [endsTagName]
  have hcode : codeOf tag.toList = tag := by
    rw [codeOf, trim_of_forall fun d hd => ?_, String.ofList_toList]
    have := ht.chars d hd
    simp_all [endsTagName]
  have hnext : Step.next l '<' ('/' :: (tag.toList ++ '>' :: rest)) =
      .closeTag (tag.toList ++ '>' :: rest) := by
    simp [Step.next, hc, Step.startsWithLetter, hletter]
  simp only [hnext, Step.closeTag, Step.upToAngle, htake, hcode]
  simp [Step.one]

theorem next_comment {s : List Char} (hs : ¬['-', '-', '>'] <:+: s) (l : Location)
    (rest : List Char) :
    Step.next l '<' ('!' :: '-' :: '-' :: (s ++ ('-' :: '-' :: '>' :: rest))) =
      .one (s.length + 6) (.comment (.ofList s)) := by
  have hcut : Text.cutAt? "-->".toList (s ++ ('-' :: '-' :: '>' :: rest)) = some (s, rest) :=
    Text.cutAt?_commentEnd hs
  have hnext : Step.next l '<' ('!' :: '-' :: '-' :: (s ++ ('-' :: '-' :: '>' :: rest))) =
      .comment (s ++ ('-' :: '-' :: '>' :: rest)) := rfl
  rw [hnext, Step.comment, hcut]

theorem next_text {c : Char} {cs rest : List Char} (hc : c ≠ '<' ∧ c ≠ '\x7b')
    (hcs : ∀ d ∈ cs, d ≠ '<' ∧ d ≠ '\x7b') (hr : ∀ d ∈ rest.head?, d = '<') (l : Location) :
    Step.next l c (cs ++ rest) = .one cs.length (.text (.ofList (c :: cs))) := by
  have htake : (cs ++ rest).takeWhile (fun c => c != '<' && c != '\x7b') = cs := by
    refine Text.takeWhile_append_of_head (fun d hd => by simp [hcs d hd]) ?_
    cases rest <;> simp_all
  have hnext : Step.next l c (cs ++ rest) = Step.next.text c (cs ++ rest) := by
    simp [Step.next, hc]
  rw [hnext, Step.next.text, htake, Step.plain, List.take_left]

end Tags

/-- In front of `rest`, the characters `cs` make the lexemes `xs`. -/
def Scans (file : String) (l : Location) (cs rest : List Char) (xs : List Lexeme)
    (l' : Location) : Prop :=
  steps file l (cs ++ rest) = (xs ++ ·) <$> steps file l' rest

section Scans

variable {file : String} {l l' l'' : Location} {c : Char} {cs ds rest : List Char}
  {xs ys : List Lexeme} {tag : String} {as : List Attribute}

theorem Scans.append (h : Scans file l cs (ds ++ rest) xs l') (h' : Scans file l' ds rest ys l'') :
    Scans file l (cs ++ ds) rest (xs ++ ys) l'' := by
  unfold Scans at h h' ⊢
  rw [List.append_assoc, h, h', ← comp_map]
  simp only [Function.comp_def, List.append_assoc]

variable (file l rest)

theorem scans_of_next {s : Step} (h : Step.next l c (cs ++ rest) = s) (hp : s.problem = none)
    (he : s.extra = cs.length) :
    ∃ l', Scans file l (c :: cs) rest
      (s.tokens.map fun (t, n) => ⟨t, l.after ((c :: (cs ++ rest)).take n)⟩) l' := by
  refine ⟨l.after ((c :: (cs ++ rest)).take (s.extra + 1)), ?_⟩
  rw [Scans, List.cons_append, steps, h]
  simp only [hp, he, List.drop_left]
  rfl

theorem scans_one {t : Token} (h : Step.next l c (cs ++ rest) = .one cs.length t) :
    ∃ l', Scans file l (c :: cs) rest [⟨t, l⟩] l' := scans_of_next file l rest h rfl rfl

theorem scans_text {s : String} (hs : IsPlainText s) (hr : ∀ d ∈ rest.head?, d = '<') :
    ∃ l', Scans file l s.toList rest [⟨.text s, l⟩] l' := by
  obtain ⟨c, cs, hc⟩ := List.exists_cons_of_ne_nil (mt String.toList_eq_nil_iff.1 hs.ne_empty)
  obtain ⟨h, hcs⟩ := List.forall_mem_cons.1 (hc ▸ hs.chars)
  rw [← String.ofList_toList (s := s), hc, String.toList_ofList]
  exact scans_one file l rest (next_text h hcs hr l)

theorem scans_comment {s : String} (hs : ¬['-', '-', '>'] <:+: s.toList) :
    ∃ l', Scans file l ('<' :: '!' :: '-' :: '-' :: (s.toList ++ ['-', '-', '>'])) rest
      [⟨.comment s, l⟩] l' := by
  refine scans_one file l rest ?_
  have := next_comment hs l rest
  simpa using this

theorem scans_closing (ht : IsTagName tag) :
    ∃ l', Scans file l (closing tag) rest [⟨.closeTag tag, l⟩] l' := by
  refine scans_one file l rest ?_
  have := next_closing ht l rest
  simpa using this

theorem scans_opening (ht : IsTagName tag) (ha : ∀ a ∈ as, a.IsPlain) (hraw : ¬isRawText tag) :
    ∃ raw l', Found raw as ∧
      Scans file l ('<' :: opening tag as) rest [⟨.openTag tag raw false, l⟩] l' := by
  obtain ⟨raw, hattrs, hopen⟩ := openTag?_opening ht ha hraw l rest
  have hnext := next_opening ht as l rest
  rw [hopen, Option.getD_some] at hnext
  obtain ⟨l', h⟩ := scans_one file l rest hnext
  exact ⟨raw, l', hattrs, h⟩

/-- The content of a raw text element, for which there is no lexeme if it is empty. -/
def rawContent (text : String) (l : Location) : List Lexeme :=
  if text.toList.isEmpty then [] else [⟨.rawText text, l⟩]

/-- The content of a raw text element is found together with its opening tag. -/
theorem scans_rawOpening {text : String} (ht : IsTagName tag) (ha : ∀ a ∈ as, a.IsPlain)
    (hraw : isRawText tag)
    (hc : ¬closingMark tag <:+: text.toList.map Char.toLower) :
    ∃ raw l₁ l', Found raw as ∧
      Scans file l ('<' :: (opening tag as ++ text.toList)) (closing tag ++ rest)
        (⟨.openTag tag raw false, l⟩ :: rawContent text l₁) l' := by
  obtain ⟨raw, hattrs, hopen⟩ := openTag?_raw ht ha hraw hc l rest
  have hnext := next_opening ht as l (text.toList ++ (closing tag ++ rest))
  rw [hopen, Option.getD_some, ← List.append_assoc] at hnext
  obtain ⟨l', h⟩ := scans_of_next file l _ hnext rfl rfl
  refine ⟨raw, l.after (('<' :: (opening tag as ++ text.toList ++ (closing tag ++ rest))).take
    ((opening tag as).length + 1)), l', hattrs, ?_⟩
  unfold rawContent
  cases he : text.toList.isEmpty <;> simpa [he, Location.after] using h

end Scans

end PageCompiler.Markup
