import PageCompiler.Proofs.Fragment

/-!
The steps of the scanner tile the source. Main statement: each step takes at least one character,
the steps leave nothing out, and every token has the text and the place of what it was found in.
-/

namespace PageCompiler

/-- The place behind a text that begins a source. -/
def Location.behind (before : List Char) : Location :=
  ⟨before.count '\n' + 1, (before.reverse.takeWhile (· ≠ '\n')).length + 1⟩

theorem Location.after_append (l : Location) (cs ds : List Char) :
    l.after (cs ++ ds) = (l.after cs).after ds :=
  List.foldl_append

theorem Location.after_start (before : List Char) : start.after before = behind before := by
  induction before using List.reverseRecOn with
  | nil => rfl
  | append_singleton cs c ih =>
    rw [after_append, ih]
    by_cases hc : c = '\n' <;> simp [after, next, behind, hc]

theorem Location.after_behind (before cs : List Char) :
    (behind before).after cs = behind (before ++ cs) := by
  rw [← after_start, ← after_start, after_append]

namespace Markup

/-! ### What stands between braces -/

section Braces

variable {cs inside : List Char} {c : Char}

/-- Where there is a number, a closing brace stands behind that many characters. -/
def ClosesAt (cs : List Char) (n? : Option Nat) : Prop :=
  ∀ n ∈ n?, ∃ rest, cs.drop n = '\x7d' :: rest

theorem ClosesAt.none : ClosesAt cs none := nofun

theorem ClosesAt.cons {n? : Option Nat} (h : ClosesAt cs n?) (c : Char) :
    ClosesAt (c :: cs) (n?.map (· + 1)) := by
  intro n hn
  obtain ⟨m, hm, rfl⟩ := Option.map_eq_some_iff.1 hn
  exact h m hm

mutual

theorem beforeBrace?_closesAt (depth : Nat) :
    (cs : List Char) → ClosesAt cs (beforeBrace? depth cs)
  | [] => .none
  | c :: cs => by
    rw [beforeBrace?.eq_def]
    dsimp only
    split
    · exact (beforeBrace?_closesAt _ cs).cons c
    split
    · next hc =>
      split
      · rintro n ⟨⟩
        exact ⟨cs, by rw [hc]; rfl⟩
      · exact (beforeBrace?_closesAt _ cs).cons c
    split
    · exact (beforeQuote?_closesAt _ _ cs).cons c
    · exact (beforeBrace?_closesAt _ cs).cons c
termination_by cs => cs.length

theorem beforeQuote?_closesAt (quote : Char) (depth : Nat) :
    (cs : List Char) → ClosesAt cs (beforeQuote? quote depth cs)
  | [] => .none
  | c :: cs => by
    rw [beforeQuote?.eq_def]
    split
    · exact .none
    · exact .none
    · next d ds h =>
      rw [h]
      simpa [Option.map_map, Function.comp_def] using
        ((beforeQuote?_closesAt quote depth ds).cons d).cons '\\'
    · next h =>
      obtain ⟨rfl, rfl⟩ := List.cons.inj h.symm
      split
      · exact (beforeBrace?_closesAt _ _).cons _
      · exact (beforeQuote?_closesAt _ _ _).cons _
termination_by cs => cs.length
decreasing_by all_goals grind

end

theorem inBraces?_eq_some (h : inBraces? cs = some inside) :
    ∃ rest, cs = inside ++ '\x7d' :: rest := by
  obtain ⟨n, hn, rfl⟩ := Option.map_eq_some_iff.1 h
  obtain ⟨rest, hrest⟩ := beforeBrace?_closesAt 0 cs n hn
  exact ⟨rest, by rw [← hrest, List.take_append_drop]⟩

theorem inDoubleBraces?_eq_some (h : inDoubleBraces? cs = some inside) :
    ∃ rest, cs = inside ++ '\x7d' :: '\x7d' :: rest := by
  obtain ⟨⟨_, rest⟩, hcut, rfl⟩ := Option.map_eq_some_iff.1 h
  exact ⟨rest, Text.eq_of_cutAt? hcut⟩

end Braces

/-- Tokens that are marks of their own: no text, and no interpolation. -/
def Token.isMarkup : Token → Bool
  | .openTag .. | .closeTag _ | .comment _ | .doctype _ | .block _ => true
  | .text _ | .rawText _ | .interpolation .. => false

namespace Step

/-- The tokens of a step, each with the number of characters in front of it, as they are read from
`slice`. -/
inductive Reads (slice : List Char) : List (Token × Nat) → Prop
  | text : Reads slice [(.text (.ofList slice), 0)]
  | interpolation : Reads slice [(.interpolation code (.ofList slice), 0)]
  | markup : t.isMarkup → Reads slice [(t, 0)]
  | rawText : slice = tag ++ text → tag.length = width →
    Reads slice [(.openTag name raw false, 0), (.rawText (.ofList text), width)]

/-- The step begins with `c` and stays in `cs`. -/
structure Fits (c : Char) (cs : List Char) (s : Step) : Prop where
  extra_le : s.extra ≤ cs.length
  reads : Reads ((c :: cs).take (s.extra + 1)) s.tokens

section Fits

variable {c : Char} {cs : List Char} {s : Step}

theorem Fits.of_append (taken rest : List Char) (hcs : cs = taken ++ rest)
    (he : s.extra = taken.length) (h : Reads (c :: taken) s.tokens) : s.Fits c cs := by
  subst hcs
  refine ⟨by simp [he], ?_⟩
  rwa [he, List.take_succ_cons, List.take_left]

theorem plain_fits {n : Nat} (h : n ≤ cs.length) : (plain c cs n).Fits c cs := ⟨h, .text⟩

theorem text_fits (c : Char) (cs : List Char) : (next.text c cs).Fits c cs :=
  plain_fits (List.takeWhile_sublist _).length_le

theorem comment_fits (rest : List Char) : (comment rest).Fits '<' ('!' :: '-' :: '-' :: rest) := by
  unfold comment
  split
  · next text more hcut =>
    exact .of_append ('!' :: '-' :: '-' :: (text ++ "-->".toList)) more
      (by simp [Text.eq_of_cutAt? hcut]) (by simp [one]) (.markup rfl)
  · exact ⟨Nat.le_refl _, .markup rfl⟩

theorem upToAngle_le (cs : List Char) : (upToAngle cs).2 ≤ cs.length := by
  have := (List.takeWhile_sublist (p := (· != '>')) (l := cs)).length_le
  unfold upToAngle
  dsimp only
  split <;> omega

theorem doctype_fits (rest : List Char) : (doctype rest).Fits '<' ('!' :: rest) :=
  ⟨Nat.succ_le_succ (upToAngle_le rest), .markup rfl⟩

theorem closeTag_fits (rest : List Char) : (closeTag rest).Fits '<' ('/' :: rest) :=
  ⟨Nat.succ_le_succ (upToAngle_le rest), .markup rfl⟩

theorem doubleBrace_fits (rest : List Char) : (doubleBrace rest).Fits '\x7b' ('\x7b' :: rest) := by
  unfold doubleBrace
  split
  · next inside h =>
    obtain ⟨more, rfl⟩ := inDoubleBraces?_eq_some h
    exact .of_append ('\x7b' :: (inside ++ ['\x7d', '\x7d'])) more (by simp) (by simp [one])
      .interpolation
  · exact .of_append ['\x7b'] rest rfl rfl .text

theorem block_fits (rest : List Char) : (block rest).Fits '\x7b' ('%' :: rest) := by
  unfold block
  split
  · next inside more hcut =>
    exact .of_append ('%' :: (inside ++ "%\x7d".toList)) more
      (by simp [Text.eq_of_cutAt? hcut]) (by simp [one]) (.markup rfl)
  · exact .of_append ['%'] rest rfl rfl .text

theorem singleBrace_fits (cs : List Char) : (singleBrace cs).Fits '\x7b' cs := by
  unfold singleBrace
  split
  · next inside h =>
    obtain ⟨more, rfl⟩ := inBraces?_eq_some h
    split
    · exact .of_append (inside ++ ['\x7d']) more (by simp) (by simp [one]) .interpolation
    · exact plain_fits (Nat.zero_le _)
  · exact plain_fits (Nat.zero_le _)

/-! ### Tags -/

theorem bareValue_le (cs : List Char) : (bareValue cs).2 ≤ cs.length := by
  have := (List.takeWhile_sublist (p := fun c => !(Text.isBlank c || c = '>')) (l := cs)).length_le
  unfold bareValue
  dsimp only
  split <;> omega

theorem quoted_le {quote : Char} {v : RawValue} {n : Nat}
    (h : ((Text.cutAt? [quote] cs).map fun (text, _) =>
      (RawValue.text (.ofList text), text.length + 2)) = some (v, n)) : n ≤ cs.length + 1 := by
  obtain ⟨⟨text, rest⟩, hcut, he⟩ := Option.map_eq_some_iff.1 h
  have hlen := Text.length_of_cutAt? hcut
  cases he
  simp only [List.length_singleton] at hlen
  omega

theorem value?_le {v : RawValue} {n : Nat} (h : value? cs = some (v, n)) : n ≤ cs.length := by
  unfold value? at h
  split at h
  · exact quoted_le h
  · exact quoted_le h
  · obtain ⟨inside, hb, he⟩ := Option.map_eq_some_iff.1 h
    obtain ⟨rest, rfl⟩ := inBraces?_eq_some hb
    cases he
    simp
  · cases h
    exact bareValue_le cs

theorem assigned?_le {v : Option RawValue} {n : Nat} (h : assigned? cs = some (v, n)) :
    n ≤ cs.length := by
  unfold assigned? at h
  dsimp only at h
  split at h
  · next rest hrest =>
    obtain ⟨⟨v, width⟩, hv, he⟩ := Option.map_eq_some_iff.1 h
    cases he
    have hw := value?_le hv
    have hlen := congrArg List.length hrest
    have hmore := (List.takeWhile_sublist (p := Text.isBlank) (l := rest)).length_le
    simp only [List.length_drop, List.length_cons] at hw hlen
    omega
  · cases h
    exact Nat.zero_le _

theorem attributes?_le {offset : Nat} {r : List Found × Bool × Nat}
    (h : attributes? offset cs = some r) : offset < r.2.2 ∧ r.2.2 ≤ offset + cs.length := by
  fun_induction attributes? offset cs generalizing r with
  | case1 | case6 | case7 => cases h
  | case2 offset c cs _ ih | case5 offset c cs _ _ _ _ ih =>
    have := ih h
    simp only [List.length_cons]
    omega
  | case3 offset c cs =>
    cases h
    simp
  | case4 offset c cs _ _ hc =>
    cases h
    cases cs with
    | nil => simp at hc
    | cons d cs => simp
  | case8 offset c cs _ _ _ _ more n value width hv found rest hrest =>
    rename_i ih
    cases h
    have := ih hrest
    have := assigned?_le hv
    have hmore : more.length ≤ cs.length := (List.takeWhile_sublist _).length_le
    simp only [List.length_drop, List.length_cons] at *
    omega

theorem rawText_prefix (name : String) (cs : List Char) : (rawText name cs).1 <+: cs := by
  unfold rawText
  split
  · exact List.take_prefix _ _
  · exact List.prefix_rfl

theorem openTag?_fits {l : Location} (h : openTag? l cs = some s) : s.Fits '<' cs := by
  unfold openTag? at h
  dsimp only at h
  split at h
  · cases h
  · next found selfClosing width ha =>
    obtain ⟨hlt, hle⟩ := attributes?_le ha
    have hname : (cs.takeWhile fun c => !endsTagName c).length ≤ cs.length :=
      (List.takeWhile_sublist _).length_le
    simp only [List.length_drop] at hlt hle
    split at h
    · next hraw =>
      have hselfClosing : selfClosing = false := by simp_all
      obtain ⟨rest, hrest⟩ :=
        rawText_prefix (.ofList (cs.takeWhile fun c => !endsTagName c)) (('<' :: cs).drop width)
      generalize rawText _ _ = raw at h hrest
      obtain ⟨text, closed⟩ := raw
      have hlen := congrArg List.length hrest
      simp only [List.length_append, List.length_drop, List.length_cons] at hlen
      cases h
      refine ⟨by dsimp only; omega, ?_⟩
      split
      · exact .markup rfl
      · have hslice : ('<' :: cs).take (width + text.length) = ('<' :: cs).take width ++ text := by
          rw [List.take_add, ← hrest, List.take_left]
        have hwidth : (('<' :: cs).take width).length = width := by
          rw [List.length_take, List.length_cons]
          omega
        dsimp only
        rw [Nat.sub_add_cancel (by omega), hselfClosing]
        exact .rawText hslice hwidth
    · cases h
      exact ⟨by dsimp only; omega, .markup rfl⟩

theorem next_fits (l : Location) (c : Char) (cs : List Char) : (next l c cs).Fits c cs := by
  unfold next
  split
  · exact comment_fits _
  · exact doctype_fits _
  · split
    · split
      · exact closeTag_fits _
      · exact text_fits _ _
    · split
      · cases ho : openTag? l _ with
        | none => exact plain_fits (Nat.zero_le _)
        | some s => exact openTag?_fits ho
      · exact text_fits _ _
  · exact doubleBrace_fits _
  · exact block_fits _
  · exact singleBrace_fits _
  · exact text_fits _ _

end Fits

end Step

/-! ### The steps of a source -/

/-- Where a step of the scanner begins, with the characters from there on. -/
structure Tile where
  location : Location
  first : Char
  rest : List Char

namespace Tile

def step (t : Tile) : Step := Step.next t.location t.first t.rest

/-- What the step takes. -/
def chars (t : Tile) : List Char := (t.first :: t.rest).take (t.step.extra + 1)

def lexemes (t : Tile) : List Lexeme :=
  t.step.tokens.map fun (x, n) => ⟨x, t.location.after ((t.first :: t.rest).take n)⟩

theorem length_chars (t : Tile) : t.chars.length = t.step.extra + 1 := by
  have h := (Step.next_fits t.location t.first t.rest).extra_le
  rw [chars, List.length_take, List.length_cons]
  exact Nat.min_eq_left (Nat.succ_le_succ h)

theorem reads (t : Tile) : Step.Reads t.chars t.step.tokens :=
  (Step.next_fits t.location t.first t.rest).reads

end Tile

/-- The steps of a source from a place on. -/
def tiles (location : Location) : List Char → List Tile
  | [] => []
  | c :: cs =>
    let t : Tile := ⟨location, c, cs⟩
    t :: tiles (location.after t.chars) (cs.drop t.step.extra)
termination_by cs => cs.length

theorem value_steps (file : String) (l : Location) (cs : List Char) :
    (steps file l cs).value = (tiles l cs).flatMap Tile.lexemes := by
  fun_induction tiles l cs with
  | case1 => simp [steps]
  | case2 l c cs t ih =>
    rw [steps, List.flatMap_cons, ← ih]
    cases (Step.next l c cs).problem <;> rfl

theorem flatten_tiles (l : Location) (cs : List Char) :
    ((tiles l cs).map Tile.chars).flatten = cs := by
  fun_induction tiles l cs with
  | case1 => rfl
  | case2 l c cs t ih =>
    rw [List.map_cons, List.flatten_cons, ih]
    exact List.take_append_drop _ (c :: cs)

/-- The lexemes of steps that follow one another behind the text `before`. -/
inductive Tiled : List Char → List Tile → List Lexeme → Prop
  | done : Tiled before [] []
  | text : pieces ≠ [] → (∀ t ∈ pieces, t.step.tokens = [(.text (.ofList t.chars), 0)]) →
    xs.head?.any Lexeme.isText = false → cs = (pieces.map Tile.chars).flatten →
    Tiled (before ++ cs) ts xs →
    Tiled before (pieces ++ ts) (⟨.text (.ofList cs), .behind before⟩ :: xs)
  | interpolation : t.step.tokens = [(.interpolation code (.ofList t.chars), 0)] →
    Tiled (before ++ t.chars) ts xs →
    Tiled before (t :: ts) (⟨.interpolation code (.ofList t.chars), .behind before⟩ :: xs)
  | markup : x.isMarkup → t.step.tokens = [(x, 0)] → Tiled (before ++ t.chars) ts xs →
    Tiled before (t :: ts) (⟨x, .behind before⟩ :: xs)
  | rawText :
    t.step.tokens = [(.openTag name raw false, 0), (.rawText (.ofList text), tag.length)] →
    t.chars = tag ++ text → Tiled (before ++ t.chars) ts xs →
    Tiled before (t :: ts) (⟨.openTag name raw false, .behind before⟩ ::
      ⟨.rawText (.ofList text), .behind (before ++ tag)⟩ :: xs)

section Tiled

variable {t : Tile} {ts : List Tile} {before : List Char} {xs : List Lexeme}

/-- The text of a step is joined to the text that follows. -/
theorem Tiled.cons_text (ht : t.step.tokens = [(.text (.ofList t.chars), 0)])
    (h : Tiled (before ++ t.chars) ts (joinText xs)) :
    Tiled before (t :: ts) (joinText (⟨.text (.ofList t.chars), .behind before⟩ :: xs)) := by
  by_cases hx : (joinText xs).head?.any Lexeme.isText
  · generalize hys : joinText xs = ys at h hx
    cases h with
    | @text pieces cs _ ts ys hne hpieces hys' hcs h =>
      rw [joinText_text hys, ← String.ofList_append]
      rw [List.append_assoc] at h
      exact .text (List.cons_ne_nil t pieces) (List.forall_mem_cons.2 ⟨ht, hpieces⟩) hys'
        (by simp [hcs]) h
    | done => cases hx
    | interpolation => cases hx
    | rawText => cases hx
    | @markup x _ _ _ _ hm =>
      cases x with
      | text => cases hm
      | _ => cases hx
  · rw [joinText_cons fun _ => by simpa using hx]
    exact .text (List.cons_ne_nil t []) (List.forall_mem_singleton.2 ht) (by simpa using hx)
      (by simp) h

/-- The lexemes of a step stand in front of those that follow. -/
theorem Tiled.cons (hl : t.location = .behind before)
    (h : Tiled (before ++ t.chars) ts (joinText xs)) :
    Tiled before (t :: ts) (joinText (t.lexemes ++ xs)) := by
  have hreads := t.reads
  generalize htokens : t.step.tokens = tokens at hreads
  rw [Tile.lexemes, htokens, hl]
  cases hreads with
  | text => exact .cons_text htokens h
  | interpolation =>
    rw [List.map_singleton, List.singleton_append, joinText_cons fun ht => Bool.noConfusion ht]
    exact .interpolation htokens h
  | @markup x hx =>
    have hjoin : joinText (⟨x, .behind before⟩ :: xs) = ⟨x, .behind before⟩ :: joinText xs := by
      refine joinText_cons fun ht => ?_
      cases x with
      | text => cases hx
      | _ => cases ht
    exact hjoin ▸ .markup hx htokens h
  | @rawText tag text width name raw hslice hwidth =>
    subst hwidth
    have htag : tag <+: t.first :: t.rest :=
      (List.prefix_append tag text).trans (hslice ▸ List.take_prefix _ _)
    have hbehind : (Location.behind before).after ((t.first :: t.rest).take tag.length) =
        .behind (before ++ tag) := by
      rw [← List.prefix_iff_eq_take.1 htag, Location.after_behind]
    simp only [List.map_cons, List.map_nil, List.cons_append, List.nil_append, hbehind]
    rw [joinText_cons fun ht => Bool.noConfusion ht, joinText_cons fun ht => Bool.noConfusion ht]
    exact .rawText htokens hslice h

theorem tiled_tiles (before cs : List Char) :
    Tiled before (tiles (.behind before) cs)
      (joinText ((tiles (.behind before) cs).flatMap Tile.lexemes)) := by
  induction hn : cs.length using Nat.strongRecOn generalizing before cs with
  | ind n ih =>
    cases cs with
    | nil =>
      rw [tiles]
      exact .done
    | cons c cs =>
      rw [tiles, List.flatMap_cons, Location.after_behind]
      exact .cons rfl (ih _ (by simp at hn ⊢; omega) _ _ rfl)

end Tiled

def tilesOf (source : String) : List Tile := tiles .start source.toList

/-- The steps of the scanner tile a source: none is empty, and they leave nothing out. A tag that
does not end takes its first character only. Text and interpolations have the text they were found
in, and each token has the place where it begins. -/
theorem scan_tiles (source file : String) :
    (steps file .start source.toList).value = (tilesOf source).flatMap Tile.lexemes ∧
      (∀ t ∈ tilesOf source, t.chars.length = t.step.extra + 1) ∧
      ((tilesOf source).map Tile.chars).flatten = source.toList ∧
      (∀ t ∈ tilesOf source, t.first = '<' → Step.startsWithLetter t.rest →
        Step.openTag? t.location t.rest = none → t.chars = ['<']) ∧
      Tiled [] (tilesOf source) (scan source file).value := by
  refine ⟨value_steps .., fun t _ => t.length_chars, flatten_tiles .., ?_, ?_⟩
  · rintro ⟨l, c, cs⟩ _ rfl hletter hopen
    have hnext : Step.next l '<' cs = Step.plain '<' cs 0 := by rw [next_letter hletter, hopen]; rfl
    rw [Tile.chars, Tile.step, hnext]
    rfl
  · rw [scan, Reported.value_map, value_steps]
    exact tiled_tiles [] source.toList

end Markup

end PageCompiler
