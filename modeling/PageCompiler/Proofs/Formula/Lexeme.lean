import PageCompiler.Proofs.Blanks
import PageCompiler.Proofs.Numerals
import PageCompiler.Proofs.Formula.Phrase

/-!
How the tokens of formulas are spelled. Main statement: a text that spells the tokens of a phrase is
read as these tokens.
-/

namespace PageCompiler

namespace Text

/-- No blank is alphabetic. -/
theorem isAlphabetic_of_isBlank {c : Char} (h : isBlank c) : isAlphabetic c = false := by
  have hcodes : ∀ code ∈ [0x85, 0xA0, 0x1680, 0x2000, 0x2001, 0x2002, 0x2003, 0x2004, 0x2005,
      0x2006, 0x2007, 0x2008, 0x2009, 0x200A, 0x2028, 0x2029, 0x202F, 0x205F, 0x3000],
      inRanges alphabeticRanges code = false := by
    decide +kernel
  rw [isAlphabetic]
  split
  · by_contra halpha
    rw [Bool.not_eq_false] at halpha
    have hblank := isBlank_of_isAlphanum (c := c) (by simp [Char.isAlphanum, halpha])
    simp [hblank] at h
  · next hc =>
    apply hcodes
    simp only [isBlank, Bool.or_eq_true, Bool.and_eq_true, decide_eq_true_eq, beq_iff_eq] at h
    simp only [List.mem_cons, List.not_mem_nil, or_false]
    omega

theorem isAlphabetic_of_isDigit {c : Char} (h : c.isDigit) : isAlphabetic c = false := by
  simp only [Char.isDigit, Bool.and_eq_true, decide_eq_true_eq, ge_iff_le,
    UInt32.le_iff_toNat_le] at h
  simp at h
  rw [isAlphabetic, if_pos (by omega)]
  simp [Char.isAlpha, Char.isUpper, Char.isLower, UInt32.le_iff_toNat_le]
  omega

theorem isAlphabetic_of_isAlpha {c : Char} (h : c.isAlpha) : isAlphabetic c := by
  have hcode : c.toNat < 128 := by
    simp [Char.isAlpha, Char.isUpper, Char.isLower, UInt32.le_iff_toNat_le] at h
    omega
  rw [isAlphabetic, if_pos hcode, h]

theorem isNumeric_of_isDigit {c : Char} (h : c.isDigit) : isNumeric c := by
  have hcode : c.toNat < 128 := by
    simp [Char.isDigit, UInt32.le_iff_toNat_le] at h
    omega
  rw [isNumeric, if_pos hcode, h]

end Text

namespace Island.Formula

open Text (boolWord)

namespace Token

/-- Marks that mean the same whatever follows. -/
def closedMarks : List (Token × List Char) :=
  [(openParen, ['(']), (closeParen, [')']), (operator (.compare .eq), ['=', '=']),
    (operator (.compare .ne), ['!', '=']), (operator (.compare .le), ['<', '=']),
    (operator (.compare .ge), ['>', '=']), (operator .and, ['&', '&']),
    (operator .or, ['|', '|']), (operator (.arithmetic .add), ['+']),
    (operator (.arithmetic .sub), ['-']), (operator (.arithmetic .mul), ['*']),
    (operator (.arithmetic .div), ['/']), (operator (.arithmetic .rem), ['%'])]

/-- Marks that an equals sign behind them would change. -/
def openMarks : List (Token × List Char) :=
  [(operator (.compare .lt), ['<']), (operator (.compare .gt), ['>']), (bang, ['!'])]

/-- The characters `cs` stand for a token where `rest` follows. -/
inductive Spelled : Token → List Char → List Char → Prop
  | word {name rest} : (∃ c cs, name.toList = c :: cs ∧ startsWord c ∧ cs.all continuesWord) →
      rest.head?.any continuesWord = false → Spelled (word name) name.toList rest
  | whole {n : Nat} {rest} : n < 9000000000000000 → rest.head?.any continuesNumber = false →
      Spelled (literal (.number (.integer n))) (Nat.toDigits 10 n) rest
  | string {quote s cs rest} : quote = '"' ∨ quote = '\'' → Text.Quoted id quote s.toList cs →
      Spelled (literal (.string s)) (quote :: cs) rest
  | closedMark {t mark rest} : (t, mark) ∈ closedMarks → Spelled t mark rest
  | openMark {t mark rest} : (t, mark) ∈ openMarks → rest.head? ≠ some '=' → Spelled t mark rest

variable {c : Char} {cs rest : List Char} {t : Token}

theorem stringBody?_quoted {quote : Char} {text : List Char} (hquote : quote ≠ '\\')
    (h : Text.Quoted id quote text cs) (rest : List Char) :
    stringBody? quote (cs ++ rest) = some (text, cs.length) := by
  induction h with
  | close =>
    rw [List.singleton_append]
    unfold stringBody?
    split <;> simp_all
  | plain hne hslash _ ih =>
    rw [List.cons_append]
    unfold stringBody?
    split <;> simp_all
  | escape c _ ih => simp [stringBody?, ih]

/-- The first token of a text is read as `t`, and the characters `cs` belong to it. -/
def Begins (t : Token) (cs rest : List Char) : Prop :=
  ∃ c ds, cs = c :: ds ∧ Text.isBlank c = false ∧ next c (ds ++ rest) = .ok (t, ds.length)

theorem isBlank_of_startsWord (h : startsWord c) : Text.isBlank c = false := by
  simp only [startsWord, Bool.or_eq_true, decide_eq_true_eq] at h
  obtain h | rfl := h
  · by_contra hblank
    rw [Text.isAlphabetic_of_isBlank (by simpa using hblank)] at h
    exact absurd h (by decide)
  · rfl

theorem begins_word {name : String} (hname : ∃ c cs, name.toList = c :: cs ∧ startsWord c ∧
    cs.all continuesWord) (hrest : rest.head?.any continuesWord = false) :
    Begins (word name) name.toList rest := by
  obtain ⟨c, cs, hspelled, hc, hcs⟩ := hname
  have hrun : (cs ++ rest).takeWhile continuesWord = cs :=
    Text.takeWhile_append_of_head (List.all_eq_true.1 hcs) hrest
  have hdigit : ¬c.isDigit := by
    intro hdigit
    have hword : startsWord c = false := by
      rw [startsWord, Text.isAlphabetic_of_isDigit hdigit, Bool.false_or, decide_eq_false_iff_not]
      rintro rfl
      exact absurd hdigit (by decide)
    simp [hword] at hc
  have hquote : ¬(c = '"' ∨ c = '\'') := by
    rintro (rfl | rfl) <;> exact absurd hc (by decide)
  refine ⟨c, cs, hspelled, isBlank_of_startsWord hc, ?_⟩
  rw [next, if_neg hdigit, if_neg hquote, if_pos hc, hrun]
  simp only [← hspelled, String.ofList_toList]

theorem begins_whole {n : Nat} (hn : n < 9000000000000000)
    (hrest : rest.head?.any continuesNumber = false) :
    Begins (literal (.number (.integer n))) (Nat.toDigits 10 n) rest := by
  have hread := number?_toDigits hn
  obtain ⟨d, ds, hdigits, hd, hds⟩ := Decimal.exists_toDigits n
  rw [hdigits] at hread ⊢
  rw [List.all_eq_true] at hds
  have hrun : (ds ++ rest).takeWhile continuesNumber = ds :=
    Text.takeWhile_append_of_head (fun c hc => by simp [continuesNumber, hds c hc]) hrest
  have hall : (d :: ds).filter (· != '_') = d :: ds := by
    rw [List.filter_eq_self, List.forall_mem_cons]
    have hne {c : Char} (hc : c.isDigit) : (c != '_') = true := by
      rw [bne_iff_ne]
      rintro rfl
      exact absurd hc (by decide)
    exact ⟨hne hd, fun c hc => hne (hds c hc)⟩
  refine ⟨d, ds, rfl, Text.isBlank_of_isAlphanum (by simp [Char.isAlphanum, hd]), ?_⟩
  rw [next, if_pos hd, hrun]
  simp only [hall, hread]

theorem begins_string {quote : Char} {s : String} (hquote : quote = '"' ∨ quote = '\'')
    (h : Text.Quoted id quote s.toList cs) :
    Begins (literal (.string s)) (quote :: cs) rest := by
  have hbody : stringBody? quote (cs ++ rest) = some (s.toList, cs.length) := by
    obtain rfl | rfl := hquote <;> exact stringBody?_quoted (by decide) h rest
  have hdigit : ¬quote.isDigit := by obtain rfl | rfl := hquote <;> decide
  refine ⟨quote, cs, rfl, ?_, ?_⟩
  · obtain rfl | rfl := hquote <;> rfl
  · rw [next, if_neg hdigit, if_pos hquote, hbody]
    simp

theorem begins_closedMark {mark : List Char} (h : (t, mark) ∈ closedMarks) :
    Begins t mark rest := by
  simp only [closedMarks, List.mem_cons, Prod.mk.injEq, List.not_mem_nil, or_false] at h
  obtain ⟨rfl, rfl⟩ | ⟨rfl, rfl⟩ | ⟨rfl, rfl⟩ | ⟨rfl, rfl⟩ | ⟨rfl, rfl⟩ | ⟨rfl, rfl⟩ |
    ⟨rfl, rfl⟩ | ⟨rfl, rfl⟩ | ⟨rfl, rfl⟩ | ⟨rfl, rfl⟩ | ⟨rfl, rfl⟩ | ⟨rfl, rfl⟩ |
    ⟨rfl, rfl⟩ := h <;>
  exact ⟨_, _, rfl, rfl, rfl⟩

theorem begins_openMark {mark : List Char} (h : (t, mark) ∈ openMarks)
    (hrest : rest.head? ≠ some '=') : Begins t mark rest := by
  simp only [openMarks, List.mem_cons, Prod.mk.injEq, List.not_mem_nil, or_false] at h
  cases rest with
  | nil =>
    obtain ⟨rfl, rfl⟩ | ⟨rfl, rfl⟩ | ⟨rfl, rfl⟩ := h <;> exact ⟨_, _, rfl, rfl, rfl⟩
  | cons d rest =>
    have hd : d ≠ '=' := fun heq => hrest (heq ▸ rfl)
    obtain ⟨rfl, rfl⟩ | ⟨rfl, rfl⟩ | ⟨rfl, rfl⟩ := h <;>
    exact ⟨_, _, rfl, rfl, by simp [next, startsWord, Text.isAlphabetic, punctuation?, hd]⟩

theorem Spelled.begins (h : Spelled t cs rest) : Begins t cs rest := by
  cases h with
  | word hname hrest => exact begins_word hname hrest
  | whole hn hrest => exact begins_whole hn hrest
  | string hquote h => exact begins_string hquote h
  | closedMark h => exact begins_closedMark h
  | openMark h hrest => exact begins_openMark h hrest

theorem all_blanks {blanks : List Char} (h : ∀ c ∈ blanks, Text.isBlank c) (cs : List Char) :
    all (blanks ++ cs) = all cs := by
  induction blanks with
  | nil => rfl
  | cons c blanks ih =>
    rw [List.forall_mem_cons] at h
    rw [List.cons_append, all, if_pos h.1, ih h.2]

theorem Begins.all_eq (h : Begins t cs rest) {ts : List Token} (hrest : all rest = .ok ts) :
    all (cs ++ rest) = .ok (t :: ts) := by
  obtain ⟨c, ds, rfl, hblank, hnext⟩ := h
  rw [List.cons_append, all, hblank, if_neg (by decide), hnext]
  simp [hrest]

theorem all_of_spells {ts : List Token} (h : Text.Spells Spelled ts cs) : all cs = .ok ts := by
  induction h with
  | @blank blanks hblank => rw [← List.append_nil blanks, all_blanks hblank, all]
  | token hblank ht _ ih => rw [all_blanks hblank, ht.begins.all_eq ih]

end Token

/-- A text that spells the tokens of a phrase is read as its formula. -/
theorem Phrase.parse_eq {parameter source : String} (hp : parameter ∉ keywords) {f : Formula}
    {ts : List Token} (h : Phrase parameter 0 f ts)
    (hs : Text.Spells Token.Spelled ts source.toList) : parse source parameter = .ok f := by
  have htokens : Token.all source.toList = .ok ts := Token.all_of_spells hs
  rw [parse, htokens]
  exact h.parseTokens_eq hp _

end Island.Formula

end PageCompiler
