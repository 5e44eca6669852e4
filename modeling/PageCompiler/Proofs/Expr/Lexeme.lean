import PageCompiler.Proofs.Blanks
import PageCompiler.Proofs.Numerals
import PageCompiler.Proofs.Expr.Phrase

/-!
How the tokens of expressions are spelled. Main statement: a text that spells the tokens of a phrase
is read as these tokens.
-/

namespace PageCompiler.Expr

open Json (Value)

namespace Token

def unescape (c : Char) : Char := if c = 'n' then '\n' else if c = 't' then '\t' else c

def escape (c : Char) : Option Char := if c = '\n' then some 'n' else Text.escapeMark c

/-- Marks that mean the same whatever follows. -/
def closedMarks : List (Token × List Char) :=
  [(dot, ['.']), (openBracket, ['[']), (closeBracket, [']']), (openParen, ['(']),
    (closeParen, [')']), (compare .eq, ['=', '=', '=']), (compare .ne, ['!', '=', '=']),
    (compare .le, ['<', '=']), (compare .ge, ['>', '=']), (and, ['&', '&']), (or, ['|', '|'])]

/-- Marks that an equals sign behind them would change. -/
def openMarks : List (Token × List Char) :=
  [(compare .eq, ['=', '=']), (compare .ne, ['!', '=']), (compare .lt, ['<']),
    (compare .gt, ['>']), (bang, ['!'])]

def wordMarks : List (Token × String) := [(and, "and"), (or, "or"), (bang, "not")]

/-- The characters `cs` stand for a token where `rest` follows. -/
inductive Spelled : Token → List Char → List Char → Prop
  | ident {name rest} : IsName name → rest.head?.any continuesName = false →
      Spelled (ident name) name.toList rest
  | integer {n rest} : Json.Number.leastInteger ≤ n → n ≤ Json.Number.greatestSigned →
      digitRun rest = [] → Spelled (number (.integer n)) (Json.Number.integerText n) rest
  | string {quote s cs rest} : quote = '"' ∨ quote = '\'' → Text.Quoted unescape quote s.toList cs →
      Spelled (string s) (quote :: cs) rest
  | closedMark {t mark rest} : (t, mark) ∈ closedMarks → Spelled t mark rest
  | openMark {t mark rest} : (t, mark) ∈ openMarks → rest.head? ≠ some '=' → Spelled t mark rest
  | wordMark {t word rest} : (t, word) ∈ wordMarks → rest.head?.any continuesName = false →
      Spelled t word.toList rest

/-- A negative number stands where an operand is due. -/
def SignFits (previous : Option Token) : Token → Prop
  | number (.integer n) => n < 0 → expectsOperand previous
  | _ => True

def SignsFit : Option Token → List Token → Prop
  | _, [] => True
  | previous, t :: ts => t.SignFits previous ∧ SignsFit (some t) ts

theorem SignsFit.append {previous : Option Token} {t : Token} {ts us : List Token}
    (h : SignsFit previous ts) (ht : ∀ p, t.SignFits p) (hu : SignsFit (some t) us) :
    SignsFit previous (ts ++ t :: us) := by
  induction ts generalizing previous with
  | nil => exact ⟨ht _, hu⟩
  | cons x ts ih => exact ⟨h.1, ih h.2⟩

end Token

open Token

/-- A phrase begins with an operand, and so does each phrase in it. -/
theorem Phrase.signsFit {k : Nat} {e : Expr} {ts : List Token} (h : Phrase k e ts)
    {previous : Option Token} (hp : expectsOperand previous) : SignsFit previous ts := by
  induction h generalizing previous with
  | ident => exact ⟨trivial, trivial⟩
  | null => exact ⟨trivial, trivial⟩
  | bool => exact ⟨trivial, trivial⟩
  | integer => exact ⟨fun _ => hp, trivial⟩
  | string => exact ⟨trivial, trivial⟩
  | group _ ih => exact ⟨trivial, (ih rfl).append (fun _ => trivial) trivial⟩
  | field _ _ ih => exact (ih hp).append (fun _ => trivial) ⟨trivial, trivial⟩
  | call _ _ ih => exact (ih hp).append (fun _ => trivial) ⟨trivial, trivial, trivial, trivial⟩
  | index _ _ ih ih' =>
    exact (ih hp).append (fun _ => trivial) ((ih' rfl).append (fun _ => trivial) trivial)
  | not _ ih => exact ⟨trivial, ih rfl⟩
  | compare _ _ ih ih' => exact (ih hp).append (fun _ => trivial) (ih' rfl)
  | and _ _ ih ih' => exact (ih hp).append (fun _ => trivial) (ih' rfl)
  | or _ _ ih ih' => exact (ih hp).append (fun _ => trivial) (ih' rfl)
  | lower _ ih => exact ih hp

namespace Token

variable {previous : Option Token} {c : Char} {cs rest : List Char} {t : Token}

theorem stringBody?_quoted {quote : Char} {text : List Char} (hquote : quote ≠ '\\')
    (h : Text.Quoted unescape quote text cs) (rest : List Char) :
    stringBody? quote (cs ++ rest) = some (text, cs.length) := by
  induction h with
  | close =>
    rw [List.singleton_append]
    unfold stringBody?
    split <;> simp_all
  | @plain c text cs hne hslash _ ih =>
    rw [List.cons_append]
    unfold stringBody?
    split <;> simp_all
  | escape c _ ih => simp [stringBody?, ih, unescape]

/-- The first token of a text is read as `t`, and the characters `cs` belong to it. -/
def Begins (previous : Option Token) (t : Token) (cs rest : List Char) : Prop :=
  ∃ c ds, cs = c :: ds ∧ Text.isBlank c = false ∧
    next previous c (ds ++ rest) = .ok (t, ds.length)

theorem startsName_of_isDigit (h : c.isDigit) : startsName c = false := by
  simp only [Char.isDigit, Bool.and_eq_true, decide_eq_true_eq, ge_iff_le,
    UInt32.le_iff_toNat_le] at h
  simp [startsName, Char.isAlpha, Char.isUpper, Char.isLower, Char.ext_iff, ← UInt32.toNat_inj,
    UInt32.le_iff_toNat_le] at h ⊢
  omega

theorem isBlank_of_startsName (h : startsName c) : Text.isBlank c = false := by
  simp only [startsName, Bool.or_eq_true, decide_eq_true_eq] at h
  obtain (h | rfl) | rfl := h
  · exact Text.isBlank_of_isAlphanum (by simp [Char.isAlphanum, h])
  · rfl
  · rfl

theorem begins_word {word : String} (hword : ∃ c cs, word.toList = c :: cs ∧ startsName c ∧
    cs.all continuesName) (hrest : rest.head?.any continuesName = false) :
    Begins previous (ofWord word) word.toList rest := by
  obtain ⟨c, cs, hspelled, hc, hcs⟩ := hword
  have hrun : (cs ++ rest).takeWhile continuesName = cs :=
    Text.takeWhile_append_of_head (List.all_eq_true.1 hcs) hrest
  refine ⟨c, cs, hspelled, isBlank_of_startsName hc, ?_⟩
  rw [next, if_pos hc, hrun]
  simp only [← hspelled, String.ofList_toList]

theorem ofWord_of_notMem {name : String} (h : name ∉ operatorWords) :
    ofWord name = ident name := by
  simp only [operatorWords, List.mem_cons, not_or] at h
  unfold ofWord
  split <;> simp_all

theorem digitRun_append {ds : List Char} (hds : ds.all Char.isDigit) (hrest : digitRun rest = []) :
    digitRun (ds ++ rest) = ds := by
  induction ds with
  | nil => exact hrest
  | cons d ds ih =>
    rw [List.all_cons, Bool.and_eq_true] at hds
    have hpoint : d ≠ '.' := by
      rintro rfl
      exact absurd hds.1 (by decide)
    rw [List.cons_append]
    unfold digitRun
    split <;> simp_all

theorem begins_integer {n : Int} (hl : Json.Number.leastInteger ≤ n)
    (hg : n ≤ Json.Number.greatestSigned) (hrest : digitRun rest = [])
    (hsign : n < 0 → expectsOperand previous) :
    Begins previous (number (.integer n)) (Json.Number.integerText n) rest := by
  have hread := Json.Number.ofLiteral?_integerText hl hg
  obtain ⟨d, ds, hdigits, hd, hds⟩ := Decimal.exists_toDigits n.natAbs
  rw [Json.Number.integerText, hdigits] at hread ⊢
  split at hread
  · next hn =>
    have hall : (d :: ds).all Char.isDigit := by simp [hd, hds]
    have hrun := digitRun_append hall hrest
    refine ⟨'-', d :: ds, by rw [if_pos hn], rfl, ?_⟩
    rw [next, if_neg (by decide), if_pos (by simp [startsNumber, hd, hsign hn]), hrun]
    simp only [hread]
  · next hn =>
    have hblank := Text.isBlank_of_isAlphanum (c := d) (by simp [Char.isAlphanum, hd])
    refine ⟨d, ds, by rw [if_neg hn], hblank, ?_⟩
    rw [next, startsName_of_isDigit hd, if_neg (by decide), if_pos (by simp [startsNumber, hd]),
      digitRun_append hds hrest]
    simp only [hread]

theorem begins_string {quote : Char} {s : String} (hquote : quote = '"' ∨ quote = '\'')
    (h : Text.Quoted unescape quote s.toList cs) :
    Begins previous (string s) (quote :: cs) rest := by
  have hbody : stringBody? quote (cs ++ rest) = some (s.toList, cs.length) := by
    obtain rfl | rfl := hquote <;> exact stringBody?_quoted (by decide) h rest
  refine ⟨quote, cs, rfl, ?_, ?_⟩
  · obtain rfl | rfl := hquote <;> rfl
  · have hname : startsName quote = false := by obtain rfl | rfl := hquote <;> rfl
    have hnumber : startsNumber previous quote (cs ++ rest) = false := by
      obtain rfl | rfl := hquote <;> simp [startsNumber]
    rw [next, hname, hnumber, if_neg (by decide), if_neg (by decide), if_pos hquote, hbody]
    simp

theorem begins_closedMark {mark : List Char} (h : (t, mark) ∈ closedMarks) :
    Begins previous t mark rest := by
  simp only [closedMarks, List.mem_cons, Prod.mk.injEq, List.not_mem_nil, or_false] at h
  obtain ⟨rfl, rfl⟩ | ⟨rfl, rfl⟩ | ⟨rfl, rfl⟩ | ⟨rfl, rfl⟩ | ⟨rfl, rfl⟩ | ⟨rfl, rfl⟩ |
    ⟨rfl, rfl⟩ | ⟨rfl, rfl⟩ | ⟨rfl, rfl⟩ | ⟨rfl, rfl⟩ | ⟨rfl, rfl⟩ := h <;>
  exact ⟨_, _, rfl, rfl, rfl⟩

theorem begins_openMark {mark : List Char} (h : (t, mark) ∈ openMarks)
    (hrest : rest.head? ≠ some '=') : Begins previous t mark rest := by
  simp only [openMarks, List.mem_cons, Prod.mk.injEq, List.not_mem_nil, or_false] at h
  cases rest with
  | nil =>
    obtain ⟨rfl, rfl⟩ | ⟨rfl, rfl⟩ | ⟨rfl, rfl⟩ | ⟨rfl, rfl⟩ | ⟨rfl, rfl⟩ := h <;>
    exact ⟨_, _, rfl, rfl, rfl⟩
  | cons d rest =>
    have hd : d ≠ '=' := fun heq => hrest (heq ▸ rfl)
    obtain ⟨rfl, rfl⟩ | ⟨rfl, rfl⟩ | ⟨rfl, rfl⟩ | ⟨rfl, rfl⟩ | ⟨rfl, rfl⟩ := h <;>
    exact ⟨_, _, rfl, rfl, by simp [next, startsName, startsNumber, punctuation?, hd]⟩

theorem begins_wordMark {word : String} (h : (t, word) ∈ wordMarks)
    (hrest : rest.head?.any continuesName = false) : Begins previous t word.toList rest := by
  simp only [wordMarks, List.mem_cons, Prod.mk.injEq, List.not_mem_nil, or_false] at h
  obtain ⟨rfl, rfl⟩ | ⟨rfl, rfl⟩ | ⟨rfl, rfl⟩ := h <;>
  exact begins_word ⟨_, _, rfl, rfl, rfl⟩ hrest

theorem Spelled.begins (h : Spelled t cs rest) (ht : t.SignFits previous) :
    Begins previous t cs rest := by
  cases h with
  | ident hname hrest =>
    rw [← ofWord_of_notMem hname.notOperator]
    exact begins_word hname.spelled hrest
  | integer hl hg hrest => exact begins_integer hl hg hrest ht
  | string hquote h => exact begins_string hquote h
  | closedMark h => exact begins_closedMark h
  | openMark h hrest => exact begins_openMark h hrest
  | wordMark h hrest => exact begins_wordMark h hrest

theorem all_blanks {blanks : List Char} (h : ∀ c ∈ blanks, Text.isBlank c) (cs : List Char) :
    all previous (blanks ++ cs) = all previous cs := by
  induction blanks with
  | nil => rfl
  | cons c blanks ih =>
    rw [List.forall_mem_cons] at h
    rw [List.cons_append, all, if_pos h.1, ih h.2]

theorem Begins.all_eq (h : Begins previous t cs rest) {ts : List Token}
    (hrest : all (some t) rest = .ok ts) : all previous (cs ++ rest) = .ok (t :: ts) := by
  obtain ⟨c, ds, rfl, hblank, hnext⟩ := h
  rw [List.cons_append, all, hblank, if_neg (by decide), hnext]
  simp [hrest]

theorem all_of_spells {ts : List Token} (h : Text.Spells Spelled ts cs)
    (hs : SignsFit previous ts) : all previous cs = .ok ts := by
  induction h generalizing previous with
  | @blank blanks hblank => rw [← List.append_nil blanks, all_blanks hblank, all]
  | token hblank ht _ ih => rw [all_blanks hblank, (ht.begins hs.1).all_eq (ih hs.2)]

end Token

/-- A text that spells the tokens of a phrase is read as its expression. -/
theorem Phrase.parse_eq {e : Expr} {ts : List Token} (h : Phrase 0 e ts) {source : String}
    (hs : Text.Spells Spelled ts source.toList) : parse source = .ok e := by
  have htokens : Token.all none source.toList = .ok ts := all_of_spells hs (h.signsFit rfl)
  rw [parse, htokens]
  exact h.parseTokens_eq _

end PageCompiler.Expr
