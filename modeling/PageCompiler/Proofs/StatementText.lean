import PageCompiler.Proofs.Declarations
import PageCompiler.Proofs.Formula.Passage
import PageCompiler.Proofs.Expr.Text

/-!
Statements as they are written: a state with a literal, and a value that is computed by a formula.
Main statements: each is one statement wherever it stands in a script, and it is read as the
declaration that it was written for.
-/

namespace PageCompiler.Island

open Json (Value)
open Markup (IsIdentifier)
open Text (isBlank trim trimStart boolWord continuesIdentifier)

/-- The characters `cs` are a literal for the value. -/
inductive Literal : Value → List Char → Prop
  | null {word} : word ∈ Expr.nullWords → Literal .null word.toList
  | bool (b : Bool) : Literal (.bool b) (boolWord b).toList
  | integer {n : Nat} : n ≤ Json.Number.greatestSigned →
      Literal (.number (.integer n)) (Nat.toDigits 10 n)
  | string {quote s cs} : quote = '"' ∨ quote = '\'' →
      Text.Quoted Expr.Token.unescape quote s.toList cs → Literal (.string s) (quote :: cs)

section Literal

variable {v : Value} {cs rest : List Char}

/-- A literal is a word, or a text between quotes. -/
theorem Literal.word_or_quoted (h : Literal v cs) :
    (cs ≠ [] ∧ ∀ c ∈ cs, continuesIdentifier c) ∨
      ∃ quote text ds, (quote = '"' ∨ quote = '\'') ∧
        Text.Quoted Expr.Token.unescape quote text ds ∧ cs = quote :: ds := by
  cases h with
  | null hword =>
    left
    simp only [Expr.nullWords, List.mem_cons, List.not_mem_nil, or_false] at hword
    obtain rfl | rfl | rfl := hword <;> exact ⟨by decide, List.all_eq_true.1 rfl⟩
  | bool b =>
    left
    cases b <;> exact ⟨by decide, List.all_eq_true.1 rfl⟩
  | integer =>
    left
    exact ⟨Nat.toDigits_ne_nil, fun c hc => Decimal.continuesIdentifier_of_mem_toDigits hc⟩
  | string hquote h => exact .inr ⟨_, _, _, hquote, h, rfl⟩

theorem Literal.passes (h : Literal v cs) (rest : List Char) : Passes cs rest := by
  obtain ⟨-, hchars⟩ | ⟨quote, text, ds, hquote, hbody, rfl⟩ := h.word_or_quoted
  · exact passes_plain (fun c hc => isPlain_of_continuesIdentifier (hchars c hc)) rest
  · exact passes_quoted hquote hbody rest

/-- A literal neither begins nor ends with a blank, and it does not begin with a sign. -/
theorem Literal.ends (h : Literal v cs) : cs.head?.all (!isBlank ·) ∧
    cs.getLast?.all (!isBlank ·) ∧ cs.head? ≠ some '-' := by
  obtain ⟨-, hchars⟩ | ⟨quote, text, ds, hquote, hbody, rfl⟩ := h.word_or_quoted
  · have hblank (c : Char) (hc : c ∈ cs) : isBlank c = false := by
      simpa using Markup.not_isBlank_of_continuesIdentifier (hchars c hc)
    refine ⟨?_, ?_, ?_⟩
    · rw [Option.all_eq_true]
      intro c hc
      simpa using hblank c (List.mem_of_mem_head? hc)
    · rw [Option.all_eq_true]
      intro c hc
      simpa using hblank c (List.mem_of_mem_getLast? hc)
    · intro hc
      exact absurd (hchars _ (List.mem_of_mem_head? hc)) (by decide)
  · rw [List.getLast?_cons, hbody.getLast?_eq]
    obtain rfl | rfl := hquote <;> exact ⟨rfl, rfl, by simp⟩

theorem parse_single {t : Expr.Token} {e : Expr} (h : Expr.Phrase 4 e [t])
    (ht : Expr.Token.Spelled t cs []) : Expr.parse (.ofList cs) = .ok e := by
  apply (h.of_le (Nat.zero_le 4)).parse_eq
  have hspells := Text.Spells.token (List.forall_mem_nil _) ht (.blank (List.forall_mem_nil _))
  simpa using hspells

theorem Literal.parse_eq (h : Literal v cs) : Expr.parse (.ofList cs) = .ok (.literal v) := by
  cases h with
  | null hword =>
    exact parse_single (.null hword) (.ident (Expr.isName_of_mem_nullWords hword) rfl)
  | bool b => exact parse_single (.bool b) (.ident (Expr.isName_boolWord b) rfl)
  | @integer n hn =>
    have hl : Json.Number.leastInteger ≤ (n : Int) := by
      rw [Json.Number.leastInteger]
      omega
    exact parse_single (.integer hl hn) (.integer hl hn rfl)
  | string hquote h => exact parse_single (.string _) (.string hquote h)

/-- The initial value of a state is read from its literal, whatever blanks are around it. -/
theorem Literal.scalar?_eq (h : Literal v cs) {p q : List Char} (hp : ∀ c ∈ p, isBlank c)
    (hq : ∀ c ∈ q, isBlank c) : scalar? (.ofList (p ++ (cs ++ q))) = some v := by
  obtain ⟨hhead, hlast, hsign⟩ := h.ends
  rw [scalar?, String.toList_ofList, Text.trim_append hp hq hhead hlast]
  split
  · exact absurd rfl hsign
  · simp [Expr.parseLiteral?, h.parse_eq]

end Literal

/-- A computed value as it is declared: its initial value follows from the rest. -/
structure Derivation where
  name : String
  dependency : String
  parameter : String
  formula : Formula

structure Derivation.IsSource (d : Derivation) : Prop where
  name : IsIdentifier d.name
  dependency : IsIdentifier d.dependency
  parameter : IsIdentifier d.parameter
  notKeyword : d.parameter ∉ Formula.keywords
  formula : d.formula.IsSource

theorem Derivation.IsSource.isParameter {d : Derivation} (h : d.IsSource) :
    Formula.IsParameter d.parameter := by
  obtain ⟨c, cs, hspelled, hc, hcs⟩ := h.parameter.exists_cons
  refine ⟨⟨c, cs, hspelled, ?_, ?_⟩, h.notKeyword⟩
  · simp only [Text.startsIdentifier, Bool.or_eq_true] at hc
    simp only [Formula.Token.startsWord, Bool.or_eq_true]
    exact hc.imp_left Text.isAlphabetic_of_isAlpha
  · rw [List.all_eq_true]
    intro d hd
    have hd := hcs d hd
    simp only [continuesIdentifier, Char.isAlphanum, Bool.or_eq_true] at hd
    simp only [Formula.Token.continuesWord, Bool.or_eq_true]
    exact hd.imp_left (Or.imp Text.isAlphabetic_of_isAlpha Text.isNumeric_of_isDigit)

/-- The statement `t` declares the state. -/
inductive StateText (e : State) : List Char → Prop
  | signal {word r p a b cs t} : word ∈ Declaration.signalWords → Literal e.initial cs →
      (∀ q ∈ [r, p, a, b], ∀ c ∈ q, isBlank c) →
      Binding e.name (r ++ (word.toList ++ (p ++ '(' :: ((a ++ (cs ++ b)) ++ [')'])))) t →
      StateText e t

/-- The statement `t` declares the computed value, with a text for its formula. -/
inductive DerivationText (d : Derivation) : List Char → Prop
  | computed {w extra body r cs t} : d.formula.Writes w d.parameter extra body →
      (∀ c ∈ r, isBlank c) → Declaration.Closure d.dependency d.parameter body.toList cs →
      Binding d.name (r ++ cs) t → DerivationText d t

section Statement

variable {e : State} {d : Derivation} {t : List Char}

theorem Binding.isStatement {name : String} {rhs : List Char} (h : Binding name rhs t)
    (hname : IsIdentifier name) (hend : rhs.getLast? = some ')')
    (hrhs : ∀ rest, Passes rhs rest) : IsStatement t where
  filled := by cases h <;> simp
  head := by cases h <;> rfl
  last := by cases h <;> simp [List.getLast?_append, List.getLast?_cons, hend] <;> rfl
  passes rest := h.passes hname (hrhs rest)

theorem StateText.isStatement (h : StateText e t) (hname : IsIdentifier e.name) :
    IsStatement t := by
  cases h with
  | @signal word r p a b cs _ hword hliteral hblank hbinding =>
    simp only [List.forall_mem_cons] at hblank
    obtain ⟨hr, hp, ha, hb, -⟩ := hblank
    have hplain : word.toList.all isPlain := by
      simp only [Declaration.signalWords, List.mem_cons, List.not_mem_nil, or_false] at hword
      obtain rfl | rfl | rfl := hword <;> rfl
    apply hbinding.isStatement hname
    · simp [List.getLast?_append, List.getLast?_cons]
    · intro rest
      apply Passes.behind_blanks _ hr
      apply Passes.behind_word _ word hplain
      apply Passes.behind_blanks _ hp
      apply Passes.behind_char _ rfl
      apply Passes.append _ (passes_char rfl rest)
      apply Passes.behind_blanks _ ha
      apply Passes.append (hliteral.passes _)
      exact passes_blanks hb _

theorem StateText.read (h : StateText e t) (hname : IsIdentifier e.name) :
    ∃ initial, Declaration.read? t = some (.state e.name initial) ∧
      scalar? initial = some e.initial := by
  cases h with
  | signal hword hliteral hblank hbinding =>
    simp only [List.forall_mem_cons] at hblank
    obtain ⟨hr, hp, ha, hb, -⟩ := hblank
    exact ⟨_, Declaration.read?_state hname hword hr hp hbinding, hliteral.scalar?_eq ha hb⟩

theorem DerivationText.isStatement (h : DerivationText d t) (hd : d.IsSource) :
    IsStatement t := by
  cases h with
  | @computed w extra body r cs _ hbody hr hclosure hbinding =>
    have hphrase : Formula.Phrase d.parameter 0 d.formula (d.formula.written w d.parameter extra) :=
      Formula.phrase_written hd.formula
    apply hbinding.isStatement hd.name
    · obtain ⟨-, -⟩ := hclosure
      simp [List.getLast?_append, List.getLast?_cons]
    · intro rest
      apply Passes.behind_blanks _ hr
      apply hclosure.passes hd.dependency hd.parameter
      exact Formula.passes_of_spells hbody hphrase.slashesApart.2 _

theorem DerivationText.read (h : DerivationText d t) (hd : d.IsSource) :
    ∃ body, Declaration.read? t = some (.computed d.name d.dependency d.parameter body) ∧
      Formula.parse body d.parameter = .ok d.formula := by
  cases h with
  | @computed w extra body r cs _ hbody hr hclosure hbinding =>
    have hphrase : Formula.Phrase d.parameter 0 d.formula (d.formula.written w d.parameter extra) :=
      Formula.phrase_written hd.formula
    have hfilled : body.toList ≠ [] := by
      obtain ⟨u, us, hwritten, -⟩ := hphrase.slashesApart.1 rfl
      rw [Formula.Writes, hwritten] at hbody
      exact Formula.ne_nil_of_spells hbody
    have hread := Declaration.read?_computed hd.name hd.dependency hd.parameter hfilled hr hclosure
      hbinding
    refine ⟨_, hread, hphrase.parse_eq hd.notKeyword ?_⟩
    rw [String.toList_ofList]
    exact Formula.spells_trimStart hbody

end Statement

/-- A value that a state may start with. -/
def IsInitial : Value → Prop
  | .null => True
  | .bool _ => True
  | .number (.integer n) => 0 ≤ n ∧ n ≤ Json.Number.greatestSigned
  | .string _ => True
  | _ => False

def literalText : Value → List Char
  | .null => "null".toList
  | .bool b => (boolWord b).toList
  | .number n => n.text
  | .string s => '"' :: Text.quoted Expr.Token.escape '"' s.toList
  | _ => []

/-- One of the statements for a state. -/
def State.text (e : State) : List Char :=
  "let ".toList ++ (e.name.toList ++ (" = Signal(".toList ++ (literalText e.initial ++ [')'])))

/-- One of the texts for a formula, without any parentheses that it does not need. -/
def Formula.shortText (f : Formula) (parameter : String) : String :=
  f.text ⟨false, "null", by decide⟩ Formula.least parameter

/-- One of the statements for a computed value. -/
def Derivation.text (d : Derivation) : List Char :=
  "let ".toList ++ (d.name.toList ++ (" = computed(".toList ++ (d.dependency.toList ++
    (", |".toList ++ (d.parameter.toList ++ ('|' ::
      ((d.formula.shortText d.parameter).toList ++ [')'])))))))

section Text

variable {v : Value} {e : State} {d : Derivation}

theorem literal_literalText (h : IsInitial v) : Literal v (literalText v) := by
  match v, h with
  | .null, _ => exact .null (by decide)
  | .bool b, _ => exact .bool b
  | .number (.integer n), h =>
    obtain ⟨m, rfl⟩ := Int.eq_ofNat_of_zero_le h.1
    exact .integer h.2
  | .string s, _ => exact .string (.inl rfl) (Expr.Token.quoted_escape s.toList)

theorem lineFeed_notMem_literalText (h : IsInitial v) : '\n' ∉ literalText v := by
  match v, h with
  | .null, _ => decide
  | .bool b, _ => cases b <;> decide
  | .number (.integer n), _ => exact Json.Number.lineFeed_notMem_integerText n
  | .string s, _ =>
    have hescape := Expr.Token.lineFeed_notMem_escape s.toList
    simpa [literalText] using hescape

theorem isGap_space : IsGap [' '] := ⟨by decide, List.forall_mem_singleton.2 rfl⟩

theorem stateText_text (h : IsInitial e.initial) : StateText e e.text := by
  have hword : "Signal" ∈ Declaration.signalWords := by decide
  have hspace : isBlank ' ' := rfl
  have hblank : ∀ q ∈ [[' '], [], [], []], ∀ c ∈ q, isBlank c := by simp [hspace]
  have htext : e.text = "let".toList ++ ([' '] ++ (e.name.toList ++ ([' '] ++ '=' ::
      ([' '] ++ ("Signal".toList ++ ([] ++ '(' :: (([] ++ (literalText e.initial ++ [])) ++
        [')']))))))) := by
    simp [State.text]
  rw [htext]
  exact .signal hword (literal_literalText h) hblank (.fixed isGap_space isGap_space.blank)

theorem derivationText_text (hd : d.IsSource) : DerivationText d d.text := by
  have hspace : isBlank ' ' := rfl
  have hblank : ∀ q ∈ [[], [], [], [' '], [], []], ∀ c ∈ q, isBlank c := by simp [hspace]
  have htext : d.text = "let".toList ++ ([' '] ++ (d.name.toList ++ ([' '] ++ '=' ::
      ([' '] ++ ("computed".toList ++ ([] ++ '(' :: ([] ++ (d.dependency.toList ++ ([] ++ ',' ::
        ([' '] ++ ([] ++ '|' :: ([] ++ (d.parameter.toList ++ ([] ++ '|' ::
          ((d.formula.shortText d.parameter).toList ++ [')']))))))))))))))) := by
    simp [Derivation.text]
  have hwrites : d.formula.Writes ⟨false, "null", by decide⟩ d.parameter Formula.least
      (d.formula.shortText d.parameter) := by
    exact Formula.writes_text _ _ hd.isParameter hd.formula
  rw [htext]
  exact .computed hwrites isGap_space.blank (.computed .none hblank)
    (.fixed isGap_space isGap_space.blank)

theorem lineFeed_notMem_identifier {name : String} (h : IsIdentifier name) :
    '\n' ∉ name.toList :=
  fun hmem => absurd (h.chars _ hmem) (by decide)

theorem State.lineFeed_notMem_text (hname : IsIdentifier e.name) (h : IsInitial e.initial) :
    '\n' ∉ e.text := by
  have hname := lineFeed_notMem_identifier hname
  have hliteral := lineFeed_notMem_literalText h
  simp [State.text, hname, hliteral]

theorem Derivation.lineFeed_notMem_text (hd : d.IsSource) (ho : d.formula.IsOnLine) :
    '\n' ∉ d.text := by
  have hname := lineFeed_notMem_identifier hd.name
  have hdependency := lineFeed_notMem_identifier hd.dependency
  have hparameter := lineFeed_notMem_identifier hd.parameter
  have hformula : '\n' ∉ (d.formula.shortText d.parameter).toList :=
    Formula.lineFeed_notMem_text _ _ hd.isParameter hd.formula ho
  simp [Derivation.text, hname, hdependency, hparameter, hformula]

end Text

end PageCompiler.Island
