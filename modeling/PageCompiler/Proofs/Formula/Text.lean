import PageCompiler.Proofs.Formula.Lexeme

/-!
Writing formulas. An operand stands in parentheses if it binds less closely than its place requires,
and others may stand in parentheses as well. Main statement: whatever is written for a formula is
read as that formula.
-/

namespace PageCompiler.Island.Formula

open Json (Value)
open Text (boolWord)
open Token (Spelled)

def IsScalar : Value → Prop
  | .null => True
  | .bool _ => True
  | .number (.integer n) => 0 ≤ n ∧ n < 9000000000000000
  | .string _ => True
  | _ => False

/-- A formula that can be written: its literals are scalars without a sign. -/
def IsSource : Formula → Prop
  | parameter => True
  | literal value => IsScalar value
  | negated operand => operand.IsSource
  | not operand => operand.IsSource
  | binary _ left right => left.IsSource ∧ right.IsSource

/-- The formula can be written on one line: a line feed in a string cannot be written otherwise. -/
def IsOnLine : Formula → Prop
  | parameter => True
  | literal (.string s) => '\n' ∉ s.toList
  | literal _ => True
  | negated operand => operand.IsOnLine
  | not operand => operand.IsOnLine
  | binary _ left right => left.IsOnLine ∧ right.IsOnLine

def level : Formula → Nat
  | binary op _ _ => op.level
  | _ => 7

def isAtom : Formula → Bool
  | parameter => true
  | literal _ => true
  | _ => false

/-- No parentheses but those that are needed. -/
def least (_ : Formula) : Bool := false

/-- Parentheses around everything that is made of parts. -/
def full (f : Formula) : Bool := !f.isAtom

/-- Whether the parameter is written with a star, and which word is written for `null`. -/
structure Wording where
  starred : Bool
  null : String
  null_mem : null ∈ nullWords

section Written

variable (w : Wording) (parameter : String) (extra : Formula → Bool)

def parameterTokens : List Token :=
  if w.starred then [.operator (.arithmetic .mul), .word parameter] else [.word parameter]

def literalTokens : Value → List Token
  | .null => [.word w.null]
  | .bool b => [.word (boolWord b)]
  | v => [.literal v]

/-- The tokens `ts` of `f` where a phrase of level `k` is due. -/
def enclosed (k : Nat) (f : Formula) (ts : List Token) : List Token :=
  if f.level < k ∨ extra f then .openParen :: (ts ++ [.closeParen]) else ts

def tokens : Formula → List Token
  | .parameter => parameterTokens w parameter
  | literal value => literalTokens w value
  | negated operand => .operator (.arithmetic .sub) :: enclosed extra 7 operand operand.tokens
  | not operand => .bang :: enclosed extra 7 operand operand.tokens
  | binary op left right =>
    enclosed extra op.level left left.tokens ++
      .operator op :: enclosed extra (op.level + 1) right right.tokens

/-- All the tokens of a text for the formula. -/
def written (f : Formula) : List Token := enclosed extra 0 f (f.tokens w parameter extra)

/-- The text is one for the formula, with parentheses where they are needed or `extra`. -/
def Writes (f : Formula) (source : String) : Prop :=
  Text.Spells Spelled (f.written w parameter extra) source.toList

variable {w parameter extra} {f : Formula}

theorem phrase_enclosed {k : Nat} {ts : List Token} (h : Phrase parameter f.level f ts)
    (hk : k ≤ 7) : Phrase parameter k f (enclosed extra k f ts) := by
  rw [enclosed]
  split
  · exact .of_le hk (.group (.of_le (Nat.zero_le _) h))
  · next hlevel => exact .of_le (by omega) h

theorem phrase_literalTokens {value : Value} (h : IsScalar value) :
    Phrase parameter 7 (.literal value) (literalTokens w value) := by
  match value, h with
  | .null, _ => exact .null w.null_mem
  | .bool b, _ => exact .bool b
  | .number (.integer n), h =>
    obtain ⟨m, rfl⟩ := Int.eq_ofNat_of_zero_le h.1
    exact .whole (by have := h.2; omega)
  | .string s, _ => exact .string s

theorem phrase_parameterTokens :
    Phrase parameter 7 .parameter (parameterTokens w parameter) := by
  rw [parameterTokens]
  split
  · exact .starred
  · exact .parameter

theorem phrase_tokens (h : f.IsSource) :
    Phrase parameter f.level f (f.tokens w parameter extra) := by
  induction f with
  | parameter => exact phrase_parameterTokens
  | literal value => exact phrase_literalTokens h
  | negated operand ih => exact .negated (phrase_enclosed (ih h) le_rfl)
  | not operand ih => exact .not (phrase_enclosed (ih h) le_rfl)
  | binary op left right ih ih' =>
    have hlevel := level_lt_seven op
    exact .binary (phrase_enclosed (ih h.1) hlevel.le) (phrase_enclosed (ih' h.2) hlevel)

theorem phrase_written (h : f.IsSource) :
    Phrase parameter 0 f (f.written w parameter extra) :=
  phrase_enclosed (phrase_tokens h) (by decide)

end Written

namespace Token

def text : Token → List Char
  | literal (.number n) => n.text
  | literal (.string s) => '"' :: Text.quoted Text.escapeMark '"' s.toList
  | literal _ => []
  | word name => name.toList
  | operator op => op.symbol.toList
  | bang => ['!']
  | openParen => ['(']
  | closeParen => [')']

/-- Whether `text` stands for the token in front of a space. -/
def IsSpelled (t : Token) : Prop := ∀ rest, Spelled t t.text (' ' :: rest)

theorem isSpelled_word {name : String} (h : ∃ c cs, name.toList = c :: cs ∧ startsWord c ∧
    cs.all continuesWord) : (word name).IsSpelled :=
  fun _ => .word h rfl

theorem isSpelled_whole {n : Nat} (h : n < 9000000000000000) :
    (literal (.number (.integer n))).IsSpelled :=
  fun _ => .whole h rfl

theorem isSpelled_string (s : String) : (literal (.string s)).IsSpelled := by
  intro rest
  apply Spelled.string (.inl rfl)
  exact Text.quoted_spec Text.escapeMark_spec (fun c => (Text.escapeMark_eq_none c).1) s.toList

theorem isSpelled_operator (op : Operator) : (operator op).IsSpelled := by
  intro rest
  cases op with
  | arithmetic op =>
    apply Spelled.closedMark
    cases op <;> simp [closedMarks, text, Operator.symbol]
  | compare op =>
    cases op
    case lt => exact .openMark (by simp [openMarks, text, Operator.symbol]) (by simp)
    case gt => exact .openMark (by simp [openMarks, text, Operator.symbol]) (by simp)
    all_goals exact .closedMark (by simp [closedMarks, text, Operator.symbol])
  | and => exact .closedMark (by simp [closedMarks, text, Operator.symbol])
  | or => exact .closedMark (by simp [closedMarks, text, Operator.symbol])

theorem isSpelled_bang : bang.IsSpelled :=
  fun _ => .openMark (by simp [openMarks, text]) (by simp)

theorem isSpelled_openParen : openParen.IsSpelled :=
  fun _ => .closedMark (by simp [closedMarks, text])

theorem isSpelled_closeParen : closeParen.IsSpelled :=
  fun _ => .closedMark (by simp [closedMarks, text])

end Token

open Token

theorem isSpelled_null {word : String} (h : word ∈ nullWords) : (Token.word word).IsSpelled := by
  apply isSpelled_word
  simp only [nullWords, List.mem_cons, List.not_mem_nil, or_false] at h
  obtain rfl | rfl := h <;> exact ⟨_, _, rfl, rfl, rfl⟩

theorem isSpelled_boolWord (b : Bool) : (Token.word (boolWord b)).IsSpelled := by
  apply isSpelled_word
  cases b <;> exact ⟨_, _, rfl, rfl, rfl⟩

/-- The tokens of a phrase can be spelled, so there is a text for it. -/
theorem Phrase.isSpelled {parameter : String} (hp : IsParameter parameter) {k : Nat} {f : Formula}
    {ts : List Token} (h : Phrase parameter k f ts) : ∀ t ∈ ts, t.IsSpelled := by
  have hword := isSpelled_word hp.spelled
  induction h with
  | parameter => simpa using hword
  | starred => simpa using And.intro (isSpelled_operator _) hword
  | null h => simpa using isSpelled_null h
  | bool b => simpa using isSpelled_boolWord b
  | whole hn => simpa using isSpelled_whole hn
  | string s => simpa using isSpelled_string s
  | group _ ih => simpa [or_imp, forall_and, isSpelled_openParen, isSpelled_closeParen] using ih
  | negated _ ih => simpa [isSpelled_operator] using ih
  | not _ ih => simpa [isSpelled_bang] using ih
  | binary _ _ ih ih' => simpa [or_imp, forall_and, isSpelled_operator] using And.intro ih ih'
  | lower _ ih => exact ih

section LineFeed

variable {w : Wording} {parameter : String} {extra : Formula → Bool}

theorem lineFeed_notMem_enclosed {k : Nat} {f : Formula} {ts : List Token}
    (h : ∀ t ∈ ts, '\n' ∉ t.text) : ∀ t ∈ enclosed extra k f ts, '\n' ∉ t.text := by
  rw [enclosed]
  split
  · simpa [or_imp, forall_and, Token.text] using h
  · exact h

theorem lineFeed_notMem_literal {value : Value} (hs : IsScalar value)
    (ho : (literal value).IsOnLine) : ∀ t ∈ literalTokens w value, '\n' ∉ t.text := by
  match value, hs, ho with
  | .null, _, _ =>
    have hnull := w.null_mem
    simp only [nullWords, List.mem_cons, List.not_mem_nil, or_false] at hnull
    obtain hnull | hnull := hnull <;> simp [literalTokens, Token.text, hnull]
  | .bool b, _, _ => cases b <;> simp [literalTokens, Token.text, boolWord]
  | .number (.integer n), _, _ =>
    have hdigits := Json.Number.lineFeed_notMem_integerText n
    simp [literalTokens, Token.text, Json.Number.text, hdigits]
  | .string s, _, ho =>
    have hquoted := Text.lineFeed_notMem_escapeMark ho
    simp [literalTokens, Token.text, hquoted]

theorem lineFeed_notMem_operator (op : Operator) : '\n' ∉ (Token.operator op).text := by
  cases op with
  | arithmetic op => cases op <;> decide
  | compare op => cases op <;> decide
  | and => decide
  | or => decide

/-- A formula that can be written on one line is. -/
theorem lineFeed_notMem_tokens (hp : IsParameter parameter) {f : Formula} (hs : f.IsSource)
    (ho : f.IsOnLine) : ∀ t ∈ f.tokens w parameter extra, '\n' ∉ t.text := by
  have hoperator := lineFeed_notMem_operator
  induction f with
  | parameter =>
    obtain ⟨c, cs, hspelled, hc, hcs⟩ := hp.spelled
    have hword : '\n' ∉ (Token.word parameter).text := by
      show '\n' ∉ parameter.toList
      rw [hspelled, List.mem_cons, not_or]
      constructor
      · rintro rfl
        exact absurd hc (by decide)
      · exact fun hmem => absurd (List.all_eq_true.1 hcs _ hmem) (by decide)
    rw [tokens, parameterTokens]
    split
    · simpa using And.intro (hoperator _) hword
    · simpa using hword
  | literal value => exact lineFeed_notMem_literal hs ho
  | negated operand ih =>
    rw [tokens, List.forall_mem_cons]
    exact ⟨hoperator _, lineFeed_notMem_enclosed (ih hs ho)⟩
  | not operand ih =>
    rw [tokens, List.forall_mem_cons]
    exact ⟨by decide, lineFeed_notMem_enclosed (ih hs ho)⟩
  | binary op left right ih ih' =>
    rw [tokens, List.forall_mem_append, List.forall_mem_cons]
    exact ⟨lineFeed_notMem_enclosed (ih hs.1 ho.1), hoperator op,
      lineFeed_notMem_enclosed (ih' hs.2 ho.2)⟩

end LineFeed

section Source

variable (w : Wording) {parameter : String} (extra : Formula → Bool)

/-- One of the texts for a formula, with a space behind every token. -/
def text (parameter : String) (f : Formula) : String :=
  .ofList (Text.spaced Token.text (f.written w parameter extra))

theorem writes_text (hp : IsParameter parameter) {f : Formula} (hf : f.IsSource) :
    f.Writes w parameter extra (f.text w extra parameter) := by
  have h : Phrase parameter 0 f (f.written w parameter extra) := phrase_written hf
  rw [Writes, text, String.toList_ofList]
  apply Text.spells_spaced
  intro t ht rest
  exact h.isSpelled hp t ht rest

/-- A text for a formula is read as this formula, and there is one: with and without a star in front
of the parameter, and whichever operands stand in parentheses besides those that have to. -/
theorem parse_eq_of_writes (hp : IsParameter parameter) {f : Formula} (hf : f.IsSource) :
    f.Writes w parameter extra (f.text w extra parameter) ∧
      ∀ source, f.Writes w parameter extra source → parse source parameter = .ok f := by
  have h : Phrase parameter 0 f (f.written w parameter extra) := phrase_written hf
  refine ⟨writes_text w extra hp hf, ?_⟩
  intro source hsource
  exact h.parse_eq hp.notKeyword hsource

/-- The product of a dereference and a sum, behind a subtraction of a negative number. -/
theorem parse_eq_of_writes_difference :
    let sum : Formula := .binary (.arithmetic .add) (.literal (.string "\"'//")) .parameter
    let product : Formula := .binary (.arithmetic .mul) .parameter sum
    let f : Formula := .binary (.arithmetic .sub) product
      (.negated (.literal (.number (.integer 8999999999999999))))
    let w : Wording := ⟨true, "None", by decide⟩
    IsParameter "höhe" ∧ f.IsSource ∧ parse (f.text w least "höhe") "höhe" = .ok f ∧
      parse (f.text w full "höhe") "höhe" = .ok f := by
  intro sum product f w
  have hp : IsParameter "höhe" := ⟨⟨'h', ['ö', 'h', 'e'], rfl, rfl, by decide +kernel⟩, by decide⟩
  have hf : f.IsSource := ⟨⟨trivial, trivial, trivial⟩, by decide, by decide⟩
  refine ⟨hp, hf, ?_, ?_⟩
  · obtain ⟨hwrites, hparse⟩ := parse_eq_of_writes w least hp hf
    exact hparse _ hwrites
  · obtain ⟨hwrites, hparse⟩ := parse_eq_of_writes w full hp hf
    exact hparse _ hwrites

/-- The text of a formula that can be written on one line is on one line. -/
theorem lineFeed_notMem_text (hp : IsParameter parameter) {f : Formula} (hs : f.IsSource)
    (ho : f.IsOnLine) : '\n' ∉ (f.text w extra parameter).toList := by
  have htokens : ∀ t ∈ f.written w parameter extra, '\n' ∉ t.text :=
    lineFeed_notMem_enclosed (lineFeed_notMem_tokens hp hs ho)
  rw [text, String.toList_ofList, Text.spaced, List.mem_flatMap]
  rintro ⟨t, ht, hmem⟩
  simp [htokens t ht] at hmem

end Source

end PageCompiler.Island.Formula
