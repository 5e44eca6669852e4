import PageCompiler.Proofs.Expr.Lexeme

/-!
Writing expressions. An operand stands in parentheses if it binds less closely than its place
requires, and others may stand in parentheses as well. Main statement: whatever is written for an
expression is read as that expression.
-/

namespace PageCompiler.Expr

open Json (Value)
open Text (boolWord)
open Token (Spelled)

def IsScalar : Value → Prop
  | .null => True
  | .bool _ => True
  | .number (.integer n) => Json.Number.leastInteger ≤ n ∧ n ≤ Json.Number.greatestSigned
  | .string _ => True
  | _ => False

/-- An expression that can be written: its literals are scalars, and its names are no words that
mean something else. -/
def IsSource : Expr → Prop
  | literal value => IsScalar value
  | ident name => IsName name ∧ name ∉ reservedWords
  | field base name => base.IsSource ∧ IsName name
  | index base position => base.IsSource ∧ position.IsSource
  | call base _ => base.IsSource
  | not operand => operand.IsSource
  | compare _ left right => left.IsSource ∧ right.IsSource
  | and left right => left.IsSource ∧ right.IsSource
  | or left right => left.IsSource ∧ right.IsSource

def level : Expr → Nat
  | or _ _ => 0
  | and _ _ => 1
  | compare _ _ _ => 2
  | not _ => 3
  | _ => 4

def isAtom : Expr → Bool
  | literal _ => true
  | ident _ => true
  | _ => false

/-- No parentheses but those that are needed. -/
def least (_ : Expr) : Bool := false

/-- Parentheses around everything that is made of parts. -/
def full (e : Expr) : Bool := !e.isAtom

/-- Which of several words is written for `null` and for each method. -/
structure Wording where
  null : String
  method : Method → String
  null_mem : null ∈ nullWords
  ofName?_method : ∀ m, Method.ofName? (method m) = some m

def Wording.short : Wording where
  null := "null"
  method
    | .length => "len"
    | .isEmpty => "is_empty"
    | .upper => "upper"
    | .lower => "lower"
    | .trim => "trim"
    | .first => "first"
    | .last => "last"
  null_mem := by decide
  ofName?_method m := by cases m <;> rfl

section Written

variable (w : Wording) (extra : Expr → Bool)

def literalTokens : Value → List Token
  | .null => [.ident w.null]
  | .bool b => [.ident (boolWord b)]
  | .number n => [.number n]
  | .string s => [.string s]
  | _ => []

/-- The tokens `ts` of `e` where a phrase of level `k` is due. -/
def enclosed (k : Nat) (e : Expr) (ts : List Token) : List Token :=
  if e.level < k ∨ extra e then .openParen :: (ts ++ [.closeParen]) else ts

def tokens : Expr → List Token
  | literal value => literalTokens w value
  | ident name => [.ident name]
  | field base name => enclosed extra 4 base base.tokens ++ [.dot, .ident name]
  | index base position =>
    enclosed extra 4 base base.tokens ++
      .openBracket :: (enclosed extra 0 position position.tokens ++ [.closeBracket])
  | call base method =>
    enclosed extra 4 base base.tokens ++
      [.dot, .ident (w.method method), .openParen, .closeParen]
  | not operand => .bang :: enclosed extra 3 operand operand.tokens
  | compare op left right =>
    enclosed extra 3 left left.tokens ++ .compare op :: enclosed extra 3 right right.tokens
  | and left right =>
    enclosed extra 1 left left.tokens ++ .and :: enclosed extra 2 right right.tokens
  | or left right =>
    enclosed extra 0 left left.tokens ++ .or :: enclosed extra 1 right right.tokens

/-- All the tokens of a text for the expression. -/
def written (e : Expr) : List Token := enclosed extra 0 e (e.tokens w extra)

/-- The text is one for the expression, with parentheses where they are needed or `extra`. -/
def Writes (e : Expr) (source : String) : Prop :=
  Text.Spells Spelled (e.written w extra) source.toList

variable {w extra} {e : Expr}

theorem phrase_enclosed {k : Nat} {ts : List Token} (h : Phrase e.level e ts) (hk : k ≤ 4) :
    Phrase k e (enclosed extra k e ts) := by
  rw [enclosed]
  split
  · exact .of_le hk (.group (.of_le (Nat.zero_le _) h))
  · next hlevel => exact .of_le (by omega) h

theorem phrase_literalTokens {value : Value} (h : IsScalar value) :
    Phrase 4 (.literal value) (literalTokens w value) := by
  match value, h with
  | .null, _ => exact .null w.null_mem
  | .bool b, _ => exact .bool b
  | .number (.integer n), h => exact .integer h.1 h.2
  | .string s, _ => exact .string s

theorem phrase_tokens (h : e.IsSource) : Phrase e.level e (e.tokens w extra) := by
  induction e with
  | literal value => exact phrase_literalTokens h
  | ident name => exact .ident h.1 h.2
  | field base name ih => exact .field (phrase_enclosed (ih h.1) le_rfl) h.2
  | index base position ih ih' =>
    exact .index (phrase_enclosed (ih h.1) le_rfl) (phrase_enclosed (ih' h.2) (by decide))
  | call base method ih => exact .call (phrase_enclosed (ih h) le_rfl) (w.ofName?_method method)
  | not operand ih => exact .not (phrase_enclosed (ih h) (by decide))
  | compare op left right ih ih' =>
    exact .compare (phrase_enclosed (ih h.1) (by decide)) (phrase_enclosed (ih' h.2) (by decide))
  | and left right ih ih' =>
    exact .and (phrase_enclosed (ih h.1) (by decide)) (phrase_enclosed (ih' h.2) (by decide))
  | or left right ih ih' =>
    exact .or (phrase_enclosed (ih h.1) (by decide)) (phrase_enclosed (ih' h.2) (by decide))

theorem phrase_written (h : e.IsSource) : Phrase 0 e (e.written w extra) :=
  phrase_enclosed (phrase_tokens h) (by decide)

end Written

namespace Token

def text : Token → List Char
  | ident name => name.toList
  | number n => n.text
  | string s => '"' :: Text.quoted escape '"' s.toList
  | dot => ['.']
  | openBracket => ['[']
  | closeBracket => [']']
  | openParen => ['(']
  | closeParen => [')']
  | bang => ['!']
  | compare .eq => ['=', '=']
  | compare .ne => ['!', '=']
  | compare .lt => ['<']
  | compare .le => ['<', '=']
  | compare .gt => ['>']
  | compare .ge => ['>', '=']
  | and => ['&', '&']
  | or => ['|', '|']

/-- Whether `text` stands for the token in front of a space. -/
def IsSpelled (t : Token) : Prop := ∀ rest, Spelled t t.text (' ' :: rest)

theorem isSpelled_ident {name : String} (h : IsName name) : (ident name).IsSpelled :=
  fun _ => .ident h rfl

theorem isSpelled_integer {n : Int} (hl : Json.Number.leastInteger ≤ n)
    (hg : n ≤ Json.Number.greatestSigned) : (number (.integer n)).IsSpelled :=
  fun _ => .integer hl hg rfl

theorem unescape_escape {c d : Char} (h : escape c = some d) : unescape d = c := by
  rw [escape] at h
  split at h
  · next hc =>
    obtain rfl := Option.some.inj h
    exact hc.symm
  · obtain rfl := Text.escapeMark_spec c d h
    rw [Text.escapeMark, Option.ite_none_right_eq_some] at h
    obtain ⟨rfl | rfl, -⟩ := h <;> rfl

theorem escape_eq_none {c : Char} (h : escape c = none) : c ≠ '\n' ∧ c ≠ '"' ∧ c ≠ '\\' := by
  rw [escape] at h
  split at h
  · cases h
  · next hc => exact ⟨hc, (Text.escapeMark_eq_none c).1 h⟩

theorem quoted_escape (text : List Char) :
    Text.Quoted unescape '"' text (Text.quoted escape '"' text) :=
  Text.quoted_spec (fun _ _ => unescape_escape) (fun _ h => (escape_eq_none h).2) text

/-- A line feed is written as an escape. -/
theorem lineFeed_notMem_escape (text : List Char) : '\n' ∉ Text.quoted escape '"' text := by
  refine Text.lineFeed_notMem_quoted (by decide) ?_ fun c _ h => (escape_eq_none h).1
  intro c _ h
  obtain rfl : '\n' = c := unescape_escape h
  exact absurd h (by decide)

theorem isSpelled_string (s : String) : (string s).IsSpelled :=
  fun _ => .string (.inl rfl) (quoted_escape s.toList)

theorem isSpelled_compare (op : Comparison) : (compare op).IsSpelled := by
  intro rest
  cases op
  case le => exact .closedMark (by simp [closedMarks, text])
  case ge => exact .closedMark (by simp [closedMarks, text])
  all_goals exact .openMark (by simp [openMarks, text]) (by simp)

theorem isSpelled_bang : bang.IsSpelled :=
  fun _ => .openMark (by simp [openMarks, text]) (by simp)

theorem isSpelled_marks :
    ∀ t ∈ [dot, openBracket, closeBracket, openParen, closeParen, and, or], t.IsSpelled := by
  intro t ht rest
  apply Spelled.closedMark
  simp only [List.mem_cons, List.not_mem_nil, or_false] at ht
  obtain rfl | rfl | rfl | rfl | rfl | rfl | rfl := ht <;> simp [closedMarks, text]

end Token

open Token

theorem isName_of_ofName? {name : String} {method : Method}
    (h : Method.ofName? name = some method) : IsName name := by
  unfold Method.ofName? at h
  split at h
  all_goals first
    | exact ⟨⟨_, _, rfl, rfl, rfl⟩, by decide⟩
    | cases h

theorem isName_of_mem_nullWords {word : String} (h : word ∈ nullWords) : IsName word := by
  simp only [nullWords, List.mem_cons, List.not_mem_nil, or_false] at h
  obtain rfl | rfl | rfl := h <;> exact ⟨⟨_, _, rfl, rfl, rfl⟩, by decide⟩

theorem isName_boolWord (b : Bool) : IsName (boolWord b) := by
  cases b <;> exact ⟨⟨_, _, rfl, rfl, rfl⟩, by decide⟩

/-- The tokens of a phrase can be spelled, so there is a text for it. -/
theorem Phrase.isSpelled {k : Nat} {e : Expr} {ts : List Token} (h : Phrase k e ts) :
    ∀ t ∈ ts, t.IsSpelled := by
  have hmarks := isSpelled_marks
  simp only [List.forall_mem_cons] at hmarks
  obtain ⟨hdot, hopenBracket, hcloseBracket, hopen, hclose, hand, hor, -⟩ := hmarks
  induction h with
  | ident hname => simpa using isSpelled_ident hname
  | null hword => simpa using isSpelled_ident (isName_of_mem_nullWords hword)
  | bool b => simpa using isSpelled_ident (isName_boolWord b)
  | integer hl hg => simpa using isSpelled_integer hl hg
  | string s => simpa using isSpelled_string s
  | group _ ih => simpa [or_imp, forall_and, hopen, hclose] using ih
  | field _ hname ih => simpa [or_imp, forall_and, hdot, isSpelled_ident hname] using ih
  | call _ hmethod ih =>
    have hname := isSpelled_ident (isName_of_ofName? hmethod)
    simpa [or_imp, forall_and, hdot, hopen, hclose, hname] using ih
  | index _ _ ih ih' =>
    simpa [or_imp, forall_and, hopenBracket, hcloseBracket] using And.intro ih ih'
  | not _ ih => simpa [isSpelled_bang] using ih
  | compare _ _ ih ih' =>
    simpa [or_imp, forall_and, isSpelled_compare] using And.intro ih ih'
  | and _ _ ih ih' => simpa [or_imp, forall_and, hand] using And.intro ih ih'
  | or _ _ ih ih' => simpa [or_imp, forall_and, hor] using And.intro ih ih'
  | lower _ ih => exact ih

section Source

variable (w : Wording) (extra : Expr → Bool)

/-- One of the texts for an expression, with a space behind every token. -/
def text (e : Expr) : String :=
  .ofList (Text.spaced Token.text (e.written w extra))

/-- A text for an expression is read as this expression, and there is one: whichever spelling is
taken for each token, and whichever operands stand in parentheses besides those that have to. -/
theorem parse_of_writes {e : Expr} (he : e.IsSource) :
    e.Writes w extra (e.text w extra) ∧
      ∀ source, e.Writes w extra source → parse source = .ok e := by
  have h : Phrase 0 e (e.written w extra) := phrase_written he
  constructor
  · rw [Writes, text, String.toList_ofList]
    apply Text.spells_spaced
    intro t ht rest
    exact h.isSpelled t ht rest
  · intro source hsource
    exact h.parse_eq hsource

end Source

/-- The comparison of a negation, and a disjunction that needs its parentheses. -/
theorem parse_of_writes_items :
    let last : Expr := .index (.ident "items") (.literal (.number (.integer (-1))))
    let short : Expr := .compare .lt (.not (.call last .length)) (.literal (.number (.integer 2)))
    let quotes : Expr := .or (.field (.ident "item") "text") (.literal (.string "\"\\n' // ;"))
    let e : Expr := .and short (.compare .eq quotes (.literal .null))
    e.IsSource ∧ parse (e.text .short least) = .ok e ∧ parse (e.text .short full) = .ok e := by
  intro last short quotes e
  have hname {c : Char} {cs : List Char} (hc : Token.startsName c)
      (hcs : cs.all Token.continuesName) (h : String.ofList (c :: cs) ∉ operatorWords) :
      IsName (.ofList (c :: cs)) := ⟨⟨c, cs, String.toList_ofList, hc, hcs⟩, h⟩
  have he : e.IsSource := by
    refine ⟨⟨⟨⟨hname rfl rfl (by decide), by decide⟩, ?_⟩, ?_⟩,
      ⟨⟨⟨hname rfl rfl (by decide), by decide⟩, hname rfl rfl (by decide)⟩, trivial⟩, trivial⟩
    · exact ⟨by decide, by decide⟩
    · exact ⟨by decide, by decide⟩
  refine ⟨he, ?_, ?_⟩
  · obtain ⟨hwrites, hparse⟩ := parse_of_writes .short least he
    exact hparse _ hwrites
  · obtain ⟨hwrites, hparse⟩ := parse_of_writes .short full he
    exact hparse _ hwrites

end PageCompiler.Expr
