import Mathlib
import PageCompiler.Expr.Parse
import PageCompiler.Proofs.Spelling

/-!
The grammar of expressions, as phrases of tokens. A phrase has one of five levels: 0 for `or`, 1 for
`and`, 2 for comparisons, 3 for `not`, and 4 for what a postfix operator may follow. Main statement:
every phrase is read as its expression, whatever waits in front of it.
-/

namespace PageCompiler.Expr

open Json (Value)
open Text (boolWord Leads)

def operatorWords : List String := ["and", "or", "not"]

def nullWords : List String := ["null", "None", "undefined"]

def reservedWords : List String := "true" :: "false" :: nullWords ++ operatorWords

/-- A word that is read as one name. -/
structure IsName (name : String) : Prop where
  spelled : ∃ c cs, name.toList = c :: cs ∧ Token.startsName c ∧ cs.all Token.continuesName
  notOperator : name ∉ operatorWords

inductive Phrase : Nat → Expr → List Token → Prop
  | ident {name} : IsName name → name ∉ reservedWords → Phrase 4 (.ident name) [.ident name]
  | null {word} : word ∈ nullWords → Phrase 4 (.literal .null) [.ident word]
  | bool (b : Bool) : Phrase 4 (.literal (.bool b)) [.ident (boolWord b)]
  | integer {n} : Json.Number.leastInteger ≤ n → n ≤ Json.Number.greatestSigned →
      Phrase 4 (.literal (.number (.integer n))) [.number (.integer n)]
  | string (s : String) : Phrase 4 (.literal (.string s)) [.string s]
  | group {e ts} : Phrase 0 e ts → Phrase 4 e (.openParen :: (ts ++ [.closeParen]))
  | field {e ts name} : Phrase 4 e ts → IsName name →
      Phrase 4 (.field e name) (ts ++ [.dot, .ident name])
  | call {e ts name method} : Phrase 4 e ts → Method.ofName? name = some method →
      Phrase 4 (.call e method) (ts ++ [.dot, .ident name, .openParen, .closeParen])
  | index {e i ts us} : Phrase 4 e ts → Phrase 0 i us →
      Phrase 4 (.index e i) (ts ++ .openBracket :: (us ++ [.closeBracket]))
  | not {e ts} : Phrase 3 e ts → Phrase 3 (.not e) (.bang :: ts)
  | compare {op l r ts us} : Phrase 3 l ts → Phrase 3 r us →
      Phrase 2 (.compare op l r) (ts ++ .compare op :: us)
  | and {l r ts us} : Phrase 1 l ts → Phrase 2 r us → Phrase 1 (.and l r) (ts ++ .and :: us)
  | or {l r ts us} : Phrase 0 l ts → Phrase 1 r us → Phrase 0 (.or l r) (ts ++ .or :: us)
  | lower {k e ts} : Phrase (k + 1) e ts → Phrase k e ts

theorem Phrase.of_le {j k : Nat} {e : Expr} {ts : List Token} (hk : j ≤ k) (h : Phrase k e ts) :
    Phrase j e ts := by
  induction hk with
  | refl => exact h
  | step _ ih => exact ih h.lower

/-- Ends what binds at least as closely as a phrase of level `k`. -/
def closeAt : Nat → List Frame → Expr → List Frame × Expr
  | 0 => closeOr
  | 1 => closeAnd
  | 2 => closeCompare
  | 3 => closeNot
  | _ => Prod.mk

section Close

variable {k : Nat} {s t : List Frame} {e f : Expr}

theorem closeAt_of_succ (h : closeAt (k + 1) s e = closeAt (k + 1) t f) :
    closeAt k s e = closeAt k t f := by
  match k, h with
  | 0, h => simp only [closeAt] at h; simp only [closeAt, closeOr, h]
  | 1, h => simp only [closeAt] at h; simp only [closeAt, closeAnd, h]
  | 2, h => simp only [closeAt] at h; simp only [closeAt, closeCompare, h]
  | 3, h =>
    obtain ⟨rfl, rfl⟩ := Prod.mk.inj h
    rfl
  | _ + 4, h => exact h

theorem closeAt_of_le {j : Nat} (hk : j ≤ k) (h : closeAt k s e = closeAt k t f) :
    closeAt j s e = closeAt j t f := by
  induction hk with
  | refl => exact h
  | step _ ih => exact ih (closeAt_of_succ h)

/-- The level of the phrase that is due behind a frame. -/
def Frame.level : Frame → Nat
  | group => 0
  | index _ => 0
  | or _ => 1
  | and _ => 2
  | compare _ _ => 3
  | not => 3

def Fits (k : Nat) (s : List Frame) : Prop := ∀ f ∈ s.head?, f.level ≤ k

theorem Fits.mono {j : Nat} (h : Fits j s) (hk : j ≤ k) : Fits k s :=
  fun f hf => (h f hf).trans hk

theorem fits_cons {f : Frame} : Fits k (f :: s) ↔ f.level ≤ k := by
  simp [Fits]

theorem fits_level (f : Frame) (s : List Frame) : Fits f.level (f :: s) := fits_cons.2 le_rfl

/-- Behind a frame that waits for something looser, nothing ends. -/
theorem closeAt_of_fits (hs : Fits k s) (hk : k < 3) : closeAt k s e = (s, e) := by
  cases s with
  | nil => interval_cases k <;> rfl
  | cons f s =>
    rw [fits_cons] at hs
    interval_cases k <;> cases f <;> first | rfl | (simp [Frame.level] at hs)

end Close

namespace Progress

/-- What has been read where an operand may end, with the frames around it. -/
def held? : Progress → Option (List Frame × Expr)
  | operator s e => some (s, e)
  | member s e name => some (s, .field e name)
  | _ => none

variable {source : String} {q : Progress} {s : List Frame} {e : Expr} {t : Token}

theorem step_of_held (hq : q.held? = some (s, e)) (ht : t ≠ .openParen) :
    q.step source t = onOperator source s e t := by
  cases q <;> simp_all [held?, step]

theorem finish_of_held (hq : q.held? = some (s, e)) :
    q.finish source = finishOperator source s e := by
  cases q <;> simp_all [held?, finish]

/-- An operand `e` of level `k` has been read behind the frames `s`. -/
def Holds (k : Nat) (s : List Frame) (e : Expr) (q : Progress) : Prop :=
  ∃ t f, q.held? = some (t, f) ∧ closeAt k t f = closeAt k s e

theorem Holds.of_le {j k : Nat} (hk : j ≤ k) : Holds k s e q → Holds j s e q := by
  rintro ⟨t, f, hq, h⟩
  exact ⟨t, f, hq, closeAt_of_le hk h⟩

theorem holds_operator (k : Nat) : Holds k s e (operator s e) := ⟨s, e, rfl, rfl⟩

end Progress

open Progress

section Read

variable {source : String} {s : List Frame} {q : Progress}

theorem literalOrIdent_of_notMem {name : String} (h : name ∉ reservedWords) :
    literalOrIdent name = .ident name := by
  simp only [reservedWords, nullWords, List.cons_append, List.mem_cons, not_or] at h
  unfold literalOrIdent
  split <;> simp_all

theorem literalOrIdent_null {word : String} (h : word ∈ nullWords) :
    literalOrIdent word = .literal .null := by
  simp only [nullWords, List.mem_cons, List.not_mem_nil, or_false] at h
  obtain rfl | rfl | rfl := h <;> rfl

theorem literalOrIdent_boolWord (b : Bool) : literalOrIdent (boolWord b) = .literal (.bool b) := by
  cases b <;> rfl

/-- A closing parenthesis behind what a group holds. -/
theorem step_closeParen {e : Expr} (hq : q.Holds 0 (.group :: s) e) :
    q.step source .closeParen = .ok (operator s e) := by
  obtain ⟨t, f, hq, hc⟩ := hq
  have hclosed : closeOr t f = (.group :: s, e) := hc
  rw [step_of_held (t := .closeParen) hq nofun]
  simp [onOperator, hclosed]

theorem step_closeBracket {e i : Expr} (hq : q.Holds 0 (.index e :: s) i) :
    q.step source .closeBracket = .ok (operator s (.index e i)) := by
  obtain ⟨t, f, hq, hc⟩ := hq
  have hclosed : closeOr t f = (.index e :: s, i) := hc
  rw [step_of_held (t := .closeBracket) hq nofun]
  simp [onOperator, hclosed]

/-- Behind an operand of the closest level nothing has to be ended. -/
theorem held_of_holds {e : Expr} (hq : q.Holds 4 s e) : q.held? = some (s, e) := by
  obtain ⟨t, f, hq, hc⟩ := hq
  rw [hq, show (t, f) = (s, e) from hc]

theorem step_compare {l : Expr} {op : Comparison} (hq : q.Holds 3 s l) (hs : Fits 2 s) :
    q.step source (.compare op) = .ok (operand (.compare l op :: s)) := by
  obtain ⟨t, f, hq, hc⟩ := hq
  have hclosed : closeNot s l = (s, l) := by
    cases s with
    | nil => rfl
    | cons f s => cases f <;> first | rfl | (rw [fits_cons] at hs; simp [Frame.level] at hs)
  have hnot : closeNot t f = (s, l) := hc.trans hclosed
  rw [step_of_held (t := .compare op) hq nofun]
  simp only [onOperator, hnot]
  split
  · next heq =>
    obtain ⟨rfl, rfl⟩ := Prod.mk.inj heq
    rw [fits_cons] at hs
    simp [Frame.level] at hs
  · next heq =>
    obtain ⟨rfl, rfl⟩ := Prod.mk.inj heq
    rfl

theorem step_and {l : Expr} (hq : q.Holds 1 s l) (hs : Fits 1 s) :
    q.step source .and = .ok (operand (.and l :: s)) := by
  obtain ⟨t, f, hq, hc⟩ := hq
  have hclosed : closeAnd t f = (s, l) := hc.trans (closeAt_of_fits hs (by decide))
  rw [step_of_held (t := .and) hq nofun]
  simp [onOperator, hclosed]

theorem step_or {l : Expr} (hq : q.Holds 0 s l) (hs : Fits 0 s) :
    q.step source .or = .ok (operand (.or l :: s)) := by
  obtain ⟨t, f, hq, hc⟩ := hq
  have hclosed : closeOr t f = (s, l) := hc.trans (closeAt_of_fits hs (by decide))
  rw [step_of_held (t := .or) hq nofun]
  simp [onOperator, hclosed]

/-- An operand behind an operator becomes the right side of it. -/
theorem holds_right {k : Nat} {e r : Expr} {frame : Frame} (hq : q.Holds (k + 1) (frame :: s) r)
    (hframe : closeAt k (frame :: s) r = (s, e)) (hs : Fits k s) (hk : k < 3) : q.Holds k s e := by
  obtain ⟨t, f, hq, hc⟩ := hq
  exact ⟨t, f, hq, by rw [closeAt_of_succ hc, hframe, closeAt_of_fits hs hk]⟩

/-- A phrase is read behind every frame that waits for one of its level. -/
theorem Phrase.read {k : Nat} {e : Expr} {ts : List Token} (h : Phrase k e ts) (hs : Fits k s) :
    ∃ q, Leads (step source) (.operand s) ts q ∧ q.Holds k s e := by
  induction h generalizing s with
  | @ident name _ hname =>
    refine ⟨operator s (.ident name), .single ?_, holds_operator 4⟩
    simp [step, onOperand, literalOrIdent_of_notMem hname]
  | null hword =>
    refine ⟨operator s (.literal .null), .single ?_, holds_operator 4⟩
    simp [step, onOperand, literalOrIdent_null hword]
  | bool b =>
    refine ⟨operator s (.literal (.bool b)), .single ?_, holds_operator 4⟩
    simp [step, onOperand, literalOrIdent_boolWord]
  | integer => exact ⟨_, .single rfl, holds_operator 4⟩
  | string => exact ⟨_, .single rfl, holds_operator 4⟩
  | group _ ih =>
    obtain ⟨q, hread, hq⟩ := ih (fits_level .group s)
    exact ⟨_, .cons rfl (hread.append (.single (step_closeParen hq))), holds_operator 4⟩
  | @field e ts name _ _ ih =>
    obtain ⟨q, hread, hq⟩ := ih hs
    have hdot : q.step source .dot = .ok (point s e) := step_of_held (held_of_holds hq) nofun
    exact ⟨member s e name, hread.append (.cons hdot (.single rfl)), ⟨s, _, rfl, rfl⟩⟩
  | @call e ts name method _ hmethod ih =>
    obtain ⟨q, hread, hq⟩ := ih hs
    have hdot : q.step source .dot = .ok (point s e) := step_of_held (held_of_holds hq) nofun
    have hend : (arguments s e name).step source .closeParen =
        .ok (operator s (.call e method)) := by
      simp [step, hmethod]
    exact ⟨_, hread.append (.cons hdot (.cons rfl (.cons rfl (.single hend)))), holds_operator 4⟩
  | @index e i ts us _ _ ih ih' =>
    obtain ⟨q, hread, hq⟩ := ih hs
    have hopen : q.step source .openBracket = .ok (operand (.index e :: s)) :=
      step_of_held (held_of_holds hq) nofun
    obtain ⟨r, hread', hr⟩ := ih' (fits_level (.index e) s)
    exact ⟨_, hread.append (.cons hopen (hread'.append (.single (step_closeBracket hr)))),
      holds_operator 4⟩
  | not _ ih =>
    obtain ⟨q, hread, t, f, hq, hc⟩ := ih (fits_level .not s)
    exact ⟨q, .cons rfl hread, t, f, hq, hc⟩
  | @compare op l _ _ _ _ _ ih ih' =>
    -- the left operand is a level higher than the comparison: comparisons do not associate
    obtain ⟨q, hread, hq⟩ := ih (hs.mono (by decide))
    obtain ⟨r, hread', hr⟩ := ih' (fits_level (.compare l op) s)
    exact ⟨r, hread.append (.cons (step_compare hq hs) hread'),
      holds_right hr rfl hs (by decide)⟩
  | @and l _ _ _ _ _ ih ih' =>
    obtain ⟨q, hread, hq⟩ := ih hs
    obtain ⟨r, hread', hr⟩ := ih' (fits_level (.and l) s)
    exact ⟨r, hread.append (.cons (step_and hq hs) hread'), holds_right hr rfl hs (by decide)⟩
  | @or l _ _ _ _ _ ih ih' =>
    obtain ⟨q, hread, hq⟩ := ih hs
    obtain ⟨r, hread', hr⟩ := ih' (fits_level (.or l) s)
    exact ⟨r, hread.append (.cons (step_or hq hs) hread'), holds_right hr rfl hs (by decide)⟩
  | lower _ ih =>
    obtain ⟨q, hread, hq⟩ := ih (hs.mono (Nat.le_succ _))
    exact ⟨q, hread, hq.of_le (Nat.le_succ _)⟩

end Read

theorem Phrase.ne_nil {k : Nat} {e : Expr} {ts : List Token} (h : Phrase k e ts) : ts ≠ [] := by
  induction h <;> simp_all

theorem Phrase.parseTokens_eq {e : Expr} {ts : List Token} (h : Phrase 0 e ts) (source : String) :
    parseTokens source ts = .ok e := by
  have hread : ∃ q, Leads (step source) (.operand []) ts q ∧ q.Holds 0 [] e := h.read nofun
  obtain ⟨q, hread, t, f, hq, hc⟩ := hread
  have hclosed : closeOr t f = ([], e) := hc
  have hempty : ts.isEmpty = false := by simpa using h.ne_nil
  rw [parseTokens, hempty]
  show (do (← ts.foldlM (step source) (.operand [])).finish source) = .ok e
  rw [hread]
  show q.finish source = .ok e
  rw [finish_of_held hq, finishOperator, hclosed]

end PageCompiler.Expr
