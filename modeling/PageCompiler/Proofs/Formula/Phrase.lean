import Mathlib
import PageCompiler.Island.Formula.Parse
import PageCompiler.Proofs.Spelling

/-!
The grammar of formulas, as phrases of tokens. The level of a phrase is that of the operators which
it may hold outside of parentheses: from 1 for `||` to 6 for `*`, and 7 if it holds none but signs.
Main statement: every phrase is read as its formula, whatever waits in front of it.
-/

namespace PageCompiler.Island.Formula

open Json (Value)
open Text (boolWord Leads)

def nullWords : List String := ["null", "None"]

def keywords : List String := "true" :: "false" :: nullWords

/-- A name that the parameter of a formula may have. -/
structure IsParameter (name : String) : Prop where
  spelled : ∃ c cs, name.toList = c :: cs ∧ Token.startsWord c ∧ cs.all Token.continuesWord
  notKeyword : name ∉ keywords

inductive Phrase (parameter : String) : Nat → Formula → List Token → Prop
  | parameter : Phrase parameter 7 .parameter [.word parameter]
  | starred : Phrase parameter 7 .parameter [.operator (.arithmetic .mul), .word parameter]
  | null {word} : word ∈ nullWords → Phrase parameter 7 (.literal .null) [.word word]
  | bool (b : Bool) : Phrase parameter 7 (.literal (.bool b)) [.word (boolWord b)]
  | whole {n : Nat} : n < 9000000000000000 →
      Phrase parameter 7 (.literal (.number (.integer n))) [.literal (.number (.integer n))]
  | string (s : String) : Phrase parameter 7 (.literal (.string s)) [.literal (.string s)]
  | group {f ts} : Phrase parameter 0 f ts →
      Phrase parameter 7 f (.openParen :: (ts ++ [.closeParen]))
  | negated {f ts} : Phrase parameter 7 f ts →
      Phrase parameter 7 (.negated f) (.operator (.arithmetic .sub) :: ts)
  | not {f ts} : Phrase parameter 7 f ts → Phrase parameter 7 (.not f) (.bang :: ts)
  | binary {op : Operator} {l r ts us} : Phrase parameter op.level l ts →
      Phrase parameter (op.level + 1) r us →
      Phrase parameter op.level (.binary op l r) (ts ++ .operator op :: us)
  | lower {k f ts} : Phrase parameter (k + 1) f ts → Phrase parameter k f ts

variable {parameter source : String} {j k : Nat} {s : List Frame} {f g : Formula} {q : Progress}
  {ts us : List Token}

theorem Phrase.of_le (hk : j ≤ k) (h : Phrase parameter k f ts) : Phrase parameter j f ts := by
  induction hk with
  | refl => exact h
  | step _ ih => exact ih h.lower

theorem level_lt_seven (op : Operator) : op.level < 7 := by
  cases op with
  | arithmetic op => cases op <;> decide
  | compare op => cases op <;> decide
  | and => decide
  | or => decide

/-- The level of the phrase that is due behind a frame. -/
def Frame.level : Frame → Nat
  | group => 0
  | negated => 7
  | not => 7
  | binary _ op => op.level + 1

def Fits (k : Nat) (s : List Frame) : Prop := ∀ f ∈ s.head?, f.level ≤ k

theorem Fits.mono (h : Fits j s) (hk : j ≤ k) : Fits k s := fun f hf => (h f hf).trans hk

theorem fits_level (f : Frame) (s : List Frame) : Fits f.level (f :: s) := by
  simp [Fits]

/-- Behind a frame that waits for something looser, nothing ends. -/
theorem close_of_fits (hs : Fits k s) (hk : k < 7) : close k s f = (s, f) := by
  cases s with
  | nil => rfl
  | cons frame s =>
    have hlevel : frame.level ≤ k := hs frame rfl
    cases frame with
    | group => rfl
    | negated => exact absurd hlevel (by rw [Frame.level]; omega)
    | not => exact absurd hlevel (by rw [Frame.level]; omega)
    | binary l op =>
      rw [Frame.level] at hlevel
      rw [close, if_neg (by omega)]

namespace Progress

/-- An operand `f` of level `k` has been read behind the frames `s`: up to this level, what ends
with it makes no difference. -/
def Holds (k : Nat) (s : List Frame) (f : Formula) (q : Progress) : Prop :=
  ∃ t g, q = operator t g ∧ ∀ j ≤ k, close j t g = close j s f

theorem holds_operator (k : Nat) : Holds k s f (operator s f) := ⟨s, f, rfl, fun _ _ => rfl⟩

theorem Holds.of_le (hk : j ≤ k) : Holds k s f q → Holds j s f q := by
  rintro ⟨t, g, hq, h⟩
  exact ⟨t, g, hq, fun i hi => h i (hi.trans hk)⟩

end Progress

open Progress

theorem ofWord_parameter (h : parameter ∉ keywords) :
    ofWord parameter parameter = .ok .parameter := by
  simp only [keywords, nullWords, List.mem_cons, not_or] at h
  unfold ofWord
  split <;> simp_all

theorem ofWord_null {word : String} (h : word ∈ nullWords) :
    ofWord parameter word = .ok (.literal .null) := by
  simp only [nullWords, List.mem_cons, List.not_mem_nil, or_false] at h
  obtain rfl | rfl := h <;> rfl

theorem ofWord_boolWord (b : Bool) :
    ofWord parameter (boolWord b) = .ok (.literal (.bool b)) := by
  cases b <;> rfl

theorem step_closeParen (hq : q.Holds 0 (.group :: s) f) :
    q.step source parameter .closeParen = .ok (operator s f) := by
  obtain ⟨t, g, rfl, hc⟩ := hq
  have hclosed : close 0 t g = (.group :: s, f) := hc 0 le_rfl
  simp [step, onOperator, hclosed]

theorem step_operator {op : Operator} (hq : q.Holds op.level s f) (hs : Fits op.level s) :
    q.step source parameter (.operator op) = .ok (operand (.binary f op :: s)) := by
  obtain ⟨t, g, rfl, hc⟩ := hq
  have hclosed : close op.level t g = (s, f) :=
    (hc _ le_rfl).trans (close_of_fits hs (level_lt_seven op))
  simp [step, onOperator, hclosed]

/-- An operand behind an operator becomes the right side of it. -/
theorem holds_right {op : Operator} (hq : q.Holds (op.level + 1) (.binary f op :: s) g) :
    q.Holds op.level s (.binary op f g) := by
  obtain ⟨t, g', hq, hc⟩ := hq
  refine ⟨t, g', hq, ?_⟩
  intro j hj
  rw [hc j (hj.trans (Nat.le_succ _)), close, if_pos hj]

/-- A phrase is read behind every frame that waits for one of its level. -/
theorem Phrase.read (hp : parameter ∉ keywords) (h : Phrase parameter k f ts) (hs : Fits k s) :
    ∃ q, Leads (step source parameter) (.operand s) ts q ∧ q.Holds k s f := by
  induction h generalizing s with
  | parameter =>
    refine ⟨operator s .parameter, .single ?_, holds_operator 7⟩
    simp [step, onOperand, ofWord_parameter hp, Except.map]
  | starred =>
    refine ⟨operator s .parameter, .cons rfl (.single ?_), holds_operator 7⟩
    simp [step, onStarred]
  | null hword =>
    refine ⟨operator s (.literal .null), .single ?_, holds_operator 7⟩
    simp [step, onOperand, ofWord_null hword, Except.map]
  | bool b =>
    refine ⟨operator s (.literal (.bool b)), .single ?_, holds_operator 7⟩
    simp [step, onOperand, ofWord_boolWord, Except.map]
  | whole => exact ⟨_, .single rfl, holds_operator 7⟩
  | string => exact ⟨_, .single rfl, holds_operator 7⟩
  | group _ ih =>
    obtain ⟨q, hread, hq⟩ := ih (fits_level .group s)
    exact ⟨_, .cons rfl (hread.append (.single (step_closeParen hq))), holds_operator 7⟩
  | negated _ ih =>
    obtain ⟨q, hread, t, g, hq, hc⟩ := ih (fits_level .negated s)
    exact ⟨q, .cons rfl hread, t, g, hq, hc⟩
  | not _ ih =>
    obtain ⟨q, hread, t, g, hq, hc⟩ := ih (fits_level .not s)
    exact ⟨q, .cons rfl hread, t, g, hq, hc⟩
  | @binary op l r ts us _ _ ih ih' =>
    obtain ⟨q, hread, hq⟩ := ih hs
    obtain ⟨q', hread', hq'⟩ := ih' (fits_level (.binary l op) s)
    exact ⟨q', hread.append (.cons (step_operator hq hs) hread'), holds_right hq'⟩
  | lower _ ih =>
    obtain ⟨q, hread, hq⟩ := ih (hs.mono (Nat.le_succ _))
    exact ⟨q, hread, hq.of_le (Nat.le_succ _)⟩

theorem Phrase.parseTokens_eq (hp : parameter ∉ keywords) (h : Phrase parameter 0 f ts)
    (source : String) : parseTokens source parameter ts = .ok f := by
  have hread : ∃ q, Leads (step source parameter) (.operand []) ts q ∧ q.Holds 0 [] f :=
    h.read hp nofun
  obtain ⟨q, hread, t, g, rfl, hc⟩ := hread
  have hclosed : close 0 t g = ([], f) := hc 0 le_rfl
  rw [parseTokens, hread]
  show (operator t g).finish = .ok f
  rw [finish, hclosed]

end PageCompiler.Island.Formula
