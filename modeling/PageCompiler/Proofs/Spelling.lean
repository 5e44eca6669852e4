import Mathlib
import PageCompiler.Text.Blank

/-!
Texts of tokens. A relation says which characters may stand for a token, depending on what follows
them; around the tokens there may be blanks. A string is written between quotes, and a backslash
hides the quote. A parser goes from state to state as the tokens lead it.
-/

namespace PageCompiler.Text

section Spells

variable {τ : Type} {spelled : τ → List Char → List Char → Prop}

/-- The text spells the tokens: `spelled t cs rest` if `cs` stands for `t` in front of `rest`. -/
inductive Spells (spelled : τ → List Char → List Char → Prop) : List τ → List Char → Prop
  | blank {blanks} : (∀ c ∈ blanks, isBlank c) → Spells spelled [] blanks
  | token {blanks cs rest t ts} : (∀ c ∈ blanks, isBlank c) → spelled t cs rest →
      Spells spelled ts rest → Spells spelled (t :: ts) (blanks ++ (cs ++ rest))

theorem Spells.append_blanks {ts : List τ} {p cs : List Char} (hp : ∀ c ∈ p, isBlank c)
    (h : Spells spelled ts cs) : Spells spelled ts (p ++ cs) := by
  cases h with
  | blank hblank => exact .blank (List.forall_mem_append.2 ⟨hp, hblank⟩)
  | token hblank ht hts =>
    rw [← List.append_assoc]
    exact .token (List.forall_mem_append.2 ⟨hp, hblank⟩) ht hts

/-- The tokens one after the other, each with a space behind it. -/
def spaced (text : τ → List Char) (ts : List τ) : List Char := ts.flatMap fun t => text t ++ [' ']

theorem spells_spaced {text : τ → List Char} {ts : List τ}
    (h : ∀ t ∈ ts, ∀ rest, spelled t (text t) (' ' :: rest)) :
    Spells spelled ts (spaced text ts) := by
  induction ts with
  | nil => exact .blank (List.forall_mem_nil _)
  | cons t ts ih =>
    rw [List.forall_mem_cons] at h
    have hrest : Spells spelled ts (' ' :: spaced text ts) :=
      (ih h.2).append_blanks (List.forall_mem_singleton.2 rfl)
    have hcons : spaced text (t :: ts) = [] ++ (text t ++ ' ' :: spaced text ts) := by
      simp [spaced]
    rw [hcons]
    exact .token (List.forall_mem_nil _) (h.1 _) hrest

end Spells

section Quoted

variable {unescape : Char → Char} {quote : Char}

/-- What stands for a text between quotes, with the closing quote. A character behind a backslash
stands for what `unescape` makes of it. -/
inductive Quoted (unescape : Char → Char) (quote : Char) : List Char → List Char → Prop
  | close : Quoted unescape quote [] [quote]
  | plain {c text cs} : c ≠ quote → c ≠ '\\' → Quoted unescape quote text cs →
      Quoted unescape quote (c :: text) (c :: cs)
  | escape (c : Char) {text cs} : Quoted unescape quote text cs →
      Quoted unescape quote (unescape c :: text) ('\\' :: c :: cs)

/-- A text between quotes, without the opening one: where `escape` gives a character, it is written
behind a backslash. -/
def quoted (escape : Char → Option Char) (quote : Char) : List Char → List Char
  | [] => [quote]
  | c :: text =>
    match escape c with
    | some d => '\\' :: d :: quoted escape quote text
    | none => c :: quoted escape quote text

variable {escape : Char → Option Char} {text : List Char}

theorem quoted_spec (hsome : ∀ c d, escape c = some d → unescape d = c)
    (hnone : ∀ c, escape c = none → c ≠ quote ∧ c ≠ '\\') (text : List Char) :
    Quoted unescape quote text (quoted escape quote text) := by
  induction text with
  | nil => exact .close
  | cons c text ih =>
    rw [quoted]
    split
    · next d hd =>
      have hescape := ih.escape d
      rwa [hsome c d hd] at hescape
    · next hc => exact .plain (hnone c hc).1 (hnone c hc).2 ih

/-- A text with nothing to hide stands for itself. -/
theorem Quoted.of_plain (h : ∀ c ∈ text, c ≠ quote ∧ c ≠ '\\') :
    Quoted unescape quote text (text ++ [quote]) := by
  induction text with
  | nil => exact .close
  | cons c text ih =>
    rw [List.forall_mem_cons] at h
    exact .plain h.1.1 h.1.2 (ih h.2)

theorem Quoted.getLast?_eq {cs : List Char} (h : Quoted unescape quote text cs) :
    cs.getLast? = some quote := by
  induction h with
  | close => rfl
  | plain _ _ _ ih => rw [List.getLast?_cons, ih, Option.getD_some]
  | escape c _ ih => simp [List.getLast?_cons, ih]

theorem lineFeed_notMem_quoted (hquote : quote ≠ '\n') (hsome : ∀ c ∈ text, escape c ≠ some '\n')
    (hnone : ∀ c ∈ text, escape c = none → c ≠ '\n') : '\n' ∉ quoted escape quote text := by
  induction text with
  | nil => simpa [quoted] using hquote.symm
  | cons c text ih =>
    rw [List.forall_mem_cons] at hsome hnone
    have ih := ih hsome.2 hnone.2
    rw [quoted]
    split
    · next d hd =>
      have hd' : d ≠ '\n' := by
        rintro rfl
        exact hsome.1 hd
      simpa [ih] using hd'.symm
    · next hc => simpa [ih] using (hnone.1 hc).symm

/-- A backslash in front of each quotation mark and each backslash. -/
def escapeMark (c : Char) : Option Char := if c = '"' ∨ c = '\\' then some c else none

theorem escapeMark_spec : ∀ c d, escapeMark c = some d → d = c := by
  intro c d h
  rw [escapeMark, Option.ite_none_right_eq_some] at h
  exact (Option.some.inj h.2).symm

theorem escapeMark_eq_none (c : Char) : escapeMark c = none ↔ c ≠ '"' ∧ c ≠ '\\' := by
  simp [escapeMark]

/-- A text without line feeds stays on its line. -/
theorem lineFeed_notMem_escapeMark (h : '\n' ∉ text) : '\n' ∉ quoted escapeMark '"' text := by
  have hne (c : Char) (hc : c ∈ text) : c ≠ '\n' := by
    rintro rfl
    exact h hc
  refine lineFeed_notMem_quoted (by decide) ?_ fun c hc _ => hne c hc
  intro c hc hescape
  exact hne c hc (escapeMark_spec c _ hescape).symm

end Quoted

section Leads

variable {σ τ ε : Type} {step : σ → τ → Except ε σ} {p q r : σ} {t : τ} {ts us : List τ}

/-- The tokens lead from the state `p` to the state `q`. -/
def Leads (step : σ → τ → Except ε σ) (p : σ) (ts : List τ) (q : σ) : Prop :=
  ts.foldlM step p = .ok q

theorem Leads.nil (p : σ) : Leads step p [] p := rfl

theorem Leads.append (h : Leads step p ts q) (h' : Leads step q us r) :
    Leads step p (ts ++ us) r := by
  rw [Leads, List.foldlM_append, h]
  exact h'

theorem Leads.cons (h : step p t = .ok q) (h' : Leads step q us r) :
    Leads step p (t :: us) r := by
  rw [Leads, List.foldlM_cons, h]
  exact h'

theorem Leads.single (h : step p t = .ok q) : Leads step p [t] q := .cons h (.nil q)

end Leads

def boolWord (b : Bool) : String := if b then "true" else "false"

end PageCompiler.Text
