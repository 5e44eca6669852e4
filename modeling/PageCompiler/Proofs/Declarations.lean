import PageCompiler.Island.Script
import PageCompiler.Proofs.Dialects.Blocks
import PageCompiler.Proofs.Statements

/-!
The two declarations of a script: how a statement that is written for one is read.
-/

namespace PageCompiler.Island

open Markup (IsIdentifier)
open Text (isBlank afterWord? identifier? trimStart continuesIdentifier)

/-- What stands between two words: blanks, and at least one. -/
structure IsGap (p : List Char) : Prop where
  filled : p ≠ []
  blank : ∀ c ∈ p, isBlank c

section Words

variable {c : Char} {p q cs ds rest : List Char} {x : String}

theorem afterWord?_gap (word : String) (hp : IsGap p) (hc : cs.head?.all (!isBlank ·)) :
    afterWord? word (word.toList ++ (p ++ cs)) = some cs := by
  obtain ⟨b, p, rfl⟩ := List.exists_cons_of_ne_nil hp.filled
  have hblank := hp.blank
  rw [List.forall_mem_cons] at hblank
  exact Text.afterWord?_append word hblank.1 hblank.2 hc

theorem continuesIdentifier_of_isBlank (h : isBlank c) : continuesIdentifier c = false := by
  by_contra hc
  rw [Bool.not_eq_false] at hc
  exact Markup.not_isBlank_of_continuesIdentifier hc h

theorem blanks?_eq_some (h : Text.blanks? cs = some ds) :
    cs.head?.any continuesIdentifier = false ∧ ds = trimStart cs := by
  cases cs with
  | nil => simp [Text.blanks?] at h
  | cons c cs =>
    simp only [Text.blanks?, Option.ite_none_right_eq_some, Option.some.injEq] at h
    obtain ⟨hc, rfl⟩ := h
    refine ⟨by simpa using continuesIdentifier_of_isBlank hc, ?_⟩
    rw [trimStart, trimStart, List.dropWhile_cons_of_pos hc]

/-- No identifier goes on over blanks in front of another mark. -/
theorem head_blanks (hp : ∀ c ∈ p, isBlank c) (hc : continuesIdentifier c = false) :
    (p ++ c :: cs).head?.any continuesIdentifier = false := by
  cases p with
  | nil => simpa using hc
  | cons b p =>
    rw [List.forall_mem_cons] at hp
    simpa using continuesIdentifier_of_isBlank hp.1

theorem head_identifier (hx : IsIdentifier x) (cs : List Char) :
    (x.toList ++ cs).head?.all (!isBlank ·) := by
  obtain ⟨c, ds, hxs, -⟩ := hx.exists_cons
  have hc := Markup.not_isBlank_of_continuesIdentifier (hx.chars c (by simp [hxs]))
  simpa [hxs] using hc

end Words

/-- The beginning of a declaration of `name`, and `rhs` behind its equals sign. -/
inductive Binding (name : String) (rhs : List Char) : List Char → Prop
  | fixed {p q} : IsGap p → (∀ c ∈ q, isBlank c) →
      Binding name rhs ("let".toList ++ (p ++ (name.toList ++ (q ++ '=' :: rhs))))
  | mutable {p q r} : IsGap p → IsGap q → (∀ c ∈ r, isBlank c) →
      Binding name rhs
        ("let".toList ++ (p ++ ("mut".toList ++ (q ++ (name.toList ++ (r ++ '=' :: rhs))))))

section Binding

variable {name : String} {q rhs t : List Char}

theorem trimStart_eq (hq : ∀ c ∈ q, isBlank c) : trimStart (q ++ '=' :: rhs) = '=' :: rhs :=
  Text.trimStart_append hq rfl

/-- What looks like `mut` in front of an equals sign is the name itself. -/
theorem afterWord?_mut (hname : IsIdentifier name) (hq : ∀ c ∈ q, isBlank c) {cs : List Char}
    (h : afterWord? "mut" (name.toList ++ (q ++ '=' :: rhs)) = some cs) : cs = '=' :: rhs := by
  rw [afterWord?, Option.bind_eq_some_iff] at h
  obtain ⟨ds, hds, hblanks⟩ := h
  rw [Text.after?_eq_some_iff] at hds
  obtain ⟨hblank, rfl⟩ := blanks?_eq_some hblanks
  -- the name and the word are each the longest run of word characters in front of the same text
  have hrun : (name.toList ++ (q ++ '=' :: rhs)).takeWhile continuesIdentifier = name.toList :=
    Text.takeWhile_append_of_head hname.chars (head_blanks hq rfl)
  have hmut : ("mut".toList ++ ds).takeWhile continuesIdentifier = "mut".toList :=
    Text.takeWhile_append_of_head (List.all_eq_true.1 rfl) hblank
  have hsame : name.toList = "mut".toList := by rw [← hrun, hds, hmut]
  rw [hsame, List.append_cancel_left_eq] at hds
  rw [← hds, trimStart_eq hq]

theorem binding?_eq (h : Binding name rhs t) (hname : IsIdentifier name) :
    binding? t = some (name.toList, rhs) := by
  have hnone : identifier? ('=' :: rhs) = none := rfl
  have hread {q : List Char} (hq : ∀ c ∈ q, isBlank c) :
      identifier? (name.toList ++ (q ++ '=' :: rhs)) = some (name.toList, q ++ '=' :: rhs) :=
    hname.identifier?_append (head_blanks hq rfl)
  cases h with
  | @fixed p q hp hq =>
    rw [binding?, afterWord?_gap "let" hp (head_identifier hname _)]
    cases hmut : afterWord? "mut" (name.toList ++ (q ++ '=' :: rhs)) with
    | none => simp [hmut, hread hq, trimStart_eq hq]
    | some cs =>
      obtain rfl := afterWord?_mut hname hq hmut
      simp [hmut, hread hq, trimStart_eq hq, hnone]
  | @mutable p q r hp hq hr =>
    have hmut := afterWord?_gap "mut" hq (head_identifier hname (r ++ '=' :: rhs))
    rw [binding?, afterWord?_gap "let" hp rfl]
    simp only [Option.bind_eq_bind, Option.bind_some, hmut, hread hr, trimStart_eq hr,
      Option.some_or]

theorem Passes.behind_identifier {cs rest : List Char} (h : Passes cs rest)
    (hname : IsIdentifier name) : Passes (name.toList ++ cs) rest :=
  h.behind_plain fun c hc => isPlain_of_continuesIdentifier (hname.chars c hc)

theorem Binding.passes (h : Binding name rhs t) (hname : IsIdentifier name) {rest : List Char}
    (hrhs : Passes rhs rest) : Passes t rest := by
  have hequals : Passes ('=' :: rhs) rest := hrhs.behind_char rfl
  cases h with
  | fixed hp hq =>
    apply Passes.behind_word _ "let" rfl
    apply Passes.behind_blanks _ hp.blank
    exact (hequals.behind_blanks hq).behind_identifier hname
  | mutable hp hq hr =>
    apply Passes.behind_word _ "let" rfl
    apply Passes.behind_blanks _ hp.blank
    apply Passes.behind_word _ "mut" rfl
    apply Passes.behind_blanks _ hq.blank
    exact (hequals.behind_blanks hr).behind_identifier hname

end Binding

namespace Declaration

def signalWords : List String := ["Signal", "signal", "Signal::new"]

section Right

variable {c : Char} {p q cs body text : List Char}

theorem beforeCloseParen?_concat (cs : List Char) : beforeCloseParen? (cs ++ [')']) = some cs := by
  simp [beforeCloseParen?]

theorem trimStart_openParen (hp : ∀ c ∈ p, isBlank c) (cs : List Char) :
    trimStart (p ++ '(' :: cs) = '(' :: cs :=
  Text.trimStart_append hp rfl

theorem initial?_eq {word : String} (hword : word ∈ signalWords) (hp : ∀ c ∈ p, isBlank c) :
    initial? (word.toList ++ (p ++ '(' :: (text ++ [')']))) = some text := by
  have htrim := trimStart_openParen hp (text ++ [')'])
  have hclose := beforeCloseParen?_concat text
  simp only [signalWords, List.mem_cons, List.not_mem_nil, or_false] at hword
  obtain rfl | rfl | rfl := hword
  · simp [initial?, Text.after?, htrim, hclose]
  · simp [initial?, Text.after?, htrim, hclose]
  · have hcolon (cs : List Char) : trimStart (':' :: cs) = ':' :: cs := rfl
    simp [initial?, Text.after?, htrim, hclose, hcolon]

theorem mark?_append (hp : ∀ c ∈ p, isBlank c) (hc : isBlank c = false) (cs : List Char) :
    mark? c (p ++ c :: cs) = some (trimStart cs) := by
  rw [mark?, Text.trimStart_append hp (by simpa using hc)]
  simp

theorem mark?_cons (hc : isBlank c = false) (cs : List Char) :
    mark? c (c :: cs) = some (trimStart cs) :=
  mark?_append (List.forall_mem_nil _) hc cs

/-- What may stand in front of the bars around the parameter. -/
inductive IsMove : List Char → Prop
  | none : IsMove []
  | move {p : List Char} : IsGap p → IsMove ("move".toList ++ p)

theorem afterWord?_move (hp : IsMove p) (cs : List Char) :
    (afterWord? "move" (p ++ '|' :: cs)).getD (p ++ '|' :: cs) = '|' :: cs := by
  cases hp with
  | none => rfl
  | move hp => rw [List.append_assoc, afterWord?_gap "move" hp rfl, Option.getD_some]

theorem head_move (hp : IsMove p) (cs : List Char) :
    (p ++ '|' :: cs).head?.all (!isBlank ·) := by
  cases hp with
  | none => rfl
  | move hp => rfl

theorem passes_move {rest : List Char} (hp : IsMove p) (h : Passes cs rest) :
    Passes (p ++ cs) rest := by
  cases hp with
  | none => exact h
  | move hp =>
    rw [List.append_assoc]
    exact (h.behind_blanks hp.blank).behind_word "move" rfl

/-- The right side of a declaration that computes a value. -/
inductive Closure (dependency parameter : String) (body : List Char) : List Char → Prop
  | computed {m a b c d e f : List Char} : IsMove m →
      (∀ p ∈ [a, b, c, d, e, f], ∀ x ∈ p, isBlank x) →
      Closure dependency parameter body
        ("computed".toList ++ (a ++ '(' :: (b ++ (dependency.toList ++ (c ++ ',' :: (d ++
          (m ++ '|' :: (e ++ (parameter.toList ++ (f ++ '|' :: (body ++ [')'])))))))))))

variable {dependency parameter : String}

theorem parameter?_eq (h : IsIdentifier parameter) (hp : ∀ c ∈ p, isBlank c)
    (hq : ∀ c ∈ q, isBlank c) (cs : List Char) :
    parameter? ('|' :: (p ++ (parameter.toList ++ (q ++ '|' :: cs)))) =
      some (parameter.toList, cs) := by
  have hname : identifier? (parameter.toList ++ (q ++ '|' :: cs)) =
      some (parameter.toList, q ++ '|' :: cs) := h.identifier?_append (head_blanks hq rfl)
  have htrim : trimStart (q ++ '|' :: cs) = '|' :: cs := Text.trimStart_append hq rfl
  rw [parameter?, mark?_cons rfl, Text.trimStart_append hp (head_identifier h _)]
  simp [hname, htrim]

theorem closureBody?_concat (h : body ≠ []) :
    closureBody? (body ++ [')']) = some (trimStart body) := by
  simp [closureBody?, beforeCloseParen?_concat, h]

theorem computed?_eq (h : Closure dependency parameter body cs) (hd : IsIdentifier dependency)
    (hp : IsIdentifier parameter) (hbody : body ≠ []) :
    computed? cs = some (dependency.toList, parameter.toList, trimStart body) := by
  obtain ⟨hm, hblank⟩ := h
  simp only [List.forall_mem_cons] at hblank
  obtain ⟨ha, hb, hc, hd', he, hf, -⟩ := hblank
  have hopen : isBlank '(' = false := rfl
  have hcomma : isBlank ',' = false := rfl
  have hend : continuesIdentifier ',' = false := rfl
  rw [computed?, Text.after?_append]
  simp only [Option.bind_eq_bind, Option.bind_some, mark?_append ha hopen,
    Text.trimStart_append hb (head_identifier hd _), hd.identifier?_append (head_blanks hc hend),
    mark?_append hc hcomma, Text.trimStart_append hd' (head_move hm _), afterWord?_move hm,
    parameter?_eq hp he hf, closureBody?_concat hbody]
  rfl

variable {name : String} {r t : List Char}

theorem read?_state (hname : IsIdentifier name) {word : String} (hword : word ∈ signalWords)
    (hr : ∀ c ∈ r, isBlank c) (hp : ∀ c ∈ p, isBlank c)
    (h : Binding name (r ++ (word.toList ++ (p ++ '(' :: (text ++ [')'])))) t) :
    read? t = some (.state name (.ofList text)) := by
  have hhead : (word.toList ++ (p ++ '(' :: (text ++ [')']))).head?.all (!isBlank ·) := by
    simp only [signalWords, List.mem_cons, List.not_mem_nil, or_false] at hword
    obtain rfl | rfl | rfl := hword <;> rfl
  rw [read?, binding?_eq h hname]
  simp [Text.trimStart_append hr hhead, initial?_eq hword hp]

theorem read?_computed (hname : IsIdentifier name) (hd : IsIdentifier dependency)
    (hp : IsIdentifier parameter) (hbody : body ≠ []) (hr : ∀ c ∈ r, isBlank c)
    (hc : Closure dependency parameter body cs) (h : Binding name (r ++ cs) t) :
    read? t = some (.computed name dependency parameter (.ofList (trimStart body))) := by
  have hcomputed := computed?_eq hc hd hp hbody
  have hinitial : initial? cs = none := by
    obtain ⟨-, -⟩ := hc
    rfl
  have htrim : trimStart (r ++ cs) = cs := by
    obtain ⟨-, -⟩ := hc
    exact Text.trimStart_append hr rfl
  rw [read?, binding?_eq h hname]
  simp [htrim, hinitial, hcomputed]

/-- What passes behind the closing bar passes with the whole closure. -/
theorem Closure.passes (h : Closure dependency parameter body cs) (hd : IsIdentifier dependency)
    (hp : IsIdentifier parameter) {rest : List Char} (hbody : Passes body (')' :: rest)) :
    Passes cs rest := by
  obtain ⟨hm, hblank⟩ := h
  simp only [List.forall_mem_cons] at hblank
  obtain ⟨ha, hb, hc, hd', he, hf, -⟩ := hblank
  apply Passes.behind_word _ "computed" rfl
  apply Passes.behind_blanks _ ha
  apply Passes.behind_char _ rfl
  apply Passes.behind_blanks _ hb
  apply Passes.behind_identifier _ hd
  apply Passes.behind_blanks _ hc
  apply Passes.behind_char _ rfl
  apply Passes.behind_blanks _ hd'
  apply passes_move hm
  apply Passes.behind_char _ rfl
  apply Passes.behind_blanks _ he
  apply Passes.behind_identifier _ hp
  apply Passes.behind_blanks _ hf
  apply Passes.behind_char _ rfl
  exact hbody.append (passes_char rfl rest)

end Right

end Declaration

end PageCompiler.Island
