import Mathlib
import PageCompiler.Markup.Parts
import PageCompiler.Proofs.Search
import PageCompiler.Proofs.Spelling

/-!
Where braces end. Main statements: single braces end at the partner of the open one, so that what
stands between them is balanced, and double braces end at the first two closing ones.
-/

namespace PageCompiler.Markup

open Text (Quoted)

/-- Text in which each brace has its partner. Quotes are closed, and braces in them do not count. -/
inductive Balanced : List Char → Prop
  | nil : Balanced []
  | plain {c cs} : c ≠ '\x7b' → c ≠ '\x7d' → isQuote c = false → Balanced cs → Balanced (c :: cs)
  | braces {cs ds} : Balanced cs → Balanced ds → Balanced ('\x7b' :: (cs ++ '\x7d' :: ds))
  | quoted {unescape quote text cs ds} : isQuote quote → Quoted unescape quote text cs →
    Balanced ds → Balanced (quote :: (cs ++ ds))

section Search

variable {c quote : Char} {cs ds rest inside : List Char} {depth n : Nat}

theorem isQuote_iff : isQuote c ↔ c = '"' ∨ c = '\'' ∨ c = '`' := by simp [isQuote, or_assoc]

theorem beforeBrace?_open (depth : Nat) (cs : List Char) :
    beforeBrace? depth ('\x7b' :: cs) = (beforeBrace? (depth + 1) cs).map (· + 1) := by
  rw [beforeBrace?.eq_def]
  simp

theorem beforeBrace?_close (cs : List Char) : beforeBrace? 0 ('\x7d' :: cs) = some 0 := by
  rw [beforeBrace?.eq_def]
  simp

theorem beforeBrace?_close_succ (depth : Nat) (cs : List Char) :
    beforeBrace? (depth + 1) ('\x7d' :: cs) = (beforeBrace? depth cs).map (· + 1) := by
  rw [beforeBrace?.eq_def]
  simp

theorem beforeBrace?_plain (hopen : c ≠ '\x7b') (hclose : c ≠ '\x7d') (hquote : isQuote c = false)
    (depth : Nat) (cs : List Char) :
    beforeBrace? depth (c :: cs) = (beforeBrace? depth cs).map (· + 1) := by
  rw [beforeBrace?.eq_def]
  simp [hopen, hclose, hquote]

theorem beforeBrace?_quote (h : isQuote quote) (depth : Nat) (cs : List Char) :
    beforeBrace? depth (quote :: cs) = (beforeQuote? quote depth cs).map (· + 1) := by
  rw [beforeBrace?.eq_def]
  obtain rfl | rfl | rfl := isQuote_iff.1 h <;> simp [isQuote]

theorem beforeQuote?_cons (hc : c ≠ '\\') (depth : Nat) (cs : List Char) :
    beforeQuote? quote depth (c :: cs) =
      if c = quote then (beforeBrace? depth cs).map (· + 1)
      else (beforeQuote? quote depth cs).map (· + 1) := by
  rw [beforeQuote?.eq_def]
  split
  · next h => cases h
  · next h => exact absurd (List.cons.inj h).1 hc
  · next h => exact absurd (List.cons.inj h).1 hc
  · next h =>
    obtain ⟨rfl, rfl⟩ := List.cons.inj h
    rfl

/-- Braces in quotes do not count. -/
theorem beforeQuote?_quoted {unescape : Char → Char} {text : List Char} (hquote : quote ≠ '\\')
    (h : Quoted unescape quote text ds) (depth : Nat) (rest : List Char) :
    beforeQuote? quote depth (ds ++ rest) = (beforeBrace? depth rest).map (· + ds.length) := by
  induction h with
  | close => rw [List.singleton_append, beforeQuote?_cons hquote, if_pos rfl]; rfl
  | plain hne hslash _ ih =>
    rw [List.cons_append, beforeQuote?_cons hslash, if_neg hne, ih, Option.map_map]
    rfl
  | escape c _ ih =>
    rw [List.cons_append, List.cons_append, beforeQuote?, ih, Option.map_map]
    rfl

/-- The search for a closing brace passes over balanced text. -/
theorem beforeBrace?_balanced (h : Balanced cs) (depth : Nat) (rest : List Char) :
    beforeBrace? depth (cs ++ rest) = (beforeBrace? depth rest).map (· + cs.length) := by
  induction h generalizing depth rest with
  | nil => simp
  | plain hopen hclose hquote _ ih =>
    rw [List.cons_append, beforeBrace?_plain hopen hclose hquote, ih, Option.map_map]
    rfl
  | @braces cs ds _ _ ihcs ihds =>
    rw [List.cons_append, List.append_assoc, List.cons_append, beforeBrace?_open, ihcs,
      beforeBrace?_close_succ, ihds]
    simp only [Option.map_map]
    congr 1
    funext n
    simp only [Function.comp, List.length_cons, List.length_append]
    omega
  | @quoted _ quote _ cs ds hquote hquoted _ ih =>
    have hslash : quote ≠ '\\' := by obtain rfl | rfl | rfl := isQuote_iff.1 hquote <;> decide
    rw [List.cons_append, List.append_assoc, beforeBrace?_quote hquote,
      beforeQuote?_quoted hslash hquoted, ih]
    simp only [Option.map_map]
    congr 1
    funext n
    simp only [Function.comp, List.length_cons, List.length_append]
    omega

theorem inBraces?_balanced (h : Balanced cs) (rest : List Char) :
    inBraces? (cs ++ '\x7d' :: rest) = some cs := by
  rw [inBraces?, beforeBrace?_balanced h, beforeBrace?_close]
  simp

/-- From inside of quotes, the search goes on behind their end. -/
theorem exists_quoted (h : beforeQuote? quote depth cs = some n) :
    ∃ text ds es m, Quoted id quote text ds ∧ cs = ds ++ es ∧ beforeBrace? depth es = some m ∧
      n = m + ds.length := by
  induction hlength : cs.length using Nat.strongRecOn generalizing cs n with
  | ind k ih =>
    cases cs with
    | nil => simp [beforeQuote?] at h
    | cons c cs =>
      rw [List.length_cons] at hlength
      by_cases hc : c = '\\'
      · subst hc
        cases cs with
        | nil => simp [beforeQuote?] at h
        | cons c cs =>
          rw [List.length_cons] at hlength
          obtain ⟨m, hm, rfl⟩ := Option.map_eq_some_iff.1 h
          obtain ⟨text, ds, es, m, hquoted, rfl, hes, rfl⟩ := ih cs.length (by omega) hm rfl
          exact ⟨c :: text, '\\' :: c :: ds, es, m, .escape c hquoted, rfl, hes, rfl⟩
      · rw [beforeQuote?_cons hc] at h
        split at h
        · next hend =>
          subst hend
          obtain ⟨m, hm, rfl⟩ := Option.map_eq_some_iff.1 h
          exact ⟨[], [c], cs, m, .close, rfl, hm, rfl⟩
        · next hne =>
          obtain ⟨m, hm, rfl⟩ := Option.map_eq_some_iff.1 h
          obtain ⟨text, ds, es, m, hquoted, rfl, hes, rfl⟩ := ih cs.length (by omega) hm rfl
          exact ⟨c :: text, c :: ds, es, m, .plain hne hc hquoted, rfl, hes, rfl⟩

/-- Balanced texts with a closing brace between each two: the partners of `depth` open braces. -/
def Closes : Nat → List Char → Prop
  | 0, cs => Balanced cs
  | depth + 1, cs => ∃ ds es, cs = ds ++ '\x7d' :: es ∧ Balanced ds ∧ Closes depth es

theorem Closes.behind {p : List Char} (hp : ∀ ds, Balanced ds → Balanced (p ++ ds))
    (h : Closes depth cs) : Closes depth (p ++ cs) := by
  cases depth with
  | zero => exact hp cs h
  | succ depth =>
    obtain ⟨ds, es, rfl, hds, hes⟩ := h
    exact ⟨p ++ ds, es, (List.append_assoc ..).symm, hp ds hds, hes⟩

theorem Closes.behind_open (h : Closes (depth + 1) cs) : Closes depth ('\x7b' :: cs) := by
  obtain ⟨ds, es, rfl, hds, hes⟩ := h
  have hpair (es : List Char) (hes : Balanced es) :
      Balanced ('\x7b' :: (ds ++ ['\x7d']) ++ es) := by
    simpa using Balanced.braces hds hes
  simpa using hes.behind hpair

/-- By induction on the length of the text, as the search goes on behind quotes. -/
theorem exists_closes (h : beforeBrace? depth cs = some n) :
    ∃ ds rest, cs = ds ++ '\x7d' :: rest ∧ n = ds.length ∧ Closes depth ds := by
  induction hlength : cs.length using Nat.strongRecOn generalizing depth cs n with
  | ind k ih =>
    cases cs with
    | nil => simp [beforeBrace?] at h
    | cons c cs =>
      rw [List.length_cons] at hlength
      by_cases hopen : c = '\x7b'
      · subst hopen
        rw [beforeBrace?_open] at h
        obtain ⟨m, hm, rfl⟩ := Option.map_eq_some_iff.1 h
        obtain ⟨ds, rest, rfl, rfl, hds⟩ := ih cs.length (by omega) hm rfl
        exact ⟨'\x7b' :: ds, rest, rfl, rfl, hds.behind_open⟩
      by_cases hclose : c = '\x7d'
      · subst hclose
        cases depth with
        | zero =>
          rw [beforeBrace?_close] at h
          cases h
          exact ⟨[], cs, rfl, rfl, .nil⟩
        | succ depth =>
          rw [beforeBrace?_close_succ] at h
          obtain ⟨m, hm, rfl⟩ := Option.map_eq_some_iff.1 h
          obtain ⟨ds, rest, rfl, rfl, hds⟩ := ih cs.length (by omega) hm rfl
          exact ⟨'\x7d' :: ds, rest, rfl, rfl, [], ds, rfl, .nil, hds⟩
      cases hquote : isQuote c with
      | false =>
        rw [beforeBrace?_plain hopen hclose hquote] at h
        obtain ⟨m, hm, rfl⟩ := Option.map_eq_some_iff.1 h
        obtain ⟨ds, rest, rfl, rfl, hds⟩ := ih cs.length (by omega) hm rfl
        exact ⟨c :: ds, rest, rfl, rfl, hds.behind (p := [c]) fun _ => .plain hopen hclose hquote⟩
      | true =>
        rw [beforeBrace?_quote hquote] at h
        obtain ⟨m, hm, rfl⟩ := Option.map_eq_some_iff.1 h
        obtain ⟨text, ds, es, m, hquoted, rfl, hes, rfl⟩ := exists_quoted hm
        rw [List.length_append] at hlength
        obtain ⟨fs, rest, rfl, rfl, hfs⟩ := ih es.length (by omega) hes rfl
        refine ⟨c :: (ds ++ fs), rest, by simp, ?_, ?_⟩
        · simp only [List.length_cons, List.length_append]
          omega
        · exact hfs.behind (p := c :: ds) fun _ => .quoted hquote hquoted

/-- What is found between single braces is what is balanced in front of a closing one. -/
theorem inBraces?_eq_some_iff :
    inBraces? cs = some inside ↔ Balanced inside ∧ ∃ rest, cs = inside ++ '\x7d' :: rest := by
  constructor
  · intro h
    obtain ⟨n, hn, rfl⟩ := Option.map_eq_some_iff.1 h
    obtain ⟨ds, rest, rfl, rfl, hds⟩ := exists_closes hn
    rw [List.take_left]
    exact ⟨hds, rest, rfl⟩
  · rintro ⟨h, rest, rfl⟩
    exact inBraces?_balanced h rest

/-- What is found between double braces is what stands in front of the first two closing ones. -/
theorem inDoubleBraces?_eq_some_iff :
    inDoubleBraces? cs = some inside ↔ ¬['\x7d', '\x7d'] <:+: inside ++ ['\x7d'] ∧
      ∃ rest, cs = inside ++ '\x7d' :: '\x7d' :: rest := by
  have hpair : ['\x7d', '\x7d'] ≠ [] := List.cons_ne_nil _ _
  rw [inDoubleBraces?, Option.map_eq_some_iff]
  constructor
  · rintro ⟨⟨_, rest⟩, hcut, rfl⟩
    obtain ⟨rfl, hfirst⟩ := (Text.cutAt?_eq_some_iff hpair).1 hcut
    exact ⟨hfirst, rest, rfl⟩
  · rintro ⟨hfirst, rest, rfl⟩
    exact ⟨(inside, rest), (Text.cutAt?_eq_some_iff hpair).2 ⟨rfl, hfirst⟩, rfl⟩

end Search

end PageCompiler.Markup
