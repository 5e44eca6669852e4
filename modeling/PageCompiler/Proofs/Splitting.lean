import PageCompiler.Proofs.BraceForms
import PageCompiler.Proofs.Pieces

/-!
What a text is split into. Main statement: it falls into pieces of which its parts are made in
order, and there is one way only to do so that leaves no expression in plain text, no plain text
empty and none next to another.
-/

namespace PageCompiler.Markup

namespace Piece

def IsText : Piece → Prop
  | text _ => True
  | _ => False

/-- Single braces are partners and hold an expression; double braces end at the first two closing
ones. -/
def IsValid : Piece → Prop
  | text cs => cs ≠ []
  | single inside => Balanced inside ∧ isExpression inside
  | double inside => ¬['\x7d', '\x7d'] <:+: inside ++ ['\x7d']

/-- Braces that may stand at the beginning of a text. -/
structure Opens (p : Piece) (cs : List Char) : Prop where
  braces : ¬p.IsText
  valid : p.IsValid
  source : p.source <+: cs

/-- No braces begin in the plain text `cs` in front of `rest`. -/
def IsPlain (cs rest : List Char) : Prop :=
  ∀ before behind, cs = before ++ '\x7b' :: behind →
    ∀ p : Piece, ¬p.Opens ('\x7b' :: (behind ++ rest))

/-- Pieces in order: none of plain text is next to another, and in none do braces begin. -/
structure Splits (ps : List Piece) : Prop where
  valid : ∀ p ∈ ps, p.IsValid
  apart : ps.IsChain fun p q => ¬(p.IsText ∧ q.IsText)
  complete : ∀ cs rest, text cs :: rest <:+ ps → IsPlain cs (rest.flatMap source)

section Opens

variable {p q : Piece} {cs ds : List Char}

theorem exists_source_eq (h : ¬p.IsText) : ∃ ds, p.source = '\x7b' :: ds := by
  cases p with
  | text => exact absurd trivial h
  | single | double => exact ⟨_, rfl⟩

theorem exists_of_isText (h : p.IsText) : ∃ cs, p = text cs := by
  cases p with
  | text cs => exact ⟨cs, rfl⟩
  | single | double => exact absurd h id

theorem source_ne_nil (h : p.IsValid) : p.source ≠ [] := by
  cases p with
  | text => exact h
  | single | double => exact List.cons_ne_nil _ _

theorem isExpressionPart_part (p : Piece) : isExpressionPart p.part ↔ ¬p.IsText := by
  cases p <;> simp [part, isExpressionPart, IsText]

theorem ne_empty_of_part (h : p.IsValid) {t : String} (ht : p.part = .text t) : t ≠ "" := by
  cases p with
  | text cs =>
    obtain rfl := Part.text.inj ht
    simpa [← String.toList_inj, IsValid] using h
  | single | double => cases ht

theorem head?_of_isExpression (h : isExpression cs) : cs.head? ≠ some '\x7b' := by
  cases hx : Expr.parse (.ofList cs) with
  | error e => simp [isExpression, hx, Except.isOk, Except.toBool] at h
  | ok x => exact (head?_lexed (lexed_of_parse hx)).1

/-- Behind an open brace the braces are found that may stand there. -/
theorem braced?_eq_some_iff : braced? cs = some p ↔ p.Opens ('\x7b' :: cs) := by
  constructor
  · intro h
    have hsource : p.source <+: '\x7b' :: cs := ⟨_, (braced?_eq_some h).1.symm⟩
    unfold braced? at h
    split at h
    · obtain ⟨inside, hi, rfl⟩ := Option.map_eq_some_iff.1 h
      exact ⟨id, (inDoubleBraces?_eq_some_iff.1 hi).1, hsource⟩
    · obtain ⟨inside, hi, rfl⟩ := Option.map_eq_some_iff.1 h
      obtain ⟨hi, hx⟩ := Option.filter_eq_some_iff.1 hi
      exact ⟨id, ⟨(inBraces?_eq_some_iff.1 hi).1, hx⟩, hsource⟩
  · rintro ⟨hbraces, hvalid, rest, hrest⟩
    cases p with
    | text => exact absurd trivial hbraces
    | single inside =>
      obtain ⟨hbalanced, hx⟩ := hvalid
      obtain rfl : inside ++ '\x7d' :: rest = cs := by simpa [source] using hrest
      have hhead : (inside ++ '\x7d' :: rest).head? ≠ some '\x7b' := by
        have hinside := head?_of_isExpression hx
        cases inside <;> simp_all
      rw [braced?_of_head hhead, inBraces?_balanced hbalanced, Option.filter_some_pos hx,
        Option.map_some]
    | double inside =>
      obtain rfl : '\x7b' :: (inside ++ '\x7d' :: '\x7d' :: rest) = cs := by
        simpa [source] using hrest
      rw [braced?, inDoubleBraces?_eq_some_iff.2 ⟨hvalid, rest, rfl⟩, Option.map_some]

theorem Opens.eq (hp : p.Opens ds) (hq : q.Opens ds) : p = q := by
  obtain ⟨es, hes⟩ := exists_source_eq hp.braces
  obtain ⟨cs, rfl⟩ : ∃ cs, ds = '\x7b' :: cs := by
    obtain ⟨rest, rfl⟩ := hp.source
    exact ⟨es ++ rest, by rw [hes, List.cons_append]⟩
  exact Option.some.inj ((braced?_eq_some_iff.2 hp).symm.trans (braced?_eq_some_iff.2 hq))

end Opens

section Splits

variable {c : Char} {cs ds literal : List Char} {p q : Piece} {ps qs : List Piece}

theorem IsPlain.concat (h : IsPlain literal (c :: cs)) (hc : c = '\x7b' → braced? cs = none) :
    IsPlain (literal ++ [c]) cs := by
  intro before behind heq p hp
  obtain rfl | ⟨behind, d, rfl⟩ := List.eq_nil_or_concat behind
  · obtain ⟨-, rfl⟩ := List.append_singleton_inj.1 heq
    have hsome : braced? cs = some p := braced?_eq_some_iff.2 hp
    rw [hc rfl] at hsome
    cases hsome
  · rw [List.concat_eq_append, ← List.cons_append, ← List.append_assoc] at heq
    obtain ⟨rfl, rfl⟩ := List.append_singleton_inj.1 heq
    exact h before behind rfl p (by simpa using hp)

theorem Splits.nil : Splits [] where
  valid := List.forall_mem_nil _
  apart := .nil
  complete cs rest h := by simp at h

theorem Splits.tail (h : Splits (p :: ps)) : Splits ps where
  valid := (List.forall_mem_cons.1 h.valid).2
  apart := h.apart.tail
  complete cs rest hs := h.complete cs rest (hs.trans (List.suffix_cons p ps))

theorem Splits.braces (h : Splits ps) (hp : ¬p.IsText) (hvalid : p.IsValid) :
    Splits (p :: ps) where
  valid := List.forall_mem_cons.2 ⟨hvalid, h.valid⟩
  apart := List.isChain_cons.2 ⟨fun _ _ hboth => hp hboth.1, h.apart⟩
  complete cs rest hs := by
    obtain heq | hs := List.suffix_cons_iff.1 hs
    · obtain ⟨rfl, -⟩ := List.cons.inj heq
      exact absurd trivial hp
    · exact h.complete cs rest hs

/-- Plain text comes in front of braces, or at the end. -/
theorem Splits.textPiece (h : Splits ps) (hhead : ∀ p ∈ ps.head?, ¬p.IsText)
    (hplain : IsPlain literal (ps.flatMap source)) : Splits (textPiece literal ++ ps) := by
  unfold Markup.textPiece
  split
  · exact h
  · next hne =>
    rw [List.isEmpty_iff] at hne
    refine ⟨List.forall_mem_cons.2 ⟨hne, h.valid⟩, ?_, fun cs rest hs => ?_⟩
    · exact List.isChain_cons.2 ⟨fun p hp hboth => hhead p hp hboth.2, h.apart⟩
    · obtain heq | hs := List.suffix_cons_iff.1 hs
      · obtain ⟨hcs, rfl⟩ := List.cons.inj heq
        obtain rfl := text.inj hcs
        exact hplain
      · exact h.complete cs rest hs

theorem splits_piecesAfter (h : IsPlain literal cs) : Splits (piecesAfter literal cs) := by
  fun_induction piecesAfter literal cs with
  | case1 literal => simpa using Splits.nil.textPiece (by simp) h
  | case2 literal cs p hp ih =>
    have hopens := braced?_eq_some_iff.1 hp
    have hempty : IsPlain [] (cs.drop (p.source.length - 1)) := fun _ _ heq => by simp at heq
    refine ((ih hempty).braces hopens.braces hopens.valid).textPiece ?_ ?_
    · simpa using hopens.braces
    · rwa [List.flatMap_cons, piecesAfter_source, List.nil_append, ← (braced?_eq_some hp).1]
  | case3 literal cs hp ih => exact ih (h.concat fun _ => hp)
  | case4 literal c cs hc ih => exact ih (h.concat fun heq => absurd heq hc)

/-- Of two ways to split a text, the first plain text of one does not go on in the other: what comes
next in the one would be braces, and none begin in the other. -/
theorem Splits.source_ne (hp : Splits (text cs :: ps)) {d : Char} {behind rest : List Char}
    (hplain : IsPlain (cs ++ d :: behind) rest) : ps.flatMap source ≠ d :: behind ++ rest := by
  intro heq
  cases ps with
  | nil => simp at heq
  | cons p ps =>
    have hbraces : ¬p.IsText := fun ht => (List.isChain_cons_cons.1 hp.apart).1 ⟨trivial, ht⟩
    obtain ⟨es, hes⟩ := exists_source_eq hbraces
    have hd : d = '\x7b' := by simpa [hes] using congrArg List.head? heq.symm
    subst hd
    exact hplain cs behind rfl p ⟨hbraces, hp.valid p (by simp), _, heq⟩

theorem Splits.text_eq (hp : Splits (text cs :: ps)) (hq : Splits (text ds :: qs))
    (h : cs ++ ps.flatMap source = ds ++ qs.flatMap source) : cs = ds := by
  have hcs : IsPlain cs (ps.flatMap source) := hp.complete cs ps List.suffix_rfl
  have hds : IsPlain ds (qs.flatMap source) := hq.complete ds qs List.suffix_rfl
  obtain ⟨more, rfl, hmore⟩ | ⟨more, rfl, hmore⟩ := List.append_eq_append_iff.1 h
  · cases more with
    | nil => exact (List.append_nil cs).symm
    | cons d more => exact absurd hmore (hp.source_ne hds)
  · cases more with
    | nil => exact List.append_nil ds
    | cons d more => exact absurd hmore (hq.source_ne hcs)

/-- A text that begins with braces does not begin with plain text. -/
theorem Splits.not_opens (hp : Splits (text cs :: ps)) : ¬q.Opens (cs ++ ps.flatMap source) := by
  intro hq
  have hcs : cs ≠ [] := hp.valid (text cs) List.mem_cons_self
  obtain ⟨es, hes⟩ := exists_source_eq hq.braces
  obtain ⟨c, cs, rfl⟩ := List.exists_cons_of_ne_nil hcs
  obtain ⟨rest, hrest⟩ := hq.source
  obtain rfl : '\x7b' = c := by simpa [hes] using congrArg List.head? hrest
  exact hp.complete _ ps List.suffix_rfl [] cs rfl q hq

theorem Splits.opens (hp : Splits (p :: ps)) (hbraces : ¬p.IsText) :
    p.Opens ((p :: ps).flatMap source) :=
  ⟨hbraces, hp.valid p List.mem_cons_self, List.prefix_append _ _⟩

theorem Splits.head_eq (hp : Splits (p :: ps)) (hq : Splits (q :: qs))
    (h : (p :: ps).flatMap source = (q :: qs).flatMap source) : p = q := by
  by_cases hpt : p.IsText <;> by_cases hqt : q.IsText
  · obtain ⟨cs, rfl⟩ := exists_of_isText hpt
    obtain ⟨ds, rfl⟩ := exists_of_isText hqt
    rw [hp.text_eq hq h]
  · obtain ⟨cs, rfl⟩ := exists_of_isText hpt
    exact absurd (h ▸ hq.opens hqt) hp.not_opens
  · obtain ⟨ds, rfl⟩ := exists_of_isText hqt
    exact absurd (h ▸ hp.opens hpt) hq.not_opens
  · exact (hp.opens hpt).eq (h ▸ hq.opens hqt)

/-- The text determines its pieces. -/
theorem Splits.eq (hp : Splits ps) (hq : Splits qs)
    (h : ps.flatMap source = qs.flatMap source) : ps = qs := by
  induction ps generalizing qs with
  | nil =>
    cases qs with
    | nil => rfl
    | cons q qs => exact absurd h.symm (by simp [source_ne_nil (hq.valid q List.mem_cons_self)])
  | cons p ps ih =>
    cases qs with
    | nil => exact absurd h (by simp [source_ne_nil (hp.valid p List.mem_cons_self)])
    | cons q qs =>
      obtain rfl := hp.head_eq hq h
      rw [List.flatMap_cons, List.flatMap_cons, List.append_cancel_left_eq] at h
      rw [ih hp.tail hq.tail h]

end Splits

end Piece

open Piece (Splits)

/-- A text is its pieces one behind the other, and its parts are theirs. No text among the parts is
empty or next to another. No other pieces are those of the text. -/
theorem splitParts_splits (text : String) :
    ∃ ps : List Piece, Splits ps ∧ ps.flatMap Piece.source = text.toList ∧
      splitParts text = ps.map Piece.part ∧
      (∀ t, Part.text t ∈ splitParts text → t ≠ "") ∧
      (splitParts text).IsChain (fun p q => isExpressionPart p ∨ isExpressionPart q) ∧
      ∀ qs : List Piece, Splits qs → qs.flatMap Piece.source = text.toList → qs = ps := by
  have hplain : Piece.IsPlain [] text.toList := fun _ _ heq => by simp at heq
  have hsplits : Splits (pieces text) := Piece.splits_piecesAfter hplain
  have hsource : (pieces text).flatMap Piece.source = text.toList := piecesAfter_source [] _
  refine ⟨pieces text, hsplits, hsource, splitParts_eq text, ?_, ?_, ?_⟩
  · intro t ht
    rw [splitParts_eq] at ht
    obtain ⟨p, hp, hpart⟩ := List.mem_map.1 ht
    exact Piece.ne_empty_of_part (hsplits.valid p hp) hpart
  · rw [splitParts_eq, List.isChain_map]
    refine hsplits.apart.imp fun p q h => ?_
    rw [Piece.isExpressionPart_part, Piece.isExpressionPart_part]
    exact not_and_or.1 h
  · intro qs hqs hqsource
    exact hqs.eq hsplits (hqsource.trans hsource.symm)

/-- Two braces that are not closed by two, braces that hold no expression, and one in quotes. -/
example : splitParts "\x7b\x7bx\x7d \x7b1 +\x7d\x7b y['\x7d'] \x7d" =
    [.text "\x7b", .expression "x", .text " \x7b1 +\x7d", .expression "y['\x7d']"] := by
  decide +kernel

end PageCompiler.Markup
