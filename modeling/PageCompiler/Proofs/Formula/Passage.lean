import PageCompiler.Proofs.Formula.Text
import PageCompiler.Proofs.Statements

/-!
Formulas inside a line. A slash is the only mark of a formula that could begin a comment, and
another token stands behind it. Main statement: the text of a formula neither ends a statement nor
begins a comment.
-/

namespace PageCompiler.Island.Formula

open Text (isBlank trimStart)
open Token (Spelled)

def slash : Token := .operator (.arithmetic .div)

/-- Behind every slash another token stands, and no other slash. -/
def SlashesApart : List Token → Prop
  | [] => True
  | t :: ts => (t = slash → ∃ u us, ts = u :: us ∧ u ≠ slash) ∧ SlashesApart ts

section Slashes

variable {t : Token} {ts us : List Token}

theorem SlashesApart.append (h : SlashesApart ts) (h' : SlashesApart us) :
    SlashesApart (ts ++ us) := by
  induction ts with
  | nil => exact h'
  | cons t ts ih =>
    refine ⟨?_, ih h.2⟩
    intro ht
    obtain ⟨u, us', rfl, hu⟩ := h.1 ht
    exact ⟨u, us' ++ us, rfl, hu⟩

theorem SlashesApart.cons (h : SlashesApart (slash :: us)) (t : Token) : SlashesApart (t :: us) :=
  ⟨fun _ => h.1 rfl, h.2⟩

theorem slashesApart_single (ht : t ≠ slash) : SlashesApart [t] :=
  ⟨fun h => absurd h ht, trivial⟩

/-- Any phrase may stand behind a slash. -/
theorem Phrase.slashesApart {parameter : String} {k : Nat} {f : Formula}
    (h : Phrase parameter k f ts) : SlashesApart (slash :: ts) := by
  have hbehind {u : Token} {us : List Token} (hu : u ≠ slash) (h : SlashesApart (u :: us)) :
      SlashesApart (slash :: u :: us) := ⟨fun _ => ⟨u, us, rfl, hu⟩, h⟩
  -- by the statement for its right operand, the slash of a division is covered as well
  induction h with
  | parameter => exact hbehind nofun (slashesApart_single nofun)
  | starred => exact hbehind nofun ⟨nofun, slashesApart_single nofun⟩
  | null => exact hbehind nofun (slashesApart_single nofun)
  | bool => exact hbehind nofun (slashesApart_single nofun)
  | whole => exact hbehind nofun (slashesApart_single nofun)
  | string => exact hbehind nofun (slashesApart_single nofun)
  | group _ ih => exact hbehind nofun ((ih.cons _).append (slashesApart_single nofun))
  | negated _ ih => exact hbehind nofun (ih.cons _)
  | not _ ih => exact hbehind nofun (ih.cons _)
  | binary _ _ ih ih' => exact ih.append (ih'.cons _)
  | lower _ ih => exact ih

end Slashes

section Passes

variable {t : Token} {ts : List Token} {cs rest : List Char}

theorem isPlain_of_continuesWord {c : Char} (h : Token.continuesWord c) : isPlain c :=
  isPlain_of_not_mark rfl h

theorem closedMark_cases {mark : List Char} (h : (t, mark) ∈ Token.closedMarks) :
    (t = slash ∧ mark = ['/']) ∨ mark.all isPlain := by
  simp only [Token.closedMarks, List.mem_cons, Prod.mk.injEq, List.not_mem_nil, or_false] at h
  obtain ⟨rfl, rfl⟩ | ⟨rfl, rfl⟩ | ⟨rfl, rfl⟩ | ⟨rfl, rfl⟩ | ⟨rfl, rfl⟩ | ⟨rfl, rfl⟩ |
    ⟨rfl, rfl⟩ | ⟨rfl, rfl⟩ | ⟨rfl, rfl⟩ | ⟨rfl, rfl⟩ | ⟨rfl, rfl⟩ | ⟨rfl, rfl⟩ |
    ⟨rfl, rfl⟩ := h
  case inr.inr.inr.inr.inr.inr.inr.inr.inr.inr.inr.inl => exact .inl ⟨rfl, rfl⟩
  all_goals exact .inr rfl

/-- A token is a slash, it is between quotes, or its characters mean nothing in a line. -/
theorem Spelled.cases (h : Spelled t cs rest) :
    (t = slash ∧ cs = ['/']) ∨ (∀ c ∈ cs, isPlain c) ∨
      ∃ quote text ds, (quote = '"' ∨ quote = '\'') ∧ Text.Quoted id quote text ds ∧
        cs = quote :: ds := by
  cases h with
  | word hname =>
    obtain ⟨c, ds, hspelled, hc, hds⟩ := hname
    right; left
    rw [hspelled, List.forall_mem_cons]
    rw [List.all_eq_true] at hds
    refine ⟨?_, fun d hd => isPlain_of_continuesWord (hds d hd)⟩
    apply isPlain_of_continuesWord
    simp only [Token.startsWord, Bool.or_eq_true] at hc
    simp only [Token.continuesWord, Bool.or_eq_true]
    exact hc.imp_left .inl
  | whole =>
    right; left
    intro c hc
    exact isPlain_of_continuesIdentifier (Decimal.continuesIdentifier_of_mem_toDigits hc)
  | string hquote h => exact .inr (.inr ⟨_, _, _, hquote, h, rfl⟩)
  | closedMark h => exact (closedMark_cases h).imp_right fun h => .inl (List.all_eq_true.1 h)
  | openMark h =>
    right; left
    simp only [Token.openMarks, List.mem_cons, Prod.mk.injEq, List.not_mem_nil, or_false] at h
    obtain ⟨-, rfl⟩ | ⟨-, rfl⟩ | ⟨-, rfl⟩ := h <;> exact List.all_eq_true.1 rfl

theorem Spelled.head_ne (h : Spelled t cs rest) (ht : t ≠ slash) : cs.head? ≠ some '/' := by
  obtain ⟨hslash, -⟩ | hplain | ⟨quote, text, ds, hquote, -, rfl⟩ := Spelled.cases h
  · exact absurd hslash ht
  · intro hhead
    exact absurd (hplain _ (List.mem_of_mem_head? hhead)) (by decide)
  · obtain rfl | rfl := hquote <;> simp

/-- No comment begins behind a slash, since its right operand stands there. -/
theorem head?_ne_of_spells {u : Token} (hu : u ≠ slash) (h : Text.Spells Spelled (u :: ts) cs)
    (tail : List Char) : (cs ++ tail).head? ≠ some '/' := by
  cases h with
  | @token blanks cs rest _ _ hblank hspelled _ =>
    cases blanks with
    | nil =>
      obtain ⟨c, ds, rfl, -⟩ := hspelled.begins
      show (c :: ds).head? ≠ some '/'
      exact Spelled.head_ne hspelled hu
    | cons b blanks =>
      rw [List.forall_mem_cons] at hblank
      rintro ⟨⟩
      exact absurd hblank.1 (by decide)

theorem passes_of_spells (h : Text.Spells Spelled ts cs) (hs : SlashesApart ts)
    (tail : List Char) : Passes cs tail := by
  induction h with
  | blank hblank => exact passes_blanks hblank tail
  | @token blanks cs rest t ts hblank hspelled hspells ih =>
    apply Passes.behind_blanks _ hblank
    apply Passes.append _ (ih hs.2)
    obtain ⟨hslash, rfl⟩ | hplain | ⟨quote, text, ds, hquote, hbody, rfl⟩ := Spelled.cases hspelled
    · obtain ⟨u, us, rfl, hu⟩ := hs.1 hslash
      exact passes_slash (head?_ne_of_spells hu hspells tail)
    · exact passes_plain hplain _
    · exact passes_quoted hquote hbody _

theorem ne_nil_of_spells (h : Text.Spells Spelled (t :: ts) cs) : cs ≠ [] := by
  cases h with
  | token _ hspelled _ =>
    obtain ⟨c, ds, rfl, -⟩ := hspelled.begins
    simp

theorem spells_trimStart (h : Text.Spells Spelled ts cs) :
    Text.Spells Spelled ts (trimStart cs) := by
  cases h with
  | blank hblank =>
    have hnil : Text.trimStart (cs ++ []) = [] := Text.trimStart_append hblank rfl
    rw [List.append_nil] at hnil
    rw [hnil]
    exact .blank (List.forall_mem_nil _)
  | token hblank hspelled hspells =>
    obtain ⟨c, ds, rfl, hc, -⟩ := hspelled.begins
    rw [Text.trimStart_append hblank (by simpa using hc)]
    exact .token (List.forall_mem_nil _) hspelled hspells

end Passes

end PageCompiler.Island.Formula
