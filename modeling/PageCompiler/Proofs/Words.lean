import Mathlib
import PageCompiler.Text.Search

/-!
Words that are written one after the other: what is joined with spaces can be split again. A
numeral is a word.
-/

namespace PageCompiler.Text

theorem splitOn_ne_nil (sep : Char) (cs : List Char) : splitOn sep cs ≠ [] := by
  cases cs with
  | nil => exact List.cons_ne_nil _ _
  | cons c cs =>
    rw [splitOn]
    split
    · exact List.cons_ne_nil _ _
    · split <;> exact List.cons_ne_nil _ _

theorem splitOn_append (sep : Char) (cs ds : List Char) :
    splitOn sep (cs ++ sep :: ds) = splitOn sep cs ++ splitOn sep ds := by
  induction cs with
  | nil => simp [splitOn]
  | cons c cs ih =>
    rw [List.cons_append, splitOn, splitOn, ih]
    split
    · rfl
    · cases h : splitOn sep cs with
      | nil => exact absurd h (splitOn_ne_nil sep cs)
      | cons piece pieces => rfl

theorem splitOn_of_notMem {sep : Char} {cs : List Char} (h : sep ∉ cs) :
    splitOn sep cs = [cs] := by
  induction cs with
  | nil => rfl
  | cons c cs ih =>
    rw [List.mem_cons, not_or] at h
    rw [splitOn, if_neg (Ne.symm h.1), ih h.2]

theorem notMem_of_mem_splitOn (sep : Char) (cs : List Char) :
    ∀ piece ∈ splitOn sep cs, sep ∉ piece := by
  induction cs with
  | nil => exact List.forall_mem_singleton.2 List.not_mem_nil
  | cons c cs ih =>
    rw [splitOn]
    split
    · exact List.forall_mem_cons.2 ⟨List.not_mem_nil, ih⟩
    · next hc =>
      split
      · next hnil => exact absurd hnil (splitOn_ne_nil sep cs)
      · next piece pieces hpieces =>
        rw [hpieces, List.forall_mem_cons] at ih
        rw [List.forall_mem_cons, List.mem_cons, not_or]
        exact ⟨⟨Ne.symm hc, ih.1⟩, ih.2⟩

/-- The lines are what stands between the line feeds, but for the carriage returns in front of
these and for an empty end. -/
theorem exists_lines (cs : List Char) :
    ∃ start last, splitOn '\n' cs = start ++ [last] ∧
      lines cs = (start.map fun l => if l.getLast? = some '\r' then l.dropLast else l) ++
        if last = [] then [] else [last] := by
  obtain hnil | ⟨start, last, hsplit⟩ := (splitOn '\n' cs).eq_nil_or_concat
  · exact absurd hnil (splitOn_ne_nil _ _)
  · rw [List.concat_eq_append] at hsplit
    refine ⟨start, last, hsplit, ?_⟩
    cases last <;> simp [lines, hsplit]

/-- The words of a text are what stands between its spaces. -/
def words (s : String) : List String := (splitOn ' ' s.toList).map String.ofList

theorem words_of_notMem {s : String} (h : ' ' ∉ s.toList) : words s = [s] := by
  rw [words, splitOn_of_notMem h, List.map_singleton, String.ofList_toList]

theorem words_join {ss : List String} (h : ss ≠ []) : words (join " " ss) = ss.flatMap words := by
  induction ss with
  | nil => exact absurd rfl h
  | cons s ss ih =>
    cases ss with
    | nil => simp [join]
    | cons t ss =>
      have hj : join " " (s :: t :: ss) = s ++ " " ++ join " " (t :: ss) := rfl
      rw [List.flatMap_cons, ← ih (List.cons_ne_nil t ss), hj]
      simp [words, splitOn_append]

theorem space_notMem_toDigits (n : Nat) : ' ' ∉ Nat.toDigits 10 n :=
  fun h => absurd (Nat.isDigit_of_mem_toDigits (by decide) (by decide) h) (by decide)

end PageCompiler.Text
