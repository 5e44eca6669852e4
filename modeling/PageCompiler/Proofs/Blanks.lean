import Mathlib
import PageCompiler.Text.Word
import PageCompiler.Proofs.Search

/-!
Blanks around a text and the words in it: trimming takes away the blanks and nothing else, and a
run of characters ends where the first other character stands.
-/

namespace PageCompiler.Text

theorem takeWhile_append_of_head {p : Char → Bool} {cs rest : List Char} (h : ∀ c ∈ cs, p c)
    (hr : rest.head?.any p = false) : (cs ++ rest).takeWhile p = cs := by
  have hnil : rest.takeWhile p = [] := by cases rest <;> simp_all
  rw [List.takeWhile_append_of_pos h, hnil, List.append_nil]

theorem isBlank_of_isAlphanum {c : Char} (h : c.isAlphanum) : isBlank c = false := by
  simp only [Char.isAlphanum, Char.isAlpha, Char.isUpper, Char.isLower, Char.isDigit,
    Bool.or_eq_true, Bool.and_eq_true, decide_eq_true_eq, ge_iff_le, UInt32.le_iff_toNat_le] at h
  simp [isBlank]
  simp at h
  omega

variable {p q cs : List Char}

theorem trimStart_append (hp : ∀ c ∈ p, isBlank c) (hc : cs.head?.all (!isBlank ·)) :
    trimStart (p ++ cs) = cs := by
  rw [trimStart, List.dropWhile_append_of_pos hp]
  cases cs with
  | nil => rfl
  | cons c cs => exact List.dropWhile_cons_of_neg (by simpa using hc)

theorem trimEnd_append (hq : ∀ c ∈ q, isBlank c) (hc : cs.getLast?.all (!isBlank ·)) :
    trimEnd (cs ++ q) = cs := by
  have hblank : ∀ c ∈ q.reverse, isBlank c := fun c hm => hq c (List.mem_reverse.1 hm)
  have hhead : cs.reverse.head?.all (!isBlank ·) := by rwa [List.head?_reverse]
  have h := trimStart_append hblank hhead
  rw [trimStart, ← List.reverse_append] at h
  rw [trimEnd, dropEndWhile, h, List.reverse_reverse]

/-- Trimming takes nothing but the blanks around a text that neither begins nor ends with one. -/
theorem trim_append (hp : ∀ c ∈ p, isBlank c) (hq : ∀ c ∈ q, isBlank c)
    (hs : cs.head?.all (!isBlank ·)) (he : cs.getLast?.all (!isBlank ·)) :
    trim (p ++ (cs ++ q)) = cs := by
  cases cs with
  | nil =>
    have hpq : ∀ c ∈ p ++ q, isBlank c := List.forall_mem_append.2 ⟨hp, hq⟩
    rw [List.nil_append, trim, ← List.append_nil (p ++ q), trimStart_append hpq rfl]
    rfl
  | cons c cs =>
    have hs : (c :: cs ++ q).head?.all (!isBlank ·) := hs
    rw [trim, trimStart_append hp hs, trimEnd_append hq he]

/-- Nothing is dropped in front of a character that is kept. -/
theorem dropEndWhile_append {f : Char → Bool} {c : Char} (h : f c = false) (p cs : List Char) :
    dropEndWhile f (p ++ c :: cs) = p ++ c :: dropEndWhile f cs := by
  rw [dropEndWhile, dropEndWhile, List.reverse_append, List.reverse_cons, List.append_assoc,
    List.dropWhile_append]
  split
  · next hempty =>
    rw [List.isEmpty_iff] at hempty
    simp [hempty, h]
  · simp

theorem dropEndWhile_prefix (f : Char → Bool) (cs : List Char) : dropEndWhile f cs <+: cs :=
  List.rdropWhile_prefix f cs

theorem exists_trimStart (cs : List Char) :
    ∃ p, (∀ c ∈ p, isBlank c) ∧ cs = p ++ trimStart cs :=
  ⟨cs.takeWhile isBlank, fun _ => List.mem_takeWhile_imp, List.takeWhile_append_dropWhile.symm⟩

theorem exists_trimEnd (cs : List Char) :
    ∃ q, cs = trimEnd cs ++ q ∧ (∀ c ∈ q, isBlank c) ∧ (trimEnd cs).getLast?.all (!isBlank ·) := by
  refine ⟨(cs.reverse.takeWhile isBlank).reverse, ?_, fun c hc => ?_, ?_⟩
  · rw [trimEnd, dropEndWhile, ← List.reverse_append, List.takeWhile_append_dropWhile,
      List.reverse_reverse]
  · exact List.mem_takeWhile_imp (List.mem_reverse.1 hc)
  · rw [trimEnd, dropEndWhile, List.getLast?_reverse, Option.all_eq_true]
    intro c hc
    have hnot := List.head?_dropWhile_not isBlank cs.reverse
    rw [hc] at hnot
    simpa using hnot

/-- What is trimmed away is blank, and what is left does not end with a blank. -/
theorem exists_trim (cs : List Char) :
    ∃ p q, cs = p ++ (trim cs ++ q) ∧ (∀ c ∈ p, isBlank c) ∧ (∀ c ∈ q, isBlank c) ∧
      (trim cs).getLast?.all (!isBlank ·) := by
  obtain ⟨p, hp, hcs⟩ := exists_trimStart cs
  obtain ⟨q, hq, hblank, hlast⟩ := exists_trimEnd (trimStart cs)
  refine ⟨p, q, ?_, hp, hblank, hlast⟩
  rw [trim, ← hq, ← hcs]

theorem head?_trim (cs : List Char) : (trim cs).head?.all (!isBlank ·) := by
  obtain ⟨q, hq, -⟩ := exists_trimEnd (trimStart cs)
  rw [Option.all_eq_true]
  intro c hc
  have hhead : (trimStart cs).head? = some c := by
    rw [hq, List.head?_append, ← trim, hc]
    rfl
  have hnot := List.head?_dropWhile_not isBlank cs
  rw [← trimStart, hhead] at hnot
  simpa using hnot

/-- Blanks around a text make no difference. -/
theorem trim_around (hp : ∀ c ∈ p, isBlank c) (hq : ∀ c ∈ q, isBlank c) :
    trim (p ++ (cs ++ q)) = trim cs := by
  obtain ⟨before, behind, hcs, hbefore, hbehind, hlast⟩ := exists_trim cs
  have hshape : p ++ (cs ++ q) = (p ++ before) ++ (trim cs ++ (behind ++ q)) := by
    nth_rewrite 1 [hcs]
    simp
  rw [hshape]
  exact trim_append (List.forall_mem_append.2 ⟨hp, hbefore⟩)
    (List.forall_mem_append.2 ⟨hbehind, hq⟩) (head?_trim cs) hlast

theorem trim_trim (cs : List Char) : trim (trim cs) = trim cs := by
  obtain ⟨-, -, -, -, -, hlast⟩ := exists_trim cs
  have h := trim_append (List.forall_mem_nil _) (List.forall_mem_nil _) (head?_trim cs) hlast
  rwa [List.nil_append, List.append_nil] at h

/-- A trimmed text begins with the first character that is not blank. -/
theorem head?_trim_eq (cs : List Char) : (trim cs).head? = cs.find? (!isBlank ·) := by
  obtain ⟨p, q, hcs, hp, hq, -⟩ := exists_trim cs
  have hblank {bs : List Char} (h : ∀ c ∈ bs, isBlank c) : bs.find? (!isBlank ·) = none :=
    List.find?_eq_none.2 fun c hc => by simp [h c hc]
  have hhead := head?_trim cs
  nth_rewrite 2 [hcs]
  rw [List.find?_append, List.find?_append, hblank hp, hblank hq, Option.none_or, Option.or_none]
  cases htrim : trim cs with
  | nil => rfl
  | cons c ds =>
    have hc : isBlank c = false := by simpa [htrim] using hhead
    simp [hc]

theorem isBlank_or_mem_trim {c : Char} (h : c ∈ cs) : isBlank c ∨ c ∈ trim cs := by
  obtain ⟨p, q, hcs, hp, hq, -⟩ := exists_trim cs
  rw [hcs, List.mem_append, List.mem_append] at h
  obtain h | h | h := h
  · exact .inl (hp c h)
  · exact .inr h
  · exact .inl (hq c h)

/-- Behind a word and blanks goes on what does not begin with a blank. -/
theorem afterWord?_append (word : String) {b : Char} (hb : isBlank b) (hp : ∀ c ∈ p, isBlank c)
    (hc : cs.head?.all (!isBlank ·)) :
    afterWord? word (word.toList ++ b :: (p ++ cs)) = some cs := by
  rw [afterWord?, after?_append, Option.bind_some, blanks?, if_pos hb, trimStart_append hp hc]

end PageCompiler.Text
