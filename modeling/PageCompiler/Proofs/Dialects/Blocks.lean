import Mathlib
import PageCompiler.Proofs.Blanks
import PageCompiler.Proofs.Fragment

/-!
Tags of control flow between delimiters: each is read as the block that is written there, with its
expression trimmed.
-/

namespace PageCompiler

namespace Markup

/-- ASCII letters, digits and underscores, the first of which is no digit. -/
structure IsIdentifier (x : String) : Prop where
  head : x.toList.head?.any Text.startsIdentifier
  chars : ∀ c ∈ x.toList, Text.continuesIdentifier c

/-- Text of an expression that can be written between quotes and between delimiters. -/
structure IsExpressionText (s : String) : Prop where
  filled : ¬Text.isAllBlank s
  line : '\n' ∉ s.toList
  quote : '"' ∉ s.toList
  opening : '\x7b' ∉ s.toList
  closing : '\x7d' ∉ s.toList

section Characters

variable {x s : String} {c : Char}

theorem not_isBlank_of_continuesIdentifier (h : Text.continuesIdentifier c) :
    ¬Text.isBlank c := by
  rw [Text.continuesIdentifier, Bool.or_eq_true, decide_eq_true_eq] at h
  obtain h | rfl := h
  · have hends := not_endsTagName_of_isAlphanum h
    simp only [Step.endsTagName, Bool.or_eq_true, not_or] at hends
    exact hends.1.1
  · decide

theorem IsIdentifier.exists_cons (h : IsIdentifier x) :
    ∃ c cs, x.toList = c :: cs ∧ Text.startsIdentifier c ∧
      ∀ d ∈ cs, Text.continuesIdentifier d := by
  have hhead := h.head
  have hchars := h.chars
  cases hx : x.toList with
  | nil => simp [hx] at hhead
  | cons c cs =>
    rw [hx, List.forall_mem_cons] at hchars
    exact ⟨c, cs, rfl, by simpa [hx] using hhead, hchars.2⟩

theorem IsIdentifier.identifier?_append (h : IsIdentifier x) {cs : List Char}
    (hcs : cs.head?.any Text.continuesIdentifier = false) :
    Text.identifier? (x.toList ++ cs) = some (x.toList, cs) := by
  obtain ⟨c, ds, hx, hc, hds⟩ := h.exists_cons
  have htake : (ds ++ cs).takeWhile Text.continuesIdentifier = ds :=
    Text.takeWhile_append_of_head hds hcs
  have hdrop : (ds ++ cs).dropWhile Text.continuesIdentifier = cs := by
    rw [List.dropWhile_append_of_pos hds]
    cases cs with
    | nil => rfl
    | cons d cs => exact List.dropWhile_cons_of_neg (by simpa using hcs)
  rw [hx, List.cons_append, Text.identifier?, if_pos hc, htake, hdrop]

theorem IsExpressionText.trim_ne_nil (h : IsExpressionText s) : Text.trim s.toList ≠ [] := by
  intro hn
  obtain ⟨p, q, hs, hp, hq, -⟩ := Text.exists_trim s.toList
  rw [hn] at hs
  refine h.filled (List.all_eq_true.2 ?_)
  rw [hs]
  exact List.forall_mem_append.2 ⟨hp, hq⟩

end Characters

/-- Of a text behind a word, the blanks at its end go and those in front of it stay. -/
theorem IsExpressionText.trim_behind {s : String} (h : IsExpressionText s) {w : List Char}
    (hw : w.head?.any (!Text.isBlank ·)) :
    ∃ p, (∀ c ∈ p, Text.isBlank c) ∧
      Text.trim (' ' :: (w ++ ' ' :: s.toList ++ [' '])) =
        w ++ ' ' :: (p ++ Text.trim s.toList) := by
  obtain ⟨p, q, hs, hp, hq, hlast⟩ := Text.exists_trim s.toList
  obtain ⟨c, w, rfl⟩ : ∃ c ds, w = c :: ds :=
    List.exists_cons_of_ne_nil fun hn => by simp [hn] at hw
  refine ⟨p, hp, ?_⟩
  have hq : ∀ c ∈ q ++ [' '], Text.isBlank c :=
    List.forall_mem_append.2 ⟨hq, List.forall_mem_singleton.2 (by decide)⟩
  have hend : (c :: w ++ ' ' :: (p ++ Text.trim s.toList)).getLast?.all (!Text.isBlank ·) := by
    obtain ⟨d, ds, hd⟩ := List.exists_cons_of_ne_nil h.trim_ne_nil
    rw [hd] at hlast ⊢
    rw [← List.cons_append, ← List.append_assoc, List.getLast?_append_of_ne_nil _ (by simp)]
    exact hlast
  have htrim := Text.trim_append (p := [' ']) (List.forall_mem_singleton.2 (by decide)) hq
    (by simpa using hw) hend
  rw [← htrim]
  conv_lhs => rw [hs]
  simp

namespace Block

variable {x s : String} {b : Block}

def trimmed : Block → Block
  | loop item source => loop item (Text.trimmed source)
  | branch condition => branch (Text.trimmed condition)
  | otherBranch condition => otherBranch (Text.trimmed condition)
  | b => b

/-- The block is read again from its text. -/
def IsReadable : Block → Prop
  | loop item source => IsIdentifier item ∧ IsExpressionText source
  | branch condition | otherBranch condition => IsExpressionText condition
  | invalid _ => False
  | _ => True

theorem expressionOnLine?_trim (h : IsExpressionText s) :
    expressionOnLine? (Text.trim s.toList) = some (Text.trimmed s) := by
  obtain ⟨p, q, hs, -⟩ := Text.exists_trim s.toList
  have hline : '\n' ∉ Text.trim s.toList := by
    have hn := h.line
    rw [hs, List.mem_append, List.mem_append] at hn
    exact fun hm => hn (.inr (.inl hm))
  have hne : (Text.trim s.toList).isEmpty = false := by simpa using h.trim_ne_nil
  rw [expressionOnLine?, hne, List.contains_eq_mem, decide_eq_false hline]
  rfl

theorem read_of_trim {cs ds : List Char} (h : Text.trim cs = ds)
    (hne : ∀ w ∈ ["else", "endfor", "end for", "endif", "end if"], ds ≠ w.toList) :
    read cs = (((loop? ds).or (otherBranch? ds)).or (branch? ds)).getD (invalid (.ofList ds)) := by
  have hw (w : String) (hw : ds ≠ w.toList) : String.ofList ds ≠ w :=
    fun he => hw (by rw [← he, String.toList_ofList])
  simp only [List.mem_cons, List.not_mem_nil, or_false, forall_eq_or_imp, forall_eq] at hne
  simp [read, h, hw _ hne.1, hw _ hne.2.1, hw _ hne.2.2.1, hw _ hne.2.2.2.1, hw _ hne.2.2.2.2]

theorem read_loop (hx : IsIdentifier x) (hs : IsExpressionText s) :
    read (' ' :: ("for ".toList ++ x.toList ++ " in".toList ++ ' ' :: s.toList ++ [' '])) =
      loop x (Text.trimmed s) := by
  obtain ⟨p, hp, htrim⟩ :=
    hs.trim_behind (w := "for ".toList ++ x.toList ++ " in".toList) (by simp; decide)
  have hin := Text.afterWord?_append "in" (b := ' ') rfl hp (Text.head?_trim s.toList)
  have hhead : ("in".toList ++ ' ' :: (p ++ Text.trim s.toList)).head?.all (!Text.isBlank ·) := by
    simp
    decide
  generalize hcs :
    "for ".toList ++ x.toList ++ " in".toList ++ ' ' :: (p ++ Text.trim s.toList) = cs at htrim
  have hbehind : cs = "for".toList ++ ' ' :: ([] ++ (x.toList ++
      ' ' :: ("in".toList ++ ' ' :: (p ++ Text.trim s.toList)))) := by
    simp [← hcs]
  generalize "in".toList ++ ' ' :: (p ++ Text.trim s.toList) = rest at hin hhead hbehind
  have hblanks : Text.blanks? (' ' :: rest) = some rest := by
    rw [Text.blanks?, if_pos (by decide)]
    exact congrArg some (Text.trimStart_append (p := []) (List.forall_mem_nil _) hhead)
  have hitem : (x.toList ++ ' ' :: rest).head?.all (!Text.isBlank ·) := by
    obtain ⟨c, ds, hc, -⟩ := hx.exists_cons
    simpa [hc] using not_isBlank_of_continuesIdentifier (hx.chars c (by simp [hc]))
  have hfor := Text.afterWord?_append "for" (b := ' ') (p := []) rfl (List.forall_mem_nil _) hitem
  have hname : Text.identifier? (x.toList ++ ' ' :: rest) = some (x.toList, ' ' :: rest) :=
    hx.identifier?_append rfl
  have hloop : loop? cs = some (loop x (Text.trimmed s)) := by
    rw [loop?, hbehind, hfor]
    simp [hname, hblanks, hin, expressionOnLine?_trim hs]
  rw [read_of_trim htrim (by simp [← hcs]), hloop]
  rfl

theorem read_branch (hs : IsExpressionText s) :
    read (' ' :: ("if".toList ++ ' ' :: s.toList ++ [' '])) = branch (Text.trimmed s) := by
  obtain ⟨p, hp, htrim⟩ := hs.trim_behind (w := "if".toList) (by decide)
  have hif := Text.afterWord?_append "if" (b := ' ') rfl hp (Text.head?_trim s.toList)
  rw [read_of_trim htrim (by simp), branch?, hif]
  simp [loop?, otherBranch?, Text.afterWord?, Text.after?, expressionOnLine?_trim hs]

theorem read_otherBranch (hs : IsExpressionText s) :
    read (' ' :: ("elif".toList ++ ' ' :: s.toList ++ [' '])) = otherBranch (Text.trimmed s) := by
  obtain ⟨p, hp, htrim⟩ := hs.trim_behind (w := "elif".toList) (by decide)
  have helif := Text.afterWord?_append "elif" (b := ' ') rfl hp (Text.head?_trim s.toList)
  rw [read_of_trim htrim (by simp), otherBranch?, helif]
  simp [loop?, Text.afterWord?, Text.after?, expressionOnLine?_trim hs]

theorem scans_delimited (text : String) (ht : '\x7d' ∉ text.toList)
    (hread : read (' ' :: (text.toList ++ [' '])) = b) (file : String) (l : Location)
    (rest : List Char) :
    ∃ l', Scans file l (delimited text).toList rest [⟨.block b, l⟩] l' := by
  subst hread
  generalize hi : ' ' :: (text.toList ++ [' ']) = inside
  have hinside : '\x7d' ∉ inside := by simp [← hi, ht]
  have hcs : (delimited text).toList = '\x7b' :: '%' :: (inside ++ ['%', '\x7d']) := by
    simp [delimited, ← hi]
  have hnext : Step.next l '\x7b' ('%' :: (inside ++ ['%', '\x7d']) ++ rest) =
      Step.block (inside ++ (['%', '\x7d'] ++ rest)) := by
    rw [← List.append_assoc]
    rfl
  rw [hcs]
  refine scans_one file l rest ?_
  have hcut : Text.cutAt? "%\x7d".toList (inside ++ (['%', '\x7d'] ++ rest)) =
      some (inside, rest) := Text.cutAt?_pair hinside
  rw [hnext, Step.block, hcut]
  simp

/-- What is written for a block is scanned as that block, with its expression trimmed. -/
theorem scans_text (h : b.IsReadable) (file : String) (l : Location) (rest : List Char) :
    ∃ l', Scans file l b.text.toList rest [⟨.block b.trimmed, l⟩] l' := by
  cases b with
  | loop x s =>
    have hx : '\x7d' ∉ x.toList := fun hm => absurd (h.1.chars _ hm) (by decide)
    exact scans_delimited ("for " ++ x ++ " in " ++ s) (by simp [hx, h.2.closing])
      (by simpa [trimmed] using read_loop h.1 h.2) file l rest
  | branch s =>
    exact scans_delimited ("if " ++ s) (by simp [h.closing])
      (by simpa [trimmed] using read_branch h) file l rest
  | otherBranch s =>
    exact scans_delimited ("elif " ++ s) (by simp [h.closing])
      (by simpa [trimmed] using read_otherBranch h) file l rest
  | alternate => exact scans_delimited "else" (by decide) rfl file l rest
  | endLoop => exact scans_delimited "endfor" (by decide) rfl file l rest
  | endBranch => exact scans_delimited "endif" (by decide) rfl file l rest
  | invalid => exact h.elim

end Block

end Markup

end PageCompiler
