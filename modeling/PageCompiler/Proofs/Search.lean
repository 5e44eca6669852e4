import PageCompiler.Text.Search

/-!
What is found in a text: the first place of a mark is the one where it was put, unless the text in
front of it holds the mark, or the end of that text makes one with it. And what is left of marks
that are replaced: with a character put into each, none is left.
-/

namespace PageCompiler.Text

variable {p t cs rest : List Char}

@[simp] theorem after?_append (p rest : List Char) : after? p (p ++ rest) = some rest := by
  induction p with
  | nil => rfl
  | cons x p ih => simp [after?, ih]

theorem after?_eq_some_iff : after? p cs = some rest ↔ cs = p ++ rest where
  mp h := by
    fun_induction after? p cs with
    | case1 => exact Option.some.inj h
    | case2 => cases h
    | case3 x p cs ih => rw [ih h, List.cons_append]
    | case4 => cases h
  mpr h := h ▸ after?_append p rest

theorem after?_eq_none (h : ¬p <+: cs) : after? p cs = none := by
  cases ha : after? p cs with
  | none => rfl
  | some rest => exact absurd ⟨rest, (after?_eq_some_iff.1 ha).symm⟩ h

theorem cutAt?_of_after? (h : after? p cs = some rest) : cutAt? p cs = some ([], rest) := by
  cases cs with
  | nil =>
    obtain ⟨rfl, rfl⟩ : p = [] ∧ rest = [] := by simpa using (after?_eq_some_iff.1 h).symm
    rfl
  | cons c cs => simp [cutAt?, h]

theorem cutAt?_eq_none (h : ¬p <:+: cs) : cutAt? p cs = none := by
  induction cs with
  | nil => rw [cutAt?, after?_eq_none fun hp => h hp.isInfix, Option.map_none]
  | cons c cs ih =>
    rw [cutAt?, after?_eq_none fun hp => h hp.isInfix,
      ih fun hp => h (hp.trans (List.suffix_cons c cs).isInfix), Option.map_none]

theorem eq_of_cutAt? {before : List Char} (h : cutAt? p cs = some (before, rest)) :
    cs = before ++ (p ++ rest) := by
  induction cs generalizing before with
  | nil =>
    obtain ⟨r, hr, he⟩ := Option.map_eq_some_iff.1 h
    cases he
    simpa using after?_eq_some_iff.1 hr
  | cons c cs ih =>
    rw [cutAt?] at h
    split at h
    · next r hr =>
      cases h
      rw [after?_eq_some_iff.1 hr, List.nil_append]
    · obtain ⟨⟨b, r⟩, hr, he⟩ := Option.map_eq_some_iff.1 h
      cases he
      rw [ih hr, List.cons_append]

/-- The cut is made at the first place. -/
theorem not_infix_of_cutAt? {before : List Char} (hp : p ≠ [])
    (h : cutAt? p cs = some (before, rest)) : ¬p <:+: before := by
  induction cs generalizing before with
  | nil =>
    obtain ⟨r, hr, he⟩ := Option.map_eq_some_iff.1 h
    cases he
    simpa using hp
  | cons c cs ih =>
    have hcs := eq_of_cutAt? h
    rw [cutAt?] at h
    split at h
    · cases h
      simpa using hp
    · next hnone =>
      obtain ⟨⟨b, r⟩, hr, he⟩ := Option.map_eq_some_iff.1 h
      cases he
      rw [List.infix_cons_iff, not_or]
      refine ⟨fun hpre => ?_, ih hr⟩
      obtain ⟨d, hd⟩ := hpre.trans (List.prefix_append (c :: b) (p ++ rest))
      rw [hcs, ← hd, after?_append] at hnone
      cases hnone

theorem cutAt?_eq_none_iff : cutAt? p cs = none ↔ ¬p <:+: cs := by
  refine ⟨fun h hp => ?_, cutAt?_eq_none⟩
  obtain ⟨s, d, rfl⟩ := hp
  induction s with
  | nil => simp [cutAt?_of_after? (after?_append p d)] at h
  | cons c s ih =>
    simp only [List.cons_append] at h
    rw [cutAt?] at h
    split at h
    · cases h
    · exact ih (Option.map_eq_none_iff.1 h)

theorem replaceAll_of_not_isInfix (q : List Char) (h : ¬p <:+: cs) : replaceAll p q cs = cs := by
  unfold replaceAll
  split
  · rfl
  · split
    · rfl
    · next hcut => cases (cutAt?_eq_none h).symm.trans hcut

theorem replaceAll_of_cutAt? {before : List Char} (hp : p ≠ []) (q : List Char)
    (h : cutAt? p cs = some (before, rest)) :
    replaceAll p q cs = before ++ q ++ replaceAll p q rest := by
  rw [replaceAll, dif_neg hp]
  split
  · next hcut => cases h.symm.trans hcut
  · next hcut =>
    cases h.symm.trans hcut
    rfl

theorem replaceAll_append (hp : p ≠ []) (q cs : List Char) :
    replaceAll p q (p ++ cs) = q ++ replaceAll p q cs :=
  replaceAll_of_cutAt? hp q (cutAt?_of_after? (after?_append p cs))

theorem replaceAll_cons {c : Char} (hp : p ≠ []) (q : List Char) (h : ¬p <+: c :: cs) :
    replaceAll p q (c :: cs) = c :: replaceAll p q cs := by
  have hcut : cutAt? p (c :: cs) = (cutAt? p cs).map fun r => (c :: r.1, r.2) := by
    rw [cutAt?, after?_eq_none h]
  cases hcs : cutAt? p cs with
  | none =>
    have hin : ¬p <:+: cs := cutAt?_eq_none_iff.1 hcs
    rw [replaceAll_of_not_isInfix q hin,
      replaceAll_of_not_isInfix q (cutAt?_eq_none_iff.1 (by rw [hcut, hcs, Option.map_none]))]
  | some r =>
    rw [hcs, Option.map_some] at hcut
    rw [replaceAll_of_cutAt? hp q hcut, replaceAll_of_cutAt? hp q hcs, List.cons_append,
      List.cons_append]

theorem cutAt?_append (h : ∀ b, b ≠ [] → b <:+ t → ¬p <+: b ++ (p ++ rest)) :
    cutAt? p (t ++ (p ++ rest)) = some (t, rest) := by
  induction t with
  | nil => exact cutAt?_of_after? (after?_append p rest)
  | cons c t ih =>
    have hne := after?_eq_none (h (c :: t) (List.cons_ne_nil c t) (List.suffix_refl _))
    rw [List.cons_append] at hne ⊢
    rw [cutAt?, hne]
    simp only [ih fun b hb ht => h b hb (ht.trans (List.suffix_cons c t)), Option.map_some]

/-- A mark whose first character is not in it again cannot begin in front of itself. -/
theorem cutAt?_append_of_notMem {c : Char} (hp : c ∉ p) (ht : ¬c :: p <:+: t) :
    cutAt? (c :: p) (t ++ (c :: p ++ rest)) = some (t, rest) := by
  refine cutAt?_append fun b hb hbt hpre => ?_
  have hin {q : List Char} (h : q <+: b) : q <:+: t := h.isInfix.trans hbt.isInfix
  obtain h | ⟨d, hd⟩ := List.prefix_or_prefix_of_prefix hpre (List.prefix_append b _)
  · exact ht (hin h)
  · -- The mark would begin in `t` and go on in the mark behind it, whose first character is then
    -- a later one of the mark.
    cases d with
    | nil => exact ht (hin ⟨[], by rw [← hd]; simp⟩)
    | cons x d =>
      have hx : x :: d <+: c :: p ++ rest := by
        refine (List.prefix_append_right_inj b).1 ?_
        rwa [hd]
      obtain rfl : x = c := (List.cons_prefix_cons.1 hx).1
      obtain ⟨y, b, rfl⟩ := List.exists_cons_of_ne_nil hb
      obtain ⟨-, rfl⟩ := List.cons.inj hd
      exact hp (List.mem_append_right b List.mem_cons_self)

/-- A mark of two characters ends where its second one stands for the first time. -/
theorem cutAt?_pair {c d : Char} (ht : d ∉ t) :
    cutAt? [c, d] (t ++ ([c, d] ++ rest)) = some (t, rest) := by
  refine cutAt?_append fun b hb hbt hpre => ?_
  match b, hb with
  | [x], _ =>
    simp only [List.cons_append, List.nil_append, List.cons_prefix_cons] at hpre
    obtain ⟨rfl, rfl, -⟩ := hpre
    exact ht (hbt.subset List.mem_cons_self)
  | x :: y :: b, _ =>
    simp only [List.cons_append, List.cons_prefix_cons] at hpre
    obtain ⟨-, rfl, -⟩ := hpre
    exact ht (hbt.subset (List.mem_cons_of_mem x List.mem_cons_self))

/-- A character in front of the same one twice would begin the mark earlier. -/
theorem cutAt?_twice {c : Char} (ht : ¬[c, c] <:+: t) (hlast : t.getLast? ≠ some c) :
    cutAt? [c, c] (t ++ ([c, c] ++ rest)) = some (t, rest) := by
  refine cutAt?_append fun b hb hbt hpre => ?_
  match b, hb with
  | [x], _ =>
    obtain ⟨s, rfl⟩ := hbt
    simp only [List.cons_append, List.nil_append, List.cons_prefix_cons] at hpre
    exact hlast (by rw [List.getLast?_concat, ← hpre.1])
  | x :: y :: b, _ =>
    simp only [List.cons_append, List.cons_prefix_cons] at hpre
    obtain ⟨rfl, rfl, -⟩ := hpre
    exact ht ((List.prefix_append [c, c] b).isInfix.trans hbt.isInfix)

/-- A hyphen in front of the end of a comment makes no earlier end. -/
theorem cutAt?_commentEnd (ht : ¬['-', '-', '>'] <:+: t) :
    cutAt? ['-', '-', '>'] (t ++ (['-', '-', '>'] ++ rest)) = some (t, rest) := by
  refine cutAt?_append fun b hb hbt hpre => ?_
  match b, hb with
  | [x], _ => simp at hpre
  | [x, y], _ => simp at hpre
  | x :: y :: z :: b, _ =>
    simp only [List.cons_append, List.cons_prefix_cons] at hpre
    obtain ⟨rfl, rfl, rfl, -⟩ := hpre
    exact ht ((List.prefix_append ['-', '-', '>'] b).isInfix.trans hbt.isInfix)

/-- What stands in front and has no beginning of the mark is passed over. -/
theorem cutAt?_append_left {c : Char} (hc : c ∉ t) (cs : List Char) :
    cutAt? (c :: p) (t ++ cs) = (cutAt? (c :: p) cs).map fun r => (t ++ r.1, r.2) := by
  induction t with
  | nil => exact Option.map_id'.symm
  | cons x t ih =>
    rw [List.mem_cons, not_or] at hc
    rw [List.cons_append, cutAt?, after?, if_neg hc.1, ih hc.2, Option.map_map]
    rfl

/-- The first place stays the first whatever is put behind. -/
theorem cutAt?_append_right {before : List Char} (h : cutAt? p cs = some (before, rest))
    (ds : List Char) : cutAt? p (cs ++ ds) = some (before, rest ++ ds) := by
  induction cs generalizing before with
  | nil =>
    obtain ⟨r, hr, he⟩ := Option.map_eq_some_iff.1 h
    cases he
    obtain ⟨rfl, rfl⟩ : p = [] ∧ rest = [] := by simpa using (after?_eq_some_iff.1 hr).symm
    exact cutAt?_of_after? rfl
  | cons c cs ih =>
    rw [cutAt?] at h
    split at h
    · next r hr =>
      cases h
      rw [after?_eq_some_iff.1 hr, List.append_assoc]
      exact cutAt?_of_after? (after?_append p (rest ++ ds))
    · next hnone =>
      obtain ⟨⟨b, r⟩, hr, he⟩ := Option.map_eq_some_iff.1 h
      cases he
      have hshort := length_of_cutAt? hr
      have hnot : ¬p <+: c :: (cs ++ ds) := fun hpre => by
        have hcs : p <+: c :: cs :=
          List.prefix_of_prefix_length_le hpre (List.prefix_append (c :: cs) ds) (by grind)
        obtain ⟨d, hd⟩ := hcs
        rw [← hd, after?_append] at hnone
        cases hnone
      rw [List.cons_append, cutAt?, after?_eq_none hnot, ih hr]
      rfl

/-- The mark stands behind what is cut off, and does not begin in front of that place. -/
theorem cutAt?_eq_some_iff {before : List Char} (hp : p ≠ []) :
    cutAt? p cs = some (before, rest) ↔
      cs = before ++ (p ++ rest) ∧ ¬p <:+: before ++ p.dropLast := by
  have hlength : p.dropLast.length + 1 = p.length := by
    rw [List.length_dropLast, Nat.sub_add_cancel (List.length_pos_iff.2 hp)]
  constructor
  · intro h
    refine ⟨eq_of_cutAt? h, fun hin => ?_⟩
    -- the mark would be found in front of its end, and so at an earlier place
    cases hcut : cutAt? p (before ++ p.dropLast) with
    | none => exact cutAt?_eq_none_iff.1 hcut hin
    | some r =>
      have hfirst := cutAt?_append_right hcut (p.getLast hp :: rest)
      have hmark : p.dropLast ++ p.getLast hp :: rest = p ++ rest := by
        rw [List.append_cons, List.dropLast_concat_getLast]
      rw [List.append_assoc, hmark, ← eq_of_cutAt? h, h] at hfirst
      obtain ⟨rfl, -⟩ := Prod.mk.inj (Option.some.inj hfirst)
      have hshort := length_of_cutAt? hcut
      rw [List.length_append] at hshort
      omega
  · rintro ⟨rfl, hnot⟩
    refine cutAt?_append fun b hb hbt hpre => hnot ?_
    have hlast : p <+: b ++ p.dropLast := by
      refine List.prefix_of_prefix_length_le hpre ?_ ?_
      · rw [List.prefix_append_right_inj]
        exact (List.dropLast_prefix p).trans (List.prefix_append p rest)
      · have hb := List.length_pos_iff.2 hb
        rw [List.length_append, List.length_dropLast]
        omega
    obtain ⟨s, rfl⟩ := hbt
    rw [List.append_assoc]
    exact hlast.isInfix.trans (List.suffix_append s _).isInfix

/-- A mark of two characters does not stand across the border of two texts, unless the first text
ends with its first character and the second one begins with its second. -/
theorem not_pair_infix_append {c d : Char} {u : List Char} (ht : ¬[c, d] <:+: t)
    (hu : ¬[c, d] <:+: u) (h : t.getLast? = some c → u.head? ≠ some d) : ¬[c, d] <:+: t ++ u := by
  induction t with
  | nil => exact hu
  | cons x t ih =>
    rw [List.infix_cons_iff, not_or] at ht
    rw [List.cons_append, List.infix_cons_iff, not_or]
    cases t with
    | nil =>
      refine ⟨fun hpre => ?_, hu⟩
      rw [List.nil_append, List.cons_prefix_cons] at hpre
      obtain ⟨rfl, u, rfl⟩ := hpre
      exact h rfl rfl
    | cons y t =>
      rw [List.getLast?_cons_cons] at h
      refine ⟨fun hpre => ht.1 ?_, ih ht.2 h⟩
      simpa using hpre

section Marks

/-! ### Words that hold their first character only once -/

variable {x b : Char} {v ds : List Char}

theorem prefix_append_cons_iff (hv : x ∉ v) : v <+: cs ++ x :: ds ↔ v <+: cs := by
  refine ⟨fun h => ?_, fun h => h.trans (List.prefix_append cs _)⟩
  obtain h' | ⟨t, rfl⟩ := List.prefix_or_prefix_of_prefix h (List.prefix_append cs _)
  · exact h'
  cases t with
  | nil => simp
  | cons y t =>
    have hy := (List.cons_prefix_cons.1 ((List.prefix_append_right_inj cs).1 h)).1
    simp [hy] at hv

theorem infix_append_cons_iff (hv : x ∉ v) : x :: v <:+: cs ++ x :: ds ↔
    x :: v <:+: cs ∨ x :: v <+: x :: ds ∨ x :: v <:+: ds := by
  induction cs with
  | nil => simp [List.infix_cons_iff]
  | cons c cs ih =>
    have hpre : x :: v <+: c :: (cs ++ x :: ds) ↔ x :: v <+: c :: cs := by
      rw [List.cons_prefix_cons, List.cons_prefix_cons, prefix_append_cons_iff hv]
    rw [List.cons_append, List.infix_cons_iff, hpre, ih, List.infix_cons_iff, or_assoc]

theorem infix_append_iff_of_notMem (hc : x ∉ cs) : x :: v <:+: cs ++ ds ↔ x :: v <:+: ds := by
  induction cs with
  | nil => rfl
  | cons c cs ih =>
    rw [List.mem_cons, not_or] at hc
    rw [List.cons_append, List.infix_cons_iff, ih hc.2, List.cons_prefix_cons, or_iff_right]
    exact fun h => hc.1 h.1

variable {d : Char}

/-- A mark is kept apart by a character that is put behind its first one: what is found then and
begins like the mark was there before, and is not the mark. -/
theorem infix_replaceAll (hp : x ∉ p) (hv : x ∉ v) (hb : b ≠ x) (hd : d ≠ b) (hdv : d ≠ x)
    (h : x :: d :: v <:+: replaceAll (x :: p) (x :: b :: p) cs) :
    x :: d :: v <:+: cs ∧ d :: v ≠ p := by
  have hv : x ∉ d :: v := by simp [hv, Ne.symm hdv]
  have hq : x ∉ b :: p := by simp [hp, Ne.symm hb]
  induction hn : cs.length using Nat.strongRecOn generalizing cs with
  | ind n ih =>
  rw [replaceAll, dif_neg (List.cons_ne_nil x p)] at h
  split at h
  · next hcut =>
    refine ⟨h, ?_⟩
    rintro rfl
    exact cutAt?_eq_none_iff.1 hcut h
  · next before rest hcut =>
    have hcs := eq_of_cutAt? hcut
    rw [List.append_assoc, List.cons_append, infix_append_cons_iff hv,
      infix_append_iff_of_notMem hq] at h
    obtain h | h | h := h
    · refine ⟨hcs ▸ h.trans List.infix_append_left, ?_⟩
      rintro rfl
      exact not_infix_of_cutAt? (List.cons_ne_nil _ _) hcut h
    · rw [List.cons_prefix_cons, List.cons_append, List.cons_prefix_cons] at h
      exact absurd h.2.1 hd
    · have hlen := congrArg List.length hcs
      simp only [List.length_append, List.length_cons] at hlen
      obtain ⟨h, hvp⟩ := ih rest.length (by omega) h rfl
      exact ⟨hcs ▸ (h.trans List.infix_append_right).trans List.infix_append_right, hvp⟩

/-- Another word of the same length stays where it is. -/
theorem infix_replaceAll_of_ne (hp : x ∉ p) (hv : x ∉ v) (hl : v.length = p.length) (hne : v ≠ p)
    (q : List Char) (h : x :: v <:+: cs) : x :: v <:+: replaceAll (x :: p) q cs := by
  induction hn : cs.length using Nat.strongRecOn generalizing cs with
  | ind n ih =>
  rw [replaceAll, dif_neg (List.cons_ne_nil x p)]
  split
  · exact h
  · next before rest hcut =>
    have hcs := eq_of_cutAt? hcut
    have hlen := congrArg List.length hcs
    simp only [List.length_append, List.length_cons] at hlen
    rw [hcs, List.cons_append, infix_append_cons_iff hv, infix_append_iff_of_notMem hp] at h
    obtain h | h | h := h
    · rw [List.append_assoc]
      exact h.trans List.infix_append_left
    · obtain ⟨t, ht⟩ := (List.cons_prefix_cons.1 h).2
      exact absurd (List.append_inj_left ht hl) hne
    · exact (ih rest.length (by omega) h rfl).trans List.infix_append_right

end Marks

end PageCompiler.Text
