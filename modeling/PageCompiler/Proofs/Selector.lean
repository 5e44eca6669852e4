import PageCompiler.Proofs.StyleSheet

/-!
Selectors as compounds that combinators join. Main statement: the attribute is asked for in the last
compound, behind its simple selectors and in front of its first pseudo. Characters are read one by
one, also behind a backslash and in quotes, so this holds where a backslash hides none of the marks
that are looked for, and where the brackets in arguments and attributes are balanced.
-/

namespace PageCompiler.Style

open Text (isBlank trim)

/-! ### Syntax -/

def IsBracket (c : Char) : Prop := c = '(' ∨ c = '[' ∨ c = ')' ∨ c = ']'

/-- The character is no mark of selectors. -/
def IsPlain (c : Char) : Prop := ¬IsBracket c ∧ c ≠ ':' ∧ ¬isCombinator c

/-- A part of a name: a character, or a backslash with what it hides, which is a character or the
digits of its number. -/
inductive NamePart
  | char (c : Char)
  | escape (hidden : List Char)

def NamePart.text : NamePart → List Char
  | char c => [c]
  | escape hidden => '\\' :: hidden

abbrev Ident := List NamePart

namespace Ident

def text (name : Ident) : List Char := name.flatMap NamePart.text

/-- No mark stands in the name but behind a backslash. -/
def IsWritten (name : Ident) : Prop := name ≠ [] ∧ ∀ c, .char c ∈ name → IsPlain c

/-- Backslashes hide no bracket, and just characters of `outside`. -/
def Reads (outside : Char → Prop) (name : Ident) : Prop :=
  ∀ hidden, .escape hidden ∈ name → ∀ c ∈ hidden, ¬IsBracket c ∧ outside c

end Ident

/-- A simple selector. -/
inductive Simple
  | tag (name : Ident)
  | ofClass (name : Ident)
  | ofId (name : Ident)
  | having (inside : List Char)

namespace Simple

def text : Simple → List Char
  | tag name => name.text
  | ofClass name => '.' :: name.text
  | ofId name => '#' :: name.text
  | having inside => '[' :: (inside ++ [']'])

def IsWritten : Simple → Prop
  | tag name | ofClass name | ofId name => name.IsWritten
  | having _ => True

def Reads (outside : Char → Prop) : Simple → Prop
  | tag name | ofClass name | ofId name => name.Reads outside
  | having inside => Bracketed (fun _ => True) inside

end Simple

/-- A pseudo-class, or a pseudo-element with its second colon. -/
structure Pseudo where
  element : Bool
  name : Ident
  argument : Option (List Char)

namespace Pseudo

def text (p : Pseudo) : List Char :=
  ':' :: ((if p.element then [':'] else []) ++
    (p.name.text ++ p.argument.elim [] fun argument => '(' :: (argument ++ [')'])))

def Reads (outside : Char → Prop) (p : Pseudo) : Prop :=
  p.name.Reads outside ∧ ∀ argument ∈ p.argument, Bracketed (fun _ => True) argument

end Pseudo

structure Compound where
  simples : List Simple
  pseudos : List Pseudo

namespace Compound

def simplesText (c : Compound) : List Char := c.simples.flatMap Simple.text

def pseudosText (c : Compound) : List Char := c.pseudos.flatMap Pseudo.text

def text (c : Compound) : List Char := c.simplesText ++ c.pseudosText

structure IsWritten (c : Compound) : Prop where
  simples : ∀ s ∈ c.simples, s.IsWritten
  pseudos : ∀ p ∈ c.pseudos, p.name.IsWritten
  filled : c.simples ≠ [] ∨ c.pseudos ≠ []

/-- What backslashes hide is no mark: not one of those looked for in simple selectors, and not one
of those looked for in pseudos. -/
structure Reads (inSimples inPseudos : Char → Prop) (c : Compound) : Prop where
  simples : ∀ s ∈ c.simples, s.Reads inSimples
  pseudos : ∀ p ∈ c.pseudos, p.Reads inPseudos

end Compound

/-- A combinator, and the blanks around it. Where it is the descendant, there are only blanks. -/
def IsJoint (cs : List Char) : Prop := cs ≠ [] ∧ ∀ c ∈ cs, isBlank c ∨ isCombinator c

/-- Compounds with a combinator behind each, and the last compound. -/
structure Selector where
  front : List (Compound × List Char)
  last : Compound

namespace Selector

def frontText (s : Selector) : List Char := s.front.flatMap fun p => p.1.text ++ p.2

def text (s : Selector) : List Char := s.frontText ++ s.last.text

structure IsWritten (s : Selector) : Prop where
  front : ∀ p ∈ s.front, p.1.IsWritten ∧ IsJoint p.2
  last : s.last.IsWritten

/-- In the last compound a backslash hides no colon in front of the pseudos, and no combinator in
them; and the blanks that join compounds are not just carriage returns and the like. -/
structure Reads (s : Selector) : Prop where
  front : ∀ p ∈ s.front, p.1.Reads (fun _ => True) (fun _ => True) ∧ ∃ c ∈ p.2, isCombinator c
  last : s.last.Reads (· ≠ ':') fun c => ¬isCombinator c

end Selector

/-! ### Brackets -/

section Bracketed

variable {outside : Char → Prop} {cs : List Char}

theorem Balanced.flatMap {α : Type} {opens closes : Char → Prop} {f : α → List Char} {as : List α}
    (h : ∀ a ∈ as, Balanced opens closes outside (f a)) :
    Balanced opens closes outside (as.flatMap f) := by
  induction as with
  | nil => exact .nil
  | cons a as ih =>
    rw [List.forall_mem_cons] at h
    rw [List.flatMap_cons]
    exact h.1.append (ih h.2)

theorem Balanced.mono {opens closes outside' : Char → Prop} (h : Balanced opens closes outside cs)
    (himp : ∀ c, outside c → outside' c) : Balanced opens closes outside' cs := by
  induction h with
  | nil => exact .nil
  | char ho hcl hout _ ih => exact .char ho hcl (himp _ hout) (ih himp)
  | block ho hcl hin _ _ ih => exact .block ho hcl hin (ih himp)

theorem bracketed_plain (h : ∀ c ∈ cs, ¬IsBracket c ∧ outside c) : Bracketed outside cs :=
  balanced_plain fun c hc => by
    have hbracket := (h c hc).1
    simp only [IsBracket, not_or] at hbracket
    simp [hbracket, (h c hc).2]

theorem bracketed_joint (h : ∀ c ∈ cs, isBlank c ∨ isCombinator c) : Bracketed (· ≠ ':') cs := by
  refine bracketed_plain fun c hc => ⟨?_, ?_⟩
  · rintro (rfl | rfl | rfl | rfl) <;> exact absurd (h _ hc) (by decide)
  · rintro rfl
    exact absurd (h _ hc) (by decide)

theorem bracketed_square (h : Bracketed (fun _ => True) cs) :
    Bracketed outside ('[' :: (cs ++ [']'])) :=
  .block (.inr rfl) (.inr rfl) h .nil

theorem bracketed_round (h : Bracketed (fun _ => True) cs) :
    Bracketed outside ('(' :: (cs ++ [')'])) :=
  .block (.inl rfl) (.inl rfl) h .nil

theorem bracketed_cons {c : Char} (hc : ¬IsBracket c ∧ outside c) (h : Bracketed outside cs) :
    Bracketed outside (c :: cs) :=
  (bracketed_plain (List.forall_mem_singleton.2 hc)).append h

theorem Ident.bracketed {name : Ident} (hw : name.IsWritten) (hr : name.Reads outside)
    (hout : ∀ c, IsPlain c → outside c) : Bracketed outside name.text := by
  refine .flatMap fun part hpart => bracketed_plain ?_
  have hplain (c : Char) (hc : IsPlain c) : ¬IsBracket c ∧ outside c := ⟨hc.1, hout c hc⟩
  cases part with
  | char c => exact List.forall_mem_singleton.2 (hplain c (hw.2 c hpart))
  | escape hidden =>
    refine List.forall_mem_cons.2 ⟨hplain '\\' ?_, hr hidden hpart⟩
    simp [IsPlain, IsBracket, isCombinator]

theorem Simple.bracketed {s : Simple} (hw : s.IsWritten) (hr : s.Reads outside)
    (hout : ∀ c, IsPlain c → outside c) : Bracketed outside s.text := by
  have hmark (c : Char) (hc : IsPlain c) : ¬IsBracket c ∧ outside c := ⟨hc.1, hout c hc⟩
  cases s with
  | tag name => exact Ident.bracketed hw hr hout
  | ofClass name =>
    refine bracketed_cons (hmark '.' ?_) (Ident.bracketed hw hr hout)
    simp [IsPlain, IsBracket, isCombinator]
  | ofId name =>
    refine bracketed_cons (hmark '#' ?_) (Ident.bracketed hw hr hout)
    simp [IsPlain, IsBracket, isCombinator]
  | having inside => exact bracketed_square hr

theorem Pseudo.bracketed {p : Pseudo} (hw : p.name.IsWritten) (hr : p.Reads outside)
    (hcolon : outside ':') (hout : ∀ c, IsPlain c → outside c) : Bracketed outside p.text := by
  have hmark : ¬IsBracket ':' ∧ outside ':' := ⟨by simp [IsBracket], hcolon⟩
  refine bracketed_cons hmark (.append ?_ ((Ident.bracketed hw hr.1 hout).append ?_))
  · split
    · exact bracketed_cons hmark .nil
    · exact .nil
  · cases hargument : p.argument with
    | none => exact .nil
    | some argument => exact bracketed_round (hr.2 argument hargument)

end Bracketed

namespace Compound

variable {c : Compound} {inSimples inPseudos : Char → Prop}

theorem bracketed_simplesText (hw : c.IsWritten) (hr : c.Reads inSimples inPseudos)
    (hout : ∀ c, IsPlain c → inSimples c) : Bracketed inSimples c.simplesText :=
  .flatMap fun s hs => Simple.bracketed (hw.simples s hs) (hr.simples s hs) hout

theorem bracketed_pseudosText (hw : c.IsWritten) (hr : c.Reads inSimples inPseudos)
    (hcolon : inPseudos ':') (hout : ∀ c, IsPlain c → inPseudos c) :
    Bracketed inPseudos c.pseudosText :=
  .flatMap fun p hp => Pseudo.bracketed (hw.pseudos p hp) (hr.pseudos p hp) hcolon hout

theorem IsWritten.bracketed_text (hw : c.IsWritten)
    (hr : c.Reads (fun _ => True) fun _ => True) :
    Bracketed (fun _ => True) c.text :=
  (bracketed_simplesText hw hr fun _ _ => trivial).append
    (bracketed_pseudosText hw hr trivial fun _ _ => trivial)

theorem IsWritten.text_ne_nil (hw : c.IsWritten) : c.text ≠ [] := by
  have hname {name : Ident} (h : name.IsWritten) : name.text ≠ [] := by
    obtain ⟨part, name, rfl⟩ := List.exists_cons_of_ne_nil h.1
    cases part <;> simp [Ident.text, NamePart.text]
  obtain hs | hp := hw.filled
  · obtain ⟨s, ss, hss⟩ := List.exists_cons_of_ne_nil hs
    have hwritten : s.IsWritten := hw.simples s (by simp [hss])
    have hsimple : s.text ≠ [] := by
      cases s with
      | tag name => exact hname hwritten
      | _ => exact List.cons_ne_nil _ _
    simp [text, simplesText, hss, hsimple]
  · obtain ⟨p, ps, hps⟩ := List.exists_cons_of_ne_nil hp
    simp [text, pseudosText, hps, Pseudo.text]

theorem head?_pseudosText (c : Compound) : c.pseudosText.head?.all (· = ':') := by
  cases hps : c.pseudos with
  | nil => simp [pseudosText, hps]
  | cons p ps => simp [pseudosText, hps, Pseudo.text]

end Compound

/-! ### The last compound -/

section Scan

variable {outside : Char → Prop} {cs ds : List Char} {c : Char}

theorem bracketed_combinator (h : isCombinator c) : Bracketed (fun _ => True) [c] := by
  refine bracketed_plain (List.forall_mem_singleton.2 ⟨?_, trivial⟩)
  rintro (rfl | rfl | rfl | rfl) <;> cases h

theorem compoundStart_cons {depth : Int} (h : isCombinator c → depth ≠ 0) (i start : Nat)
    (cs : List Char) :
    compoundStart depth i start (c :: cs) =
      compoundStart (depthAfter depth c) (i + 1) start cs := by
  have hnot : ¬(decide (depth = 0) && isCombinator c) = true := by
    simpa [imp_not_comm] using h
  simp only [compoundStart, if_neg hnot]

theorem compoundStart_combinator (h : isCombinator c) (i start : Nat) (cs : List Char) :
    compoundStart 0 i start (c :: cs) = compoundStart 0 (i + 1) (i + 1) cs := by
  have hafter : depthAfter 0 c = 0 := by
    refine depthAfter_of_not ?_ ?_ 0
    all_goals rintro (rfl | rfl) <;> cases h
  simp [compoundStart, h, hafter]

/-- Where there is no combinator outside of brackets, the last compound goes on. -/
theorem compoundStart_append (h : Bracketed outside cs) {depth : Int} (hdepth : 0 ≤ depth)
    (hout : ∀ c, outside c → isCombinator c → depth ≠ 0) (i start : Nat) (rest : List Char) :
    compoundStart depth i start (cs ++ rest) =
      compoundStart depth (i + cs.length) start rest := by
  have hfold (f : Nat → Nat) (i : Nat) :
      cs.foldr (fun _ f i => f (i + 1)) f i = f (i + cs.length) := by
    clear h
    induction cs generalizing i with
    | nil => rfl
    | cons c cs ih => rw [List.foldr_cons, ih, List.length_cons, Nat.add_right_comm, Nat.add_assoc]
  have hscan := scan_append (fun depth cs i => compoundStart depth i start cs)
    (fun _ f i => f (i + 1)) (isCombinator ·) (by decide)
    (fun _ _ cs hc => funext fun i => compoundStart_cons hc i start cs) h hdepth hout rest
  exact (congrFun hscan i).trans (hfold _ i)

theorem beforePseudo_cons {depth : Int} (h : c = ':' → depth ≠ 0) (cs : List Char) :
    beforePseudo depth (c :: cs) = beforePseudo (depthAfter depth c) cs + 1 := by
  have hnot : ¬(decide (c = ':') && decide (depth = 0)) = true := by simpa using h
  rw [beforePseudo, if_neg hnot]

/-- Where there is no colon outside of brackets, there is no pseudo. -/
theorem beforePseudo_append (h : Bracketed outside cs) (hout : ∀ c, outside c → c ≠ ':')
    (rest : List Char) : beforePseudo 0 (cs ++ rest) = cs.length + beforePseudo 0 rest := by
  have hfold (n : Nat) : cs.foldr (fun _ n => n + 1) n = cs.length + n := by
    clear h
    induction cs with
    | nil => simp
    | cons c cs ih => rw [List.foldr_cons, ih, List.length_cons, Nat.add_right_comm]
  rw [← hfold]
  exact scan_append beforePseudo (fun _ n => n + 1) (· = ':') (by decide)
    (fun _ _ cs hc => beforePseudo_cons hc cs) h le_rfl (fun c hc he => absurd he (hout c hc)) rest

/-- The last compound begins behind the text. -/
def EndsJoint (cs : List Char) : Prop :=
  cs = [] ∨ ∃ ds c, cs = ds ++ [c] ∧ Bracketed (fun _ => True) ds ∧ isCombinator c

theorem EndsJoint.append (hd : Bracketed (fun _ => True) ds) (h : EndsJoint cs) (hne : cs ≠ []) :
    EndsJoint (ds ++ cs) := by
  obtain rfl | ⟨es, c, rfl, hes, hc⟩ := h
  · exact absurd rfl hne
  · exact .inr ⟨ds ++ es, c, (List.append_assoc ..).symm, hd.append hes, hc⟩

theorem EndsJoint.bracketed (h : EndsJoint cs) : Bracketed (fun _ => True) cs := by
  obtain rfl | ⟨ds, c, rfl, hds, hc⟩ := h
  · exact .nil
  · exact hds.append (bracketed_combinator hc)

/-- A text ends with a piece in which no combinator stands outside of brackets. -/
theorem exists_endsJoint (h : Bracketed outside cs) :
    ∃ a b, cs = a ++ b ∧ EndsJoint a ∧ Bracketed (fun c => outside c ∧ ¬isCombinator c) b := by
  induction h with
  | nil => exact ⟨[], [], rfl, .inl rfl, .nil⟩
  | @char outside c cs ho hcl hout h ih =>
    obtain ⟨a, b, rfl, ha, hb⟩ := ih
    have hplain : Bracketed (fun _ => True) [c] := .char ho hcl trivial .nil
    by_cases hnil : a = []
    · subst hnil
      by_cases hc : isCombinator c
      · exact ⟨[c], b, rfl, .inr ⟨[], c, rfl, .nil, hc⟩, hb⟩
      · exact ⟨[], c :: b, rfl, .inl rfl, .char ho hcl ⟨hout, hc⟩ hb⟩
    · exact ⟨c :: a, b, rfl, ha.append hplain hnil, hb⟩
  | @block outside o cs c ds ho hcl hc hd _ ih =>
    obtain ⟨a, b, rfl, ha, hb⟩ := ih
    by_cases hnil : a = []
    · subst hnil
      exact ⟨[], _, rfl, .inl rfl, .block ho hcl hc hb⟩
    · have hblock : Bracketed (fun _ => True) (o :: (cs ++ [c])) := .block ho hcl hc .nil
      refine ⟨o :: (cs ++ [c]) ++ a, b, by simp, ha.append hblock hnil, hb⟩

/-- The last compound begins behind the last combinator outside of brackets, whatever was found
before. -/
theorem compoundStart_last (h : Bracketed outside cs) (hc : isCombinator c) (i start : Nat)
    (rest : List Char) :
    compoundStart 0 i start (cs ++ c :: rest) =
      compoundStart 0 (i + cs.length + 1) (i + cs.length + 1) rest := by
  induction h generalizing i start with
  | nil => exact compoundStart_combinator hc i start rest
  | @char outside d cs ho hcl _ _ ih =>
    rw [List.cons_append, compoundStart, depthAfter_of_not ho hcl, ih, List.length_cons,
      Nat.add_right_comm i, Nat.add_assoc i]
  | @block outside o cs e ds ho hcl hin _ _ ih =>
    have hopen : depthAfter 0 o = 1 := by obtain rfl | rfl := ho <;> rfl
    have hclose : depthAfter 1 e = 0 := by obtain rfl | rfl := hcl <;> rfl
    have hnot : isCombinator o → (0 : Int) ≠ 0 := by obtain rfl | rfl := ho <;> nofun
    have hlength : i + 1 + cs.length + 1 + ds.length + 1 =
        i + (o :: (cs ++ e :: ds)).length + 1 := by
      simp only [List.length_cons, List.length_append]
      omega
    rw [List.cons_append, List.append_assoc, compoundStart_cons hnot, hopen,
      compoundStart_append hin (by decide) (fun _ _ _ => by decide), List.cons_append,
      compoundStart_cons fun _ => by decide, hclose, ih, hlength]

theorem EndsJoint.compoundStart_append (h : EndsJoint cs) (rest : List Char) :
    compoundStart 0 0 0 (cs ++ rest) = compoundStart 0 cs.length cs.length rest := by
  obtain rfl | ⟨ds, c, rfl, hds, hc⟩ := h
  · rfl
  · rw [List.append_assoc, List.singleton_append, compoundStart_last hds hc, List.length_append]
    simp

end Scan

/-- The attribute is asked for behind a text that holds no combinator and no colon outside of
brackets, if that is where a compound begins. -/
theorem scopeSelector_split {attr : String} {source front simples pseudos : List Char}
    (h : trim source = front ++ (simples ++ pseudos)) (hfilled : trim source ≠ [])
    (hfront : EndsJoint front)
    (hsimples : Bracketed (fun c => c ≠ ':' ∧ ¬isCombinator c) simples)
    (hpseudos : Bracketed (fun c => ¬isCombinator c) pseudos)
    (hcolon : pseudos.head?.all (· = ':')) :
    scopeSelector attr source =
      front ++ simples ++ ('[' :: attr.toList ++ ']' :: pseudos) := by
  have hstart : compoundStart 0 0 0 (front ++ (simples ++ pseudos)) = front.length := by
    have hlast : Bracketed (fun c => ¬isCombinator c) (simples ++ pseudos) :=
      (hsimples.mono fun _ hc => hc.2).append hpseudos
    have hnone := compoundStart_append hlast le_rfl (fun c hc he => absurd he hc) front.length
      front.length []
    rw [List.append_nil] at hnone
    rw [hfront.compoundStart_append, hnone, compoundStart]
  have hposition : beforePseudo 0 (simples ++ pseudos) = simples.length := by
    rw [beforePseudo_append hsimples fun c hc => hc.1]
    cases pseudos with
    | nil => rfl
    | cons c cs =>
      obtain rfl : c = ':' := by simpa using hcolon
      rfl
  have hempty : (trim source).isEmpty = false := by simpa using hfilled
  rw [scopeSelector, hempty, h, hstart]
  simp [hposition, List.take_append]

namespace Selector

variable {s : Selector}

/-- In front of the last compound there may be blanks behind the last combinator. -/
theorem exists_frontText (hw : s.IsWritten) (hr : s.Reads) :
    ∃ a blanks, s.frontText = a ++ blanks ∧ EndsJoint a ∧ Bracketed (· ≠ ':') blanks := by
  obtain hnil | ⟨front, ⟨compound, joint⟩, hfront⟩ := s.front.eq_nil_or_concat
  · exact ⟨[], [], by simp [frontText, hnil], .inl rfl, .nil⟩
  · have hbracketed : ∀ p ∈ s.front, Bracketed (fun _ => True) p.1.text ∧
        (∀ c ∈ p.2, isBlank c ∨ isCombinator c) ∧ ∃ c ∈ p.2, isCombinator c := fun p hp =>
      ⟨(hw.front p hp).1.bracketed_text (hr.front p hp).1, (hw.front p hp).2.2, (hr.front p hp).2⟩
    rw [hfront, List.concat_eq_append, List.forall_mem_append, List.forall_mem_singleton]
      at hbracketed
    obtain ⟨hinit, hcompound, honly, c, hc, hcombinator⟩ := hbracketed
    obtain ⟨before, behind, rfl⟩ := List.append_of_mem hc
    rw [List.forall_mem_append, List.forall_mem_cons] at honly
    have hpairs : Bracketed (fun _ => True) (front.flatMap fun p => p.1.text ++ p.2) :=
      .flatMap fun p hp => (hinit p hp).1.append
        ((bracketed_joint (hinit p hp).2.1).mono fun _ _ => trivial)
    have hbefore : Bracketed (fun _ => True) (compound.text ++ before) :=
      hcompound.append ((bracketed_joint honly.1).mono fun _ _ => trivial)
    refine ⟨_ ++ [c], behind, ?_, .inr ⟨_, c, rfl, hpairs.append hbefore, hcombinator⟩,
      bracketed_joint honly.2.2⟩
    simp [frontText, hfront]

/-- The attribute is asked for between the simple selectors and the pseudos of the last compound,
and nothing else is changed. -/
theorem scopeSelector_text (attr : String) {source : List Char} (h : trim source = s.text)
    (hw : s.IsWritten) (hr : s.Reads) :
    scopeSelector attr source = s.frontText ++ (s.last.simplesText ++
      ('[' :: attr.toList ++ ']' :: s.last.pseudosText)) := by
  have hfilled : trim source ≠ [] := by
    rw [h, text]
    exact List.append_ne_nil_of_right_ne_nil _ hw.last.text_ne_nil
  have hsimples : Bracketed (· ≠ ':') s.last.simplesText :=
    Compound.bracketed_simplesText hw.last hr.last fun _ hc => hc.2.1
  have hpseudos : Bracketed (fun c => ¬isCombinator c) s.last.pseudosText :=
    Compound.bracketed_pseudosText hw.last hr.last (by decide) fun _ hc => hc.2.2
  obtain ⟨a, blanks, hfront, ha, hblanks⟩ := exists_frontText hw hr
  -- an escaped combinator in the simple selectors counts as one
  obtain ⟨b, simples, hlast, hb, hrest⟩ := exists_endsJoint (hblanks.append hsimples)
  have hends : EndsJoint (a ++ b) := by
    by_cases hnil : b = []
    · rwa [hnil, List.append_nil]
    · exact hb.append ha.bracketed hnil
  have htext : s.frontText ++ s.last.simplesText = a ++ b ++ simples := by
    rw [hfront, List.append_assoc, hlast, List.append_assoc]
  have hsource : trim source = a ++ b ++ (simples ++ s.last.pseudosText) := by
    rw [h, text, Compound.text, ← List.append_assoc, htext, List.append_assoc]
  rw [scopeSelector_split hsource hfilled hends hrest hpseudos s.last.head?_pseudosText, ← htext,
    List.append_assoc]

/-- Combinators and colons in front of the last compound, and in arguments and attributes. -/
theorem scopeSelector_text_list :
    let ident (s : String) : Ident := s.toList.map .char
    let classed : Compound :=
      ⟨[.tag (ident "ul"), .ofClass (ident "md" ++ .escape [':'] :: ident "flex")],
        [⟨false, ident "hover", none⟩]⟩
    let item : Compound :=
      ⟨[.tag (ident "li"), .ofId (ident "a" ++ .escape ['+'] :: ident "b"),
          .having "title='[a: b]'".toList],
        [⟨false, ident "not", some ":is(p, i) > b".toList⟩, ⟨true, ident "before", none⟩]⟩
    let s : Selector := ⟨[(classed, " >\r".toList)], item⟩
    let source : List Char :=
      " ul.md\\:flex:hover >\rli#a\\+b[title='[a: b]']:not(:is(p, i) > b)::before\n".toList
    (trim source = s.text ∧ s.IsWritten ∧ s.Reads) ∧
      String.ofList (scopeSelector "data-x" source) =
        "ul.md\\:flex:hover >\rli#a\\+b[title='[a: b]'][data-x]:not(:is(p, i) > b)::before" := by
  intro ident classed item s source
  have htrim : trim source = s.text := by decide +kernel
  have hclassed : classed.IsWritten := by
    constructor <;> simp [classed, ident, Simple.IsWritten, Ident.IsWritten, IsPlain, IsBracket,
      isCombinator]
  have hitem : item.IsWritten := by
    constructor <;> simp [item, ident, Simple.IsWritten, Ident.IsWritten, IsPlain, IsBracket,
      isCombinator]
  have hw : s.IsWritten := by
    refine ⟨List.forall_mem_singleton.2 ⟨hclassed, ?_⟩, hitem⟩
    simp [IsJoint, isBlank, isCombinator]
  have hquoted : Bracketed (fun _ => True) "title='[a: b]'".toList := by
    have hname : Bracketed (fun _ => True) "title='".toList := bracketed_plain (by simp [IsBracket])
    have hin : Bracketed (fun _ => True) "a: b".toList := bracketed_plain (by simp [IsBracket])
    have hquote : Bracketed (fun _ => True) ['\''] := bracketed_plain (by simp [IsBracket])
    exact hname.append ((bracketed_square hin).append hquote)
  have hargument : Bracketed (fun _ => True) ":is(p, i) > b".toList := by
    have hname : Bracketed (fun _ => True) ":is".toList := bracketed_plain (by simp [IsBracket])
    have hin : Bracketed (fun _ => True) "p, i".toList := bracketed_plain (by simp [IsBracket])
    have hrest : Bracketed (fun _ => True) " > b".toList := bracketed_plain (by simp [IsBracket])
    exact hname.append ((bracketed_round hin).append hrest)
  have hr : s.Reads := by
    refine ⟨List.forall_mem_singleton.2 ?_, ?_⟩
    · refine ⟨?_, by simp [isCombinator]⟩
      constructor <;> simp [classed, ident, Simple.Reads, Pseudo.Reads, Ident.Reads, IsBracket]
    · constructor
      · simpa [s, item, ident, Simple.Reads, Ident.Reads, IsBracket] using hquoted
      · simpa [s, item, ident, Pseudo.Reads, Ident.Reads, IsBracket] using hargument
  refine ⟨⟨htrim, hw, hr⟩, ?_⟩
  rw [scopeSelector_text "data-x" htrim hw hr]
  decide +kernel

/-- A colon behind a backslash is taken for a pseudo, and a bracket in quotes for the end of the
attribute. -/
theorem scopeSelector_escape :
    let ident (s : String) : Ident := s.toList.map .char
    let flex : Selector := ⟨[], [.ofClass (ident "md" ++ .escape [':'] :: ident "flex")], []⟩
    let titled : Selector :=
      ⟨[(⟨[.having "title=']:'".toList], []⟩, [' '])], [.tag (ident "b")], []⟩
    (flex.IsWritten ∧ flex.text = ".md\\:flex".toList ∧
      String.ofList (scopeSelector "data-x" flex.text) = ".md\\[data-x]:flex") ∧
    titled.IsWritten ∧ titled.text = "[title=']:'] b".toList ∧
      String.ofList (scopeSelector "data-x" titled.text) = "[title='][data-x]:'] b" := by
  intro ident flex titled
  have hflex : flex.IsWritten := by
    refine ⟨nofun, ?_⟩
    constructor <;> simp [flex, ident, Simple.IsWritten, Ident.IsWritten, IsPlain, IsBracket,
      isCombinator]
  have htitled : titled.IsWritten := by
    refine ⟨List.forall_mem_singleton.2 ⟨?_, by simp [IsJoint, isCombinator]⟩, ?_⟩
    all_goals constructor <;> simp [titled, ident, Simple.IsWritten, Ident.IsWritten, IsPlain,
      IsBracket, isCombinator]
  exact ⟨⟨hflex, by decide +kernel, by decide +kernel⟩, htitled, by decide +kernel,
    by decide +kernel⟩

end Selector

end PageCompiler.Style
