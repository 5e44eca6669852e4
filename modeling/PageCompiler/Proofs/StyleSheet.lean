import PageCompiler.Proofs.Blanks
import PageCompiler.Proofs.Search
import PageCompiler.Proofs.Shell
import PageCompiler.Style

/-!
Style sheets as trees of rules. Main statement: scoping the text of a tree gives the text of the
tree in which every selector is scoped, however deep its rule stands, and nothing else is changed.
-/

namespace PageCompiler.Style

open Text (isBlank trim)

/-! ### Brackets -/

/-- Every bracket of the text is closed, and outside of brackets there are characters of `outside`
only. -/
inductive Balanced (opens closes : Char → Prop) : (Char → Prop) → List Char → Prop
  | nil {outside} : Balanced opens closes outside []
  | char {outside c cs} : ¬opens c → ¬closes c → outside c → Balanced opens closes outside cs →
    Balanced opens closes outside (c :: cs)
  | block {outside o cs c ds} : opens o → closes c → Balanced opens closes (fun _ => True) cs →
    Balanced opens closes outside ds → Balanced opens closes outside (o :: (cs ++ c :: ds))

/-- Every brace is closed. -/
abbrev IsBody : List Char → Prop := Balanced (· = '\x7b') (· = '\x7d') fun _ => True

/-- Every bracket is closed, and outside of brackets there are characters of `outside` only. -/
abbrev Bracketed (outside : Char → Prop) : List Char → Prop :=
  Balanced (fun c => c = '(' ∨ c = '[') (fun c => c = ')' ∨ c = ']') outside

/-- Every bracket is closed, and there is no comma but in brackets. -/
abbrev IsSingle : List Char → Prop := Bracketed (· ≠ ',')

section Balanced

variable {opens closes outside : Char → Prop} {cs ds : List Char}

theorem Balanced.append (hc : Balanced opens closes outside cs)
    (hd : Balanced opens closes outside ds) : Balanced opens closes outside (cs ++ ds) := by
  induction hc with
  | nil => exact hd
  | char ho hcl hout _ ih => exact .char ho hcl hout (ih hd)
  | block ho hcl hin _ _ ih =>
    rw [List.cons_append, List.append_assoc, List.cons_append]
    exact .block ho hcl hin (ih hd)

theorem balanced_plain (h : ∀ c ∈ cs, ¬opens c ∧ ¬closes c ∧ outside c) :
    Balanced opens closes outside cs := by
  induction cs with
  | nil => exact .nil
  | cons c cs ih =>
    rw [List.forall_mem_cons] at h
    exact .char h.1.1 h.1.2.1 h.1.2.2 (ih h.2)

theorem isBody_plain (h : ∀ c ∈ cs, c ≠ '\x7b' ∧ c ≠ '\x7d') : IsBody cs :=
  balanced_plain fun c hc => ⟨(h c hc).1, (h c hc).2, trivial⟩

theorem beforeClosing?_open (depth : Nat) (cs : List Char) :
    beforeClosing? depth ('\x7b' :: cs) = (beforeClosing? (depth + 1) cs).map (· + 1) := by
  simp [beforeClosing?]

theorem beforeClosing?_close (depth : Nat) (cs : List Char) :
    beforeClosing? (depth + 1) ('\x7d' :: cs) = (beforeClosing? depth cs).map (· + 1) := by
  simp [beforeClosing?]

theorem beforeClosing?_char {c : Char} (ho : c ≠ '\x7b') (hcl : c ≠ '\x7d') (depth : Nat)
    (cs : List Char) :
    beforeClosing? depth (c :: cs) = (beforeClosing? depth cs).map (· + 1) := by
  simp [beforeClosing?, ho, hcl]

/-- What is balanced does not change which brace is the closing one. -/
theorem beforeClosing?_append (h : Balanced (· = '\x7b') (· = '\x7d') outside cs) (depth : Nat)
    (rest : List Char) :
    beforeClosing? depth (cs ++ rest) = (beforeClosing? depth rest).map (· + cs.length) := by
  induction h generalizing depth rest with
  | nil => simp
  | char ho hcl _ _ ih =>
    rw [List.cons_append, beforeClosing?_char ho hcl, ih, Option.map_map]
    rfl
  | @block outside o cs c ds ho hcl _ _ ihc ihd =>
    subst ho hcl
    rw [List.cons_append, List.append_assoc, beforeClosing?_open, ihc, List.cons_append,
      beforeClosing?_close, ihd]
    simp only [Option.map_map, List.length_cons, List.length_append]
    congr 1
    funext n
    simp only [Function.comp]
    omega

theorem splitOutside_ne_nil (sep : Char) (depth : Int) (cs : List Char) :
    splitOutside sep depth cs ≠ [] := by
  cases cs with
  | nil => simp [splitOutside]
  | cons c cs =>
    rw [splitOutside]
    split
    · simp
    · split <;> simp

theorem splitOutside_cons {sep c : Char} {depth : Int} (h : c = sep → depth ≠ 0) (cs : List Char) :
    splitOutside sep depth (c :: cs) =
      (splitOutside sep (depthAfter depth c) cs).modifyHead (c :: ·) := by
  rw [splitOutside, if_neg (by simpa using h)]
  split
  · next hnil => exact absurd hnil (splitOutside_ne_nil sep _ cs)
  · next hcons => rw [hcons, List.modifyHead_cons]

theorem depthAfter_of_not {c : Char} (ho : ¬(c = '(' ∨ c = '[')) (hcl : ¬(c = ')' ∨ c = ']'))
    (depth : Int) : depthAfter depth c = depth := by
  rw [not_or] at ho hcl
  simp [depthAfter, ho, hcl]

/-- A scan that keeps the depth of brackets and looks for `stop` outside of them goes through a
balanced text step by step, if there is no such character, or the text stands in brackets. -/
theorem scan_append {α : Type} (f : Int → List Char → α) (step : Char → α → α)
    (stop : Char → Prop) (hmark : ¬stop '(' ∧ ¬stop '[')
    (hf : ∀ depth c cs, (stop c → depth ≠ 0) →
      f depth (c :: cs) = step c (f (depthAfter depth c) cs))
    (h : Bracketed outside cs) {depth : Int} (hdepth : 0 ≤ depth)
    (hstop : ∀ c, outside c → stop c → depth ≠ 0) (rest : List Char) :
    f depth (cs ++ rest) = cs.foldr step (f depth rest) := by
  induction h generalizing depth rest with
  | nil => rfl
  | @char outside c cs ho hcl hout _ ih =>
    rw [List.cons_append, hf depth c _ (hstop c hout), depthAfter_of_not ho hcl, ih hdepth hstop,
      List.foldr_cons]
  | @block outside o cs c ds ho hcl _ _ ihc ihd =>
    have hopen : depthAfter depth o = depth + 1 := by obtain rfl | rfl := ho <;> rfl
    have hclose : depthAfter (depth + 1) c = depth := by
      obtain rfl | rfl := hcl <;> simp [depthAfter]
    have hin : depth + 1 ≠ 0 := by omega
    have hfirst : ¬stop o := by obtain rfl | rfl := ho <;> simp [hmark]
    rw [List.cons_append, List.append_assoc, hf depth o _ (absurd · hfirst), hopen,
      ihc (by omega) fun _ _ _ => hin, List.cons_append, hf (depth + 1) c _ fun _ => hin, hclose,
      ihd hdepth hstop]
    simp

theorem foldr_modifyHead (cs : List Char) (pieces : List (List Char)) :
    cs.foldr (fun c pieces => pieces.modifyHead (c :: ·)) pieces =
      pieces.modifyHead (cs ++ ·) := by
  induction cs with
  | nil => exact (congrFun List.modifyHead_id _).symm
  | cons c cs ih =>
    rw [List.foldr_cons, ih, List.modifyHead_modifyHead]
    rfl

/-- In a balanced text no piece ends, if it stands in brackets or has no comma outside of them. -/
theorem splitOutside_append (h : Bracketed outside cs) {depth : Int} (hdepth : 0 ≤ depth)
    (hsep : ∀ c, outside c → c = ',' → depth ≠ 0) (rest : List Char) :
    splitOutside ',' depth (cs ++ rest) =
      (splitOutside ',' depth rest).modifyHead (cs ++ ·) := by
  rw [← foldr_modifyHead]
  exact scan_append (splitOutside ',') (fun c => List.modifyHead (c :: ·)) (· = ',') (by decide)
    (fun _ _ _ hc => splitOutside_cons hc _) h hdepth hsep rest

end Balanced

/-! ### Trees of rules -/

/-- A style sheet has rules with selectors, at-rules with rules in them, other at-rules, and
statements. -/
inductive Item
  | style (selectors : List (List Char)) (body : List Char)
  | group (head : List Char) (items : List Item)
  | block (head body : List Char)
  | statement (text : List Char)

namespace Item

mutual

/-- The text of a rule, with the blanks that scoping puts between the parts. -/
def print : Item → List Char
  | style selectors body =>
    List.intercalate ", ".toList selectors ++ (" \x7b".toList ++ (body ++ "\x7d\n".toList))
  | group head items => head ++ (" \x7b\n".toList ++ (printAll items ++ "\x7d\n".toList))
  | block head body => head ++ (" \x7b".toList ++ (body ++ "\x7d\n".toList))
  | statement text => text ++ ";\n".toList
termination_by structural i => i

def printAll : List Item → List Char
  | [] => []
  | i :: items => print i ++ printAll items
termination_by structural items => items

end

mutual

/-- What becomes of a rule when `f` is done to every selector in it, at any depth. -/
def mapSelectors (f : List Char → List Char) : Item → Item
  | style selectors body => style (selectors.map f) body
  | group head items => group head (mapAll f items)
  | block head body => block head body
  | statement text => statement text
termination_by structural i => i

def mapAll (f : List Char → List Char) : List Item → List Item
  | [] => []
  | i :: items => mapSelectors f i :: mapAll f items
termination_by structural items => items

end

end Item

/-- A text in front of a brace or a semicolon. -/
structure IsHead (cs : List Char) : Prop where
  trimmed : trim cs = cs
  unmarked : ∀ c ∈ cs, c ≠ '\x7b' ∧ c ≠ '\x7d' ∧ c ≠ ';'

/-- One selector of a list, which is no at-rule. -/
structure IsSelector (s : List Char) : Prop extends IsHead s where
  filled : s ≠ []
  single : IsSingle s
  not_at : s.head? ≠ some '@'

/-- The head begins with the name of an at-rule that holds rules, in any case of letters. -/
def NamesGroup (head : List Char) : Prop :=
  ∃ name prelude, head = name ++ prelude ∧ String.ofList (name.map Char.toLower) ∈ nestingAtRules ∧
    prelude.head?.all fun c => isBlank c || c = '('

/-- The parts of a rule end where their text says so. -/
inductive Item.IsWritten : Item → Prop
  | style : selectors ≠ [] → (∀ s ∈ selectors, IsSelector s) → IsBody body →
    IsWritten (.style selectors body)
  | group : IsHead head → NamesGroup head → (∀ i ∈ items, i.IsWritten) →
    IsWritten (.group head items)
  | block : IsHead head → head.head? = some '@' → ¬NamesGroup head → IsBody body →
    IsWritten (.block head body)
  | statement : IsHead text → IsWritten (.statement text)

/-- The names of the at-rules that hold rules are made of `@` and letters. -/
theorem goesOn_of_mem_nestingAtRules {name : List Char}
    (h : String.ofList (name.map Char.toLower) ∈ nestingAtRules) :
    ∀ c ∈ name, !(isBlank c || c = '(') := by
  intro c hc
  have hletters : ∀ rule ∈ nestingAtRules, ∀ d ∈ rule.toList, d = '@' ∨ d.isLower := by
    simp [nestingAtRules]
  have hlower : c.toLower = '@' ∨ c.toLower.isLower :=
    hletters _ h c.toLower (by simpa using ⟨c, hc, rfl⟩)
  obtain hat | halpha := hlower
  · obtain rfl := Text.eq_of_toLower (by decide) hat
    rfl
  · rw [Char.isLower_toLower_eq_isAlpha] at halpha
    have hparen : c ≠ '(' := by
      rintro rfl
      cases halpha
    have hblank : isBlank c = false :=
      Text.isBlank_of_isAlphanum (by simp [Char.isAlphanum, halpha])
    simp [hblank, hparen]

theorem NamesGroup.head?_eq {head : List Char} (h : NamesGroup head) : head.head? = some '@' := by
  obtain ⟨name, prelude, rfl, hname, -⟩ := h
  have hfirst : ∀ rule ∈ nestingAtRules, rule.toList.head? = some '@' := by simp [nestingAtRules]
  have hlower := hfirst _ hname
  rw [String.toList_ofList, List.head?_map, Option.map_eq_some_iff] at hlower
  obtain ⟨c, hc, hat⟩ := hlower
  rw [List.head?_append, hc, Text.eq_of_toLower (by decide) hat]
  rfl

theorem isNesting_iff {head : List Char} : isNesting head ↔ NamesGroup head := by
  rw [isNesting, List.contains_iff_mem]
  constructor
  · intro h
    refine ⟨_, head.dropWhile _, List.takeWhile_append_dropWhile.symm, h, ?_⟩
    rw [Option.all_eq_true]
    intro c hc
    have hnot := List.head?_dropWhile_not (fun c => !(isBlank c || c = '(')) head
    rw [hc] at hnot
    simpa [or_iff_not_imp_left] using hnot
  · rintro ⟨name, prelude, rfl, hname, hprelude⟩
    rw [Text.takeWhile_append_of_head (goesOn_of_mem_nestingAtRules hname)]
    · exact hname
    · cases prelude with
      | nil => rfl
      | cons c prelude => simpa [or_iff_not_imp_left] using hprelude

/-! ### One step -/

/-- How a rule is scoped. -/
def scopeRule (attr : String) (head body : List Char) : List Char :=
  if head.head? = some '@' then
    if isNesting head then braced head ('\n' :: scopeRules attr body) else braced head body
  else braced (scopeSelectors attr head) body

/-- How a text is scoped that has no blanks in front. -/
def scopeHere (attr : String) (cs : List Char) : List Char :=
  let head := trim (cs.takeWhile fun c => c != '\x7b' && c != ';')
  match cs.dropWhile fun c => c != '\x7b' && c != ';' with
  | [] => Text.trimEnd cs
  | mark :: rest =>
    if mark = ';' then head ++ ";\n".toList ++ scopeRules attr rest
    else
      match beforeClosing? 0 rest with
      | none => Text.trimEnd cs
      | some n => scopeRule attr head (rest.take n) ++ scopeRules attr (rest.drop (n + 1))

theorem scopeRules_eq (attr : String) (css : List Char) :
    scopeRules attr css = scopeHere attr (Text.trimStart css) := by
  rw [scopeRules, scopeHere]
  split
  · next h => rw [h]
  · next h => rw [h]; rfl

theorem scopeRules_nil (attr : String) : scopeRules attr [] = [] := by
  rw [scopeRules_eq]
  rfl

section Step

variable {head pad body : List Char}

/-- Blanks between rules are dropped. -/
theorem scopeRules_blank (attr : String) {b : Char} (hb : isBlank b) (cs : List Char) :
    scopeRules attr (b :: cs) = scopeRules attr cs := by
  rw [scopeRules_eq, scopeRules_eq]
  exact congrArg (scopeHere attr) (List.dropWhile_cons_of_pos hb)

theorem IsHead.head_all (h : IsHead head) : head.head?.all (!isBlank ·) :=
  h.trimmed ▸ Text.head?_trim head

theorem IsHead.last_all (h : IsHead head) : head.getLast?.all (!isBlank ·) := by
  obtain ⟨-, -, -, -, -, hlast⟩ := Text.exists_trim head
  rwa [h.trimmed] at hlast

theorem IsHead.trim_append (h : IsHead head) (hpad : ∀ c ∈ pad, isBlank c) :
    trim (head ++ pad) = head :=
  Text.trim_append (List.forall_mem_nil _) hpad h.head_all h.last_all

theorem IsHead.trimStart_append (h : IsHead head) {cs : List Char}
    (hc : head = [] → cs.head?.all (!isBlank ·)) : Text.trimStart (head ++ cs) = head ++ cs := by
  have hhead : (head ++ cs).head?.all (!isBlank ·) := by
    cases head with
    | nil => exact hc rfl
    | cons c head => exact h.head_all
  exact Text.trimStart_append (List.forall_mem_nil _) hhead

/-- A head reaches to the mark behind it. -/
theorem IsHead.span (h : IsHead head) (hpad : ∀ c ∈ pad, isBlank c) {mark : Char}
    (hm : mark = '\x7b' ∨ mark = ';') (rest : List Char) :
    (head ++ pad ++ mark :: rest).takeWhile (fun c => c != '\x7b' && c != ';') = head ++ pad ∧
      (head ++ pad ++ mark :: rest).dropWhile (fun c => c != '\x7b' && c != ';') =
        mark :: rest := by
  have hin : ∀ c ∈ head ++ pad, (c != '\x7b' && c != ';') = true := by
    refine List.forall_mem_append.2 ⟨fun c hc => ?_, fun c hc => ?_⟩
    · obtain ⟨hopen, -, hend⟩ := h.unmarked c hc
      simp [hopen, hend]
    · have hb := hpad c hc
      by_contra hmark
      obtain rfl | rfl : c = '\x7b' ∨ c = ';' := by simpa [or_iff_not_imp_left] using hmark
      all_goals exact absurd hb (by decide)
  have hend : ¬(mark != '\x7b' && mark != ';') = true := by obtain rfl | rfl := hm <;> decide
  rw [List.takeWhile_append_of_pos hin, List.dropWhile_append_of_pos hin,
    List.takeWhile_cons, if_neg hend, List.dropWhile_cons, if_neg hend, List.append_nil]
  exact ⟨rfl, rfl⟩

theorem scopeRules_statement (attr : String) (h : IsHead head) (rest : List Char) :
    scopeRules attr (head ++ ';' :: rest) = head ++ (";\n".toList ++ scopeRules attr rest) := by
  obtain ⟨htake, hdrop⟩ := h.span (List.forall_mem_nil _) (.inr rfl) rest
  rw [List.append_nil] at htake hdrop
  rw [scopeRules_eq, h.trimStart_append fun _ => rfl, scopeHere, hdrop, htake, h.trimmed]
  simp

theorem scopeRules_rule (attr : String) (h : IsHead head) (hfilled : head ≠ [])
    (hpad : ∀ c ∈ pad, isBlank c) (hbody : IsBody body) (rest : List Char) :
    scopeRules attr (head ++ (pad ++ '\x7b' :: (body ++ '\x7d' :: rest))) =
      scopeRule attr head body ++ scopeRules attr rest := by
  obtain ⟨htake, hdrop⟩ := h.span hpad (.inl rfl) (body ++ '\x7d' :: rest)
  have hclose : beforeClosing? 0 (body ++ '\x7d' :: rest) = some body.length := by
    rw [beforeClosing?_append hbody]
    simp [beforeClosing?]
  rw [scopeRules_eq, h.trimStart_append fun hnil => absurd hnil hfilled, ← List.append_assoc,
    scopeHere, hdrop, htake, h.trim_append hpad]
  simp [hclose]

/-- A space stands in front of a body. -/
theorem blank_space : ∀ c ∈ [' '], isBlank c := List.forall_mem_singleton.2 rfl

end Step

/-! ### Selectors -/

section Selectors

variable {attr : String} {s : List Char} {ss : List (List Char)}

theorem commaSeparated_eq (ss : List (List Char)) :
    commaSeparated ss = List.intercalate ", ".toList ss := by
  fun_induction commaSeparated ss with
  | case1 => rfl
  | case2 piece => exact List.intercalate_singleton.symm
  | case3 piece pieces hne ih =>
    obtain ⟨next, rest, rfl⟩ := List.exists_cons_of_ne_nil hne
    rw [ih, List.intercalate_cons_cons]
    simp

theorem splitOutside_comma (cs : List Char) :
    splitOutside ',' 0 (',' :: cs) = [] :: splitOutside ',' 0 cs := rfl

/-- Selectors are divided where they were joined. -/
theorem splitOutside_intercalate (h : ∀ t ∈ s :: ss, IsSingle t) :
    splitOutside ',' 0 (List.intercalate [','] (s :: ss)) = s :: ss := by
  have hsep : ∀ c, c ≠ ',' → c = ',' → (0 : Int) ≠ 0 := fun c hne he => absurd he hne
  induction ss generalizing s with
  | nil =>
    have hs := splitOutside_append (h s List.mem_cons_self) le_rfl hsep []
    simpa [splitOutside] using hs
  | cons t ss ih =>
    rw [List.forall_mem_cons] at h
    rw [List.intercalate_cons_cons, List.append_assoc, splitOutside_append h.1 le_rfl hsep,
      List.singleton_append, splitOutside_comma, ih h.2]
    simp

theorem ne_of_isBlank {c mark : Char} (h : isBlank c) (hm : isBlank mark = false) : c ≠ mark := by
  rintro rfl
  rw [h] at hm
  cases hm

/-- Blanks stand outside of brackets, and no comma is among them. -/
theorem isSingle_blanks {p : List Char} (h : ∀ c ∈ p, isBlank c) : IsSingle p :=
  balanced_plain fun c hc => by
    have hne (mark : Char) : isBlank mark = false → c ≠ mark := ne_of_isBlank (h c hc)
    exact ⟨not_or.2 ⟨hne _ rfl, hne _ rfl⟩, not_or.2 ⟨hne _ rfl, hne _ rfl⟩, hne _ rfl⟩

theorem isSingle_of_trim (h : IsSingle (trim s)) : IsSingle s := by
  obtain ⟨p, q, hs, hp, hq, -⟩ := Text.exists_trim s
  rw [hs]
  exact (isSingle_blanks hp).append (h.append (isSingle_blanks hq))

theorem scopeSelector_around (attr : String) {p q : List Char} (hp : ∀ c ∈ p, isBlank c)
    (hq : ∀ c ∈ q, isBlank c) (s : List Char) :
    scopeSelector attr (p ++ (s ++ q)) = scopeSelector attr s := by
  rw [scopeSelector, scopeSelector, Text.trim_around hp hq]

theorem scopeSelector_ne_nil (h : trim s ≠ []) (attr : String) : scopeSelector attr s ≠ [] := by
  simp [scopeSelector, h]

/-- The selectors of a list are scoped one by one, whatever blanks stand around them. -/
theorem scopeSelectors_commas (hne : ss ≠ []) (h : ∀ s ∈ ss, IsSelector (trim s)) :
    scopeSelectors attr (List.intercalate [','] ss) =
      List.intercalate ", ".toList (ss.map (scopeSelector attr)) := by
  obtain ⟨s, ss, rfl⟩ := List.exists_cons_of_ne_nil hne
  have hall : ∀ t ∈ (s :: ss).map (scopeSelector attr), (!t.isEmpty) = true := by
    refine List.forall_mem_map.2 fun t ht => ?_
    simpa using scopeSelector_ne_nil (h t ht).filled attr
  rw [scopeSelectors, splitOutside_intercalate fun t ht => isSingle_of_trim (h t ht).single,
    List.filter_eq_self.2 hall, commaSeparated_eq]

theorem intercalate_cons {α : Type} (sep a : List α) (as : List (List α)) :
    List.intercalate sep (a :: as) = a ++ as.flatMap (sep ++ ·) := by
  induction as generalizing a with
  | nil => simp
  | cons b as ih => simp [List.intercalate_cons_cons, ih]

theorem intercalate_space (s : List Char) (ss : List (List Char)) :
    List.intercalate ", ".toList (s :: ss) = List.intercalate [','] (s :: ss.map (' ' :: ·)) := by
  rw [intercalate_cons, intercalate_cons, List.flatMap_map]
  rfl

theorem scopeSelectors_intercalate (hne : ss ≠ []) (h : ∀ s ∈ ss, IsSelector s) :
    scopeSelectors attr (List.intercalate ", ".toList ss) =
      List.intercalate ", ".toList (ss.map (scopeSelector attr)) := by
  obtain ⟨s, ss, rfl⟩ := List.exists_cons_of_ne_nil hne
  have hspace (t : List Char) : trim (' ' :: t) = trim t := rfl
  have htrimmed : ∀ t ∈ s :: ss.map (' ' :: ·), IsSelector (trim t) := by
    rw [List.forall_mem_cons] at h ⊢
    refine ⟨h.1.trimmed.symm ▸ h.1, List.forall_mem_map.2 fun t ht => ?_⟩
    rw [hspace, (h.2 t ht).trimmed]
    exact h.2 t ht
  have hscoped : (s :: ss.map (' ' :: ·)).map (scopeSelector attr) =
      (s :: ss).map (scopeSelector attr) := by
    simp [scopeSelector, hspace]
  rw [intercalate_space, scopeSelectors_commas (List.cons_ne_nil _ _) htrimmed, hscoped]

/-- Joined selectors stand in front of a body. -/
theorem IsHead.join {cs ds : List Char} (hc : IsHead cs) (hcne : cs ≠ []) (hd : IsHead ds)
    (hdne : ds ≠ []) : IsHead (cs ++ ", ".toList ++ ds) := by
  have hhead : (cs ++ ", ".toList ++ ds).head?.all (!isBlank ·) := by
    obtain ⟨c, cs, rfl⟩ := List.exists_cons_of_ne_nil hcne
    exact hc.head_all
  have hlast : (cs ++ ", ".toList ++ ds).getLast?.all (!isBlank ·) := by
    rw [List.getLast?_append_of_ne_nil _ hdne]
    exact hd.last_all
  refine ⟨?_, ?_⟩
  · have := Text.trim_append (List.forall_mem_nil _) (List.forall_mem_nil _) hhead hlast
    simpa using this
  · refine List.forall_mem_append.2 ⟨List.forall_mem_append.2 ⟨hc.unmarked, ?_⟩, hd.unmarked⟩
    simp

theorem intercalate_ne_nil (hs : s ≠ []) (ss : List (List Char)) :
    List.intercalate ", ".toList (s :: ss) ≠ [] := by
  cases ss with
  | nil => rwa [List.intercalate_singleton]
  | cons t ss => simp [List.intercalate_cons_cons]

theorem isHead_intercalate (h : ∀ t ∈ s :: ss, IsSelector t) :
    IsHead (List.intercalate ", ".toList (s :: ss)) := by
  induction ss generalizing s with
  | nil =>
    rw [List.intercalate_singleton]
    exact (h s List.mem_cons_self).toIsHead
  | cons t ss ih =>
    rw [List.forall_mem_cons] at h
    have ht : t ≠ [] := (h.2 t List.mem_cons_self).filled
    rw [List.intercalate_cons_cons]
    exact h.1.toIsHead.join h.1.filled (ih h.2) (intercalate_ne_nil ht ss)

theorem head?_intercalate (hs : s ≠ []) (ss : List (List Char)) :
    (List.intercalate ", ".toList (s :: ss)).head? = s.head? := by
  cases ss with
  | nil => rw [List.intercalate_singleton]
  | cons t ss =>
    rw [List.intercalate_cons_cons, List.append_assoc, List.head?_append_of_ne_nil _ hs]

end Selectors

/-! ### Trees -/

namespace Item.IsWritten

variable {i : Item} {items : List Item} {attr : String}

theorem isBody_braced {head body : List Char} (hh : IsHead head) (hb : IsBody body) :
    IsBody (head ++ (" \x7b".toList ++ (body ++ "\x7d\n".toList))) := by
  have hhead : IsBody head := isBody_plain fun c hc =>
    ⟨(hh.unmarked c hc).1, (hh.unmarked c hc).2.1⟩
  have hend : IsBody ['\n'] := balanced_plain (by simp)
  exact hhead.append (.char (by decide) (by decide) trivial (.block rfl rfl hb hend))

theorem isBody_printAll (h : ∀ i ∈ items, IsBody i.print) : IsBody (printAll items) := by
  induction items with
  | nil => exact .nil
  | cons i items ih =>
    rw [List.forall_mem_cons] at h
    exact h.1.append (ih h.2)

/-- The text of a rule can stand in a block. -/
theorem isBody_print (h : i.IsWritten) : IsBody i.print := by
  induction h with
  | @style selectors body hne hs hb =>
    obtain ⟨s, ss, rfl⟩ := List.exists_cons_of_ne_nil hne
    exact isBody_braced (isHead_intercalate hs) hb
  | @group head items hh _ _ ih =>
    exact isBody_braced hh (.char (by decide) (by decide) trivial (isBody_printAll ih))
  | block hh _ _ hb => exact isBody_braced hh hb
  | @statement text hh =>
    have htext : ∀ c ∈ text, c ≠ '\x7b' ∧ c ≠ '\x7d' := fun c hc =>
      ⟨(hh.unmarked c hc).1, (hh.unmarked c hc).2.1⟩
    exact isBody_plain (List.forall_mem_append.2 ⟨htext, by simp⟩)

theorem scopeRules_printAll
    (h : ∀ i ∈ items, ∀ rest, scopeRules attr (i.print ++ rest) =
      (i.mapSelectors (scopeSelector attr)).print ++ scopeRules attr rest) (rest : List Char) :
    scopeRules attr (printAll items ++ rest) =
      printAll (mapAll (scopeSelector attr) items) ++ scopeRules attr rest := by
  induction items with
  | nil => rfl
  | cons i items ih =>
    rw [List.forall_mem_cons] at h
    rw [printAll, List.append_assoc, h.1, ih h.2, mapAll, printAll, List.append_assoc]

/-- A rule is scoped by itself, whatever comes behind it. -/
theorem scopeRules_print (attr : String) (h : i.IsWritten) (rest : List Char) :
    scopeRules attr (i.print ++ rest) =
      (i.mapSelectors (scopeSelector attr)).print ++ scopeRules attr rest := by
  induction h generalizing rest with
  | @style selectors body hne hs hb =>
    obtain ⟨s, ss, rfl⟩ := List.exists_cons_of_ne_nil hne
    have hfirst : IsSelector s := hs s List.mem_cons_self
    have hat : (List.intercalate ", ".toList (s :: ss)).head? ≠ some '@' := by
      rw [head?_intercalate hfirst.filled]
      exact hfirst.not_at
    have hscoped : scopeRule attr (List.intercalate ", ".toList (s :: ss)) body =
        braced (List.intercalate ", ".toList ((s :: ss).map (scopeSelector attr))) body := by
      rw [scopeRule, if_neg hat, scopeSelectors_intercalate hne hs]
    have hrule := scopeRules_rule attr (isHead_intercalate hs)
      (intercalate_ne_nil hfirst.filled ss) blank_space hb ('\n' :: rest)
    rw [scopeRules_blank attr rfl, hscoped] at hrule
    simpa [print, mapSelectors, braced] using hrule
  | @group head items hh hn hi ih =>
    have hat : head.head? = some '@' := hn.head?_eq
    have hfilled : head ≠ [] := by
      rintro rfl
      cases hat
    have hbody : IsBody ('\n' :: printAll items) :=
      .char (by decide) (by decide) trivial (isBody_printAll fun i hi' => (hi i hi').isBody_print)
    have hscoped : scopeRule attr head ('\n' :: printAll items) =
        braced head ('\n' :: printAll (mapAll (scopeSelector attr) items)) := by
      have hitems := scopeRules_printAll ih []
      rw [List.append_nil, scopeRules_nil, List.append_nil] at hitems
      rw [scopeRule, if_pos hat, if_pos (isNesting_iff.2 hn), scopeRules_blank attr rfl, hitems]
    have hrule := scopeRules_rule attr hh hfilled blank_space hbody ('\n' :: rest)
    rw [scopeRules_blank attr rfl, hscoped] at hrule
    simpa [print, mapSelectors, braced] using hrule
  | @block head body hh hat hn hb =>
    have hfilled : head ≠ [] := by
      rintro rfl
      cases hat
    have hscoped : scopeRule attr head body = braced head body := by
      rw [scopeRule, if_pos hat, if_neg (mt isNesting_iff.1 hn)]
    have hrule := scopeRules_rule attr hh hfilled blank_space hb ('\n' :: rest)
    rw [scopeRules_blank attr rfl, hscoped] at hrule
    simpa [print, mapSelectors, braced] using hrule
  | @statement text hh =>
    have hrule := scopeRules_statement attr hh ('\n' :: rest)
    rw [scopeRules_blank attr rfl] at hrule
    simpa [print, mapSelectors] using hrule

end Item.IsWritten

/-! ### Sheets -/

theorem withoutComments_eq_self {css : List Char} (h : ¬"/*".toList <:+: css) :
    withoutComments css = css := by
  rw [withoutComments]
  split
  · rfl
  · next hcut => cases (Text.cutAt?_eq_none h).symm.trans hcut

theorem scope_print (attr : String) (sheet : List Item) (h : ∀ i ∈ sheet, i.IsWritten)
    (hc : ¬"/*".toList <:+: Item.printAll sheet) :
    scope attr (.ofList (Item.printAll sheet)) =
      .ofList (Item.printAll (Item.mapAll (scopeSelector attr) sheet)) := by
  have hrules := Item.IsWritten.scopeRules_printAll (fun i hi => (h i hi).scopeRules_print attr) []
  rw [List.append_nil, scopeRules_nil, List.append_nil] at hrules
  rw [scope, String.toList_ofList, withoutComments_eq_self hc, hrules]

/-- Rules on both sides of a nested block, brackets with a comma, and frames that are no rules. -/
theorem scope_print_media :
    let media : Item := .group "@media (width < 9px)".toList
      [.group "@Supports(gap: 0)".toList [.style ["p > i".toList] []],
        .style ["b:is(.c, d)".toList, ".e".toList] "top: 0".toList]
    let frames : Item := .block "@keyframes spin".toList "to \x7btop: 0\x7d".toList
    let sheet : List Item := [.statement "@import url(x.css)".toList, media, frames]
    (∀ i ∈ sheet, i.IsWritten) ∧ ¬"/*".toList <:+: Item.printAll sheet ∧
      scope "data-x" (.ofList (Item.printAll sheet)) =
        "@import url(x.css);\n@media (width < 9px) \x7b\n@Supports(gap: 0) \x7b\n" ++
          "p > i[data-x] \x7b\x7d\n\x7d\nb[data-x]:is(.c, d), .e[data-x] \x7btop: 0\x7d\n\x7d\n" ++
          "@keyframes spin \x7bto \x7btop: 0\x7d\x7d\n" := by
  intro media frames sheet
  have hchild : IsSelector "p > i".toList :=
    ⟨⟨by decide +kernel, by simp⟩, by simp, balanced_plain (by simp), by simp⟩
  have hclass : IsSelector ".e".toList :=
    ⟨⟨by decide +kernel, by simp⟩, by simp, balanced_plain (by simp), by simp⟩
  have hbrackets : IsSelector "b:is(.c, d)".toList := by
    refine ⟨⟨by decide +kernel, by simp⟩, by simp, ?_, by simp⟩
    have hname : IsSingle "b:is".toList := balanced_plain (by simp)
    have hin : Balanced (fun c => c = '(' ∨ c = '[') (fun c => c = ')' ∨ c = ']') (fun _ => True)
        ".c, d".toList := balanced_plain (by simp)
    exact hname.append (.block (.inl rfl) (.inl rfl) hin .nil)
  have hrule : (Item.style ["b:is(.c, d)".toList, ".e".toList] "top: 0".toList).IsWritten :=
    .style (by simp) (List.forall_mem_cons.2 ⟨hbrackets, List.forall_mem_singleton.2 hclass⟩)
      (balanced_plain (by simp))
  have hnested : (Item.style ["p > i".toList] []).IsWritten :=
    .style (by simp) (List.forall_mem_singleton.2 hchild) .nil
  have hinner : (Item.group "@Supports(gap: 0)".toList [.style ["p > i".toList] []]).IsWritten := by
    refine .group ⟨by decide +kernel, by simp⟩ ?_ (List.forall_mem_singleton.2 hnested)
    exact ⟨"@Supports".toList, "(gap: 0)".toList, rfl, by decide +kernel, by decide +kernel⟩
  have hmedia : media.IsWritten := by
    refine .group ⟨by decide +kernel, by simp⟩ ?_
      (List.forall_mem_cons.2 ⟨hinner, List.forall_mem_singleton.2 hrule⟩)
    exact ⟨"@media".toList, " (width < 9px)".toList, rfl, by decide +kernel, by decide +kernel⟩
  have hframes : frames.IsWritten := by
    refine .block ⟨by decide +kernel, by simp⟩ rfl (mt isNesting_iff.2 (by decide +kernel)) ?_
    have hname : IsBody "to ".toList := balanced_plain (by simp)
    have hin : IsBody "top: 0".toList := balanced_plain (by simp)
    have hblock : IsBody ('\x7b' :: ("top: 0".toList ++ ['\x7d'])) := .block rfl rfl hin .nil
    exact hname.append hblock
  have hwritten : ∀ i ∈ sheet, i.IsWritten :=
    List.forall_mem_cons.2 ⟨.statement ⟨by decide +kernel, by simp⟩,
      List.forall_mem_cons.2 ⟨hmedia, List.forall_mem_singleton.2 hframes⟩⟩
  have hcomment : ¬"/*".toList <:+: Item.printAll sheet := by decide +kernel
  refine ⟨hwritten, hcomment, ?_⟩
  rw [scope_print "data-x" sheet hwritten hcomment]
  decide +kernel

end PageCompiler.Style
