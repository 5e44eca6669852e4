import PageCompiler.Proofs.Spelling
import PageCompiler.Proofs.StyleSheet

/-!
Style sheets as they are written, in any layout, with comments and string literals in them. Main
statement: scoping drops the comments, scopes the selectors of every rule and leaves every string
literal as it is, in the body where it stands. Literals are read like any other text, so this holds
where none opens a comment and where the braces of each body are balanced, those in literals
included.
-/

namespace PageCompiler.Style

open Text (isBlank trim)

/-- A piece of a style sheet. -/
inductive Piece
  | char (c : Char)
  /-- A backslash, and the character behind it. -/
  | escape (c : Char)
  /-- A string literal: its quote, and its text with the quote that closes it. -/
  | literal (quote : Char) (text : List Char)
  | comment (text : List Char)

namespace Piece

def source : Piece → List Char
  | char c => [c]
  | escape c => ['\\', c]
  | literal quote text => quote :: text
  | comment text => "/*".toList ++ (text ++ "*/".toList)

/-- What is left of a piece where comments are dropped. -/
def kept : Piece → List Char
  | comment _ => []
  | p => p.source

def isLiteral : Piece → Bool
  | literal _ _ => true
  | _ => false

/-- The piece ends where it should: a quote in a literal stands behind a backslash. -/
def IsWritten : Piece → Prop
  | char c => c ≠ '"' ∧ c ≠ '\'' ∧ c ≠ '\\'
  | escape _ => True
  | literal quote text => (quote = '"' ∨ quote = '\'') ∧ ∃ value, Text.Quoted id quote value text
  | comment text => ¬"*/".toList <:+: text

/-- No comment begins in the middle of a literal. -/
def OpensNoComment : Piece → Prop
  | literal _ text => ¬"/*".toList <:+: text
  | _ => True

/-- The pieces do not make the beginning of a comment together. -/
def Parted (p q : Piece) : Prop := p.kept.getLast? = some '/' → q.kept.head? ≠ some '*'

end Piece

/-- The text of pieces. -/
def source (ps : List Piece) : List Char := ps.flatMap Piece.source

/-- The text of pieces without the comments. -/
def kept (ps : List Piece) : List Char := ps.flatMap Piece.kept

/-- A style rule. Its selectors have the blanks and comments around them. -/
structure Rule where
  selectors : List (List Piece)
  body : List Piece

namespace Rule

def pieces (r : Rule) : List Piece :=
  List.intercalate [.char ','] r.selectors ++ .char '\x7b' :: (r.body ++ [.char '\x7d'])

/-- The rule in the layout of scoped sheets, without comments. -/
def item (r : Rule) : Item := .style (r.selectors.map fun s => trim (kept s)) (kept r.body)

end Rule

/-- Rules one after the other, and what stands behind the last of them. -/
structure Sheet where
  rules : List Rule
  rest : List Piece

namespace Sheet

def pieces (s : Sheet) : List Piece := s.rules.flatMap Rule.pieces ++ s.rest

structure IsWritten (s : Sheet) : Prop where
  rules : ∀ r ∈ s.rules, r.item.IsWritten
  rest : ∀ c ∈ kept s.rest, isBlank c
  pieces : ∀ p ∈ s.pieces, p.IsWritten
  parted : s.pieces.IsChain Piece.Parted

end Sheet

/-! ### Comments -/

theorem withoutComments_append {front text : List Char} (hf : ¬"/*".toList <:+: front)
    (ht : ¬"*/".toList <:+: text) (rest : List Char) :
    withoutComments (front ++ ("/*".toList ++ (text ++ ("*/".toList ++ rest)))) =
      front ++ withoutComments rest := by
  have hopen : Text.cutAt? ['/', '*'] (front ++ ("/*".toList ++ (text ++ ("*/".toList ++ rest)))) =
      some (front, text ++ ("*/".toList ++ rest)) := Text.cutAt?_append_of_notMem (by simp) hf
  have hclose : Text.cutAt? ['*', '/'] (text ++ ("*/".toList ++ rest)) = some (text, rest) :=
    Text.cutAt?_append_of_notMem (by simp) ht
  rw [withoutComments]
  split
  · next hcut => cases hopen.symm.trans hcut
  · next hcut =>
    cases hopen.symm.trans hcut
    split
    · next hcut => cases hclose.symm.trans hcut
    · next hcut =>
      cases hclose.symm.trans hcut
      rfl

namespace Piece

variable {p : Piece}

theorem kept_of_ne (h : ∀ text, p ≠ comment text) : p.kept = p.source := by
  cases p with
  | comment text => exact absurd rfl (h text)
  | _ => rfl

/-- A literal begins with a quote. -/
theorem not_infix_kept (h : p.IsWritten) (hn : p.OpensNoComment) : ¬"/*".toList <:+: p.kept := by
  cases p with
  | char c => simp [kept, source, List.infix_cons_iff]
  | escape c => simp [kept, source, List.infix_cons_iff]
  | literal quote text =>
    have hquote : quote ≠ '/' := by obtain ⟨rfl | rfl, -⟩ := h <;> decide
    have hnot : ¬"/*".toList <+: quote :: text := fun hpre =>
      hquote (List.cons_prefix_cons.1 hpre).1.symm
    exact fun hmark => (List.infix_cons_iff.1 hmark).elim hnot hn
  | comment text => simp [kept]

end Piece

section Comments

variable {ps : List Piece}

/-- The text in front of the next comment is put off. -/
theorem withoutComments_behind (hw : ∀ p ∈ ps, p.IsWritten) (hn : ∀ p ∈ ps, p.OpensNoComment)
    (hp : ps.IsChain Piece.Parted) {front : List Char} (hf : ¬"/*".toList <:+: front)
    (hnext : ∀ p ∈ ps.head?, front.getLast? = some '/' → p.kept.head? ≠ some '*') :
    withoutComments (front ++ source ps) = front ++ kept ps := by
  induction ps generalizing front with
  | nil => simpa [source, kept] using withoutComments_eq_self hf
  | cons p ps ih =>
    rw [List.forall_mem_cons] at hw hn
    obtain ⟨hparted, hchain⟩ := List.isChain_cons.1 hp
    have hsource : source (p :: ps) = p.source ++ source ps := List.flatMap_cons
    have hkept : kept (p :: ps) = p.kept ++ kept ps := List.flatMap_cons
    rw [hsource, hkept]
    by_cases hcomment : ∃ text, p = .comment text
    · obtain ⟨text, rfl⟩ := hcomment
      have hrest : withoutComments (source ps) = kept ps := by
        simpa using @ih hw.2 hn.2 hchain [] (by simp) (by simp)
      simp only [Piece.source, Piece.kept, List.append_assoc, List.nil_append]
      rw [withoutComments_append hf hw.1, hrest]
    · have hkept : p.kept = p.source := Piece.kept_of_ne fun text h => hcomment ⟨text, h⟩
      have hfilled : p.kept ≠ [] := by
        rw [hkept]
        cases p <;> simp [Piece.source]
      have hfront : ¬"/*".toList <:+: front ++ p.kept :=
        Text.not_pair_infix_append hf (p.not_infix_kept hw.1 hn.1) (hnext p rfl)
      rw [← hkept, ← List.append_assoc, ← List.append_assoc]
      refine ih hw.2 hn.2 hchain hfront fun q hq hlast => ?_
      rw [List.getLast?_append_of_ne_nil _ hfilled] at hlast
      exact hparted q hq hlast

/-- Where no literal opens a comment, just the comments are dropped. -/
theorem withoutComments_source (hw : ∀ p ∈ ps, p.IsWritten) (hn : ∀ p ∈ ps, p.OpensNoComment)
    (hp : ps.IsChain Piece.Parted) : withoutComments (source ps) = kept ps := by
  have hstart : ∀ p ∈ ps.head?, [].getLast? = some '/' → p.kept.head? ≠ some '*' := nofun
  simpa using withoutComments_behind hw hn hp (by simp) hstart

end Comments

/-! ### Layout -/

section Layout

variable {p q cs : List Char} {ss : List (List Char)}

theorem depthAfter_of_isBlank {c : Char} (h : isBlank c) (depth : Int) :
    depthAfter depth c = depth := by
  have hne (mark : Char) : isBlank mark = false → c ≠ mark := ne_of_isBlank h
  exact depthAfter_of_not (not_or.2 ⟨hne _ rfl, hne _ rfl⟩) (not_or.2 ⟨hne _ rfl, hne _ rfl⟩) depth

/-- Blanks behind a text are part of its last piece. -/
theorem splitOutside_append_blanks (hq : ∀ c ∈ q, isBlank c) (depth : Int) (cs : List Char) :
    ∃ pieces last, splitOutside ',' depth cs = pieces ++ [last] ∧
      splitOutside ',' depth (cs ++ q) = pieces ++ [last ++ q] := by
  induction cs generalizing depth with
  | nil =>
    refine ⟨[], [], rfl, ?_⟩
    induction q with
    | nil => rfl
    | cons c q ih =>
      rw [List.forall_mem_cons] at hq
      have hcomma : c = ',' → depth ≠ 0 := fun h => absurd h (ne_of_isBlank hq.1 rfl)
      have ih : splitOutside ',' depth q = [q] := ih hq.2
      show splitOutside ',' depth (c :: q) = [c :: q]
      rw [splitOutside_cons hcomma, depthAfter_of_isBlank hq.1, ih, List.modifyHead_cons]
  | cons c cs ih =>
    obtain ⟨pieces, last, hcs, hcsq⟩ := ih (depthAfter depth c)
    by_cases hsep : c = ',' ∧ depth = 0
    · obtain ⟨rfl, rfl⟩ := hsep
      refine ⟨[] :: pieces, last, ?_, ?_⟩
      · exact (splitOutside_comma cs).trans (congrArg ([] :: ·) hcs)
      · exact (splitOutside_comma (cs ++ q)).trans (congrArg ([] :: ·) hcsq)
    · have hcomma : c = ',' → depth ≠ 0 := fun hc hd => hsep ⟨hc, hd⟩
      rw [List.cons_append, splitOutside_cons hcomma, splitOutside_cons hcomma, hcs, hcsq]
      cases pieces with
      | nil => exact ⟨[], c :: last, rfl, rfl⟩
      | cons piece pieces => exact ⟨(c :: piece) :: pieces, last, rfl, rfl⟩

/-- Blanks around a list of selectors make no difference. -/
theorem scopeSelectors_trim (attr : String) (cs : List Char) :
    scopeSelectors attr (trim cs) = scopeSelectors attr cs := by
  obtain ⟨p, q, hcs, hp, hq, -⟩ := Text.exists_trim cs
  have hfront (s : List Char) : scopeSelector attr (p ++ s) = scopeSelector attr s := by
    have h := scopeSelector_around attr hp (List.forall_mem_nil _) s
    rwa [List.append_nil] at h
  have hend (s : List Char) : scopeSelector attr (s ++ q) = scopeSelector attr s :=
    scopeSelector_around attr (List.forall_mem_nil _) hq s
  have hmap : (splitOutside ',' 0 cs).map (scopeSelector attr) =
      (splitOutside ',' 0 (trim cs)).map (scopeSelector attr) := by
    obtain ⟨pieces, last, htrim, hblanks⟩ := splitOutside_append_blanks hq 0 (trim cs)
    have hsplit : splitOutside ',' 0 cs = (pieces ++ [last ++ q]).modifyHead (p ++ ·) := by
      rw [← hblanks, ← splitOutside_append (isSingle_blanks hp) le_rfl fun c hne he =>
        absurd he hne, ← hcs]
    rw [hsplit, htrim]
    cases pieces with
    | nil => simp [hfront, hend]
    | cons piece pieces => simp [hfront, hend]
  rw [scopeSelectors, scopeSelectors, hmap]

theorem scopeSelector_trim (attr : String) (s : List Char) :
    scopeSelector attr (trim s) = scopeSelector attr s := by
  rw [scopeSelector, scopeSelector, Text.trim_trim]

theorem head?_trim_intercalate {s : List Char} (h : trim s ≠ []) (ss : List (List Char)) :
    (trim (List.intercalate [','] (s :: ss))).head? = (trim s).head? := by
  obtain ⟨c, ds, hs⟩ := List.exists_cons_of_ne_nil h
  have hfind : s.find? (!isBlank ·) = some c := by
    rw [← Text.head?_trim_eq, hs]
    rfl
  rw [Text.head?_trim_eq, hs, intercalate_cons, List.find?_append, hfind]
  rfl

theorem mem_intercalate {c : Char} (h : c ∈ List.intercalate [','] ss) :
    c = ',' ∨ ∃ s ∈ ss, c ∈ s := by
  cases ss with
  | nil => simp at h
  | cons s ss =>
    rw [intercalate_cons, List.mem_append, List.mem_flatMap] at h
    obtain h | ⟨t, ht, h⟩ := h
    · exact .inr ⟨s, List.mem_cons_self, h⟩
    · obtain rfl | h := List.mem_cons.1 h
      · exact .inl rfl
      · exact .inr ⟨t, List.mem_cons_of_mem s ht, h⟩

/-- A list of selectors stands in front of a body. -/
theorem isHead_trim_intercalate (h : ∀ s ∈ ss, IsSelector (trim s)) :
    IsHead (trim (List.intercalate [','] ss)) where
  trimmed := Text.trim_trim _
  unmarked c hc := by
    obtain ⟨p, q, hss, -⟩ := Text.exists_trim (List.intercalate [','] ss)
    have hmem : c ∈ List.intercalate [','] ss := by
      rw [hss]
      exact List.mem_append_right p (List.mem_append_left q hc)
    obtain rfl | ⟨s, hs, hc⟩ := mem_intercalate hmem
    · decide
    · obtain hblank | hc := Text.isBlank_or_mem_trim hc
      · exact ⟨ne_of_isBlank hblank rfl, ne_of_isBlank hblank rfl, ne_of_isBlank hblank rfl⟩
      · exact (h s hs).unmarked c hc

theorem scopeRules_blanks (attr : String) (hp : ∀ c ∈ p, isBlank c) (cs : List Char) :
    scopeRules attr (p ++ cs) = scopeRules attr cs := by
  induction p with
  | nil => rfl
  | cons b p ih =>
    rw [List.forall_mem_cons] at hp
    rw [List.cons_append, scopeRules_blank attr hp.1, ih hp.2]

end Layout

/-! ### Rules -/

theorem kept_append (ps qs : List Piece) : kept (ps ++ qs) = kept ps ++ kept qs :=
  List.flatMap_append

theorem kept_intercalate (ss : List (List Piece)) :
    kept (List.intercalate [.char ','] ss) = List.intercalate [','] (ss.map kept) := by
  cases ss with
  | nil => rfl
  | cons s ss =>
    have hrest : kept (ss.flatMap ([.char ','] ++ ·)) = ss.flatMap fun t => [','] ++ kept t :=
      List.flatMap_assoc
    rw [intercalate_cons, kept_append, List.map_cons, intercalate_cons, List.flatMap_map, hrest]

theorem Rule.kept_pieces (r : Rule) :
    kept r.pieces = List.intercalate [','] (r.selectors.map kept) ++
      '\x7b' :: (kept r.body ++ ['\x7d']) := by
  rw [Rule.pieces, kept_append, kept_intercalate]
  simp [kept, Piece.kept, Piece.source]

/-- A rule is scoped by itself, in whatever layout it is written. -/
theorem scopeRules_kept (attr : String) {r : Rule} (h : r.item.IsWritten) (rest : List Char) :
    scopeRules attr (kept r.pieces ++ rest) =
      (r.item.mapSelectors (scopeSelector attr)).print ++ scopeRules attr rest := by
  rw [Rule.item] at h ⊢
  cases h with
  | style hne hs hbody =>
    have hselectors : ∀ s ∈ r.selectors.map kept, IsSelector (trim s) := by
      rw [List.forall_mem_map] at hs ⊢
      exact hs
    rw [Ne, List.map_eq_nil_iff] at hne
    obtain ⟨s, ss, hss⟩ := List.exists_cons_of_ne_nil hne
    have hfirst : IsSelector (trim (kept s)) := hselectors (kept s) (by simp [hss])
    have hhead := isHead_trim_intercalate hselectors
    have hstart := head?_trim_intercalate hfirst.filled (ss.map kept)
    rw [← List.map_cons, ← hss] at hstart
    have hat : (trim (List.intercalate [','] (r.selectors.map kept))).head? ≠ some '@' :=
      hstart ▸ hfirst.not_at
    have hfilled : trim (List.intercalate [','] (r.selectors.map kept)) ≠ [] := by
      rw [Ne, ← List.head?_eq_none_iff, hstart, List.head?_eq_none_iff]
      exact hfirst.filled
    obtain ⟨p, q, hprelude, hp, hq, -⟩ :=
      Text.exists_trim (List.intercalate [','] (r.selectors.map kept))
    have hscoped : scopeSelectors attr (List.intercalate [','] (r.selectors.map kept)) = _ :=
      scopeSelectors_commas (by simpa using hne) hselectors
    have hrule := scopeRules_rule attr hhead hfilled hq hbody rest
    rw [scopeRule, if_neg hat, scopeSelectors_trim, hscoped] at hrule
    rw [Rule.kept_pieces, hprelude]
    simp only [List.append_assoc, List.cons_append, List.nil_append]
    rw [scopeRules_blanks attr hp, hrule, Item.mapSelectors, Item.print, List.map_map, List.map_map]
    simp [braced, Function.comp_def, scopeSelector_trim]

theorem scopeRules_rules (attr : String) {rules : List Rule} (h : ∀ r ∈ rules, r.item.IsWritten)
    (rest : List Char) :
    scopeRules attr (kept (rules.flatMap Rule.pieces) ++ rest) =
      Item.printAll (Item.mapAll (scopeSelector attr) (rules.map Rule.item)) ++
        scopeRules attr rest := by
  induction rules with
  | nil => rfl
  | cons r rules ih =>
    rw [List.forall_mem_cons] at h
    rw [List.flatMap_cons, kept_append, List.append_assoc, scopeRules_kept attr h.1, ih h.2,
      List.map_cons, Item.mapAll, Item.printAll, List.append_assoc]

/-- Scoping drops the comments of a sheet, asks for the attribute in every selector, and changes
nothing in the bodies of the rules: the string literals in them are what they were, whatever they
hold, if no literal opens a comment and the braces of each body are balanced with those in its
literals. -/
theorem scope_keeps_literals (attr : String) {sheet : Sheet} (h : sheet.IsWritten)
    (hn : ∀ p ∈ sheet.pieces, p.OpensNoComment) :
    scope attr (.ofList (source sheet.pieces)) =
        .ofList (Item.printAll (Item.mapAll (scopeSelector attr) (sheet.rules.map Rule.item))) ∧
      ∀ r ∈ sheet.rules, ∀ p ∈ r.body, p.isLiteral → p.source <:+: kept r.body := by
  constructor
  · have hcomments : withoutComments (source sheet.pieces) = kept sheet.pieces :=
      withoutComments_source h.pieces hn h.parted
    have hrest : scopeRules attr (kept sheet.rest) = [] := by
      rw [← List.append_nil (kept sheet.rest), scopeRules_blanks attr h.rest, scopeRules_nil]
    rw [scope, String.toList_ofList, hcomments, Sheet.pieces, kept_append,
      scopeRules_rules attr h.rules, hrest, List.append_nil]
  · intro r _ p hp hliteral
    have hkept : p.kept = p.source := Piece.kept_of_ne fun text hcomment => by
      rw [hcomment] at hliteral
      cases hliteral
    rw [← hkept, kept, List.flatMap_def]
    exact List.infix_of_mem_flatten (List.mem_map_of_mem hp)

theorem scope_keeps_literals_quotes :
    let chars (s : String) : List Piece := s.toList.map .char
    let first : Rule :=
      ⟨[.comment "it's \x7d".toList :: chars ".a", chars "\n.b"],
        chars "content: " ++ [.literal '"' "\x7b;\x7d*/\"".toList]⟩
    let second : Rule :=
      ⟨[chars "\n.c"], [.literal '\'' "\x7b'".toList, .literal '\'' "\\'\x7d'".toList]⟩
    let sheet : Sheet := ⟨[first, second], chars "\n"⟩
    sheet.IsWritten ∧ (∀ p ∈ sheet.pieces, p.OpensNoComment) ∧
      scope "data-x" (.ofList (source sheet.pieces)) =
        ".a[data-x], .b[data-x] \x7bcontent: \"\x7b;\x7d*/\"\x7d\n" ++
          ".c[data-x] \x7b'\x7b''\\'\x7d'\x7d\n" := by
  intro chars first second sheet
  have hclass {c : Char} (hc : c = 'a' ∨ c = 'b' ∨ c = 'c') : IsSelector ['.', c] := by
    obtain rfl | rfl | rfl := hc <;>
    exact ⟨⟨by decide +kernel, by simp⟩, by simp, balanced_plain (by simp), by simp⟩
  have hbody {front mid back : List Char}
      (h : ∀ c ∈ front ++ (mid ++ back), c ≠ '\x7b' ∧ c ≠ '\x7d') :
      IsBody (front ++ '\x7b' :: (mid ++ '\x7d' :: back)) := by
    simp only [List.forall_mem_append] at h
    exact (isBody_plain h.1).append (.block rfl rfl (isBody_plain h.2.1) (isBody_plain h.2.2))
  have hfirst : first.item.IsWritten := by
    have hitem : first.item = .style [['.', 'a'], ['.', 'b']]
        ("content: \"".toList ++ '\x7b' :: ([';'] ++ '\x7d' :: "*/\"".toList)) := by rfl
    rw [hitem]
    exact .style (by simp) (by simp [hclass]) (hbody (by simp))
  have hsecond : second.item.IsWritten := by
    have hitem : second.item = .style [['.', 'c']]
        (['\''] ++ '\x7b' :: ("''\\'".toList ++ '\x7d' :: ['\''])) := by rfl
    rw [hitem]
    exact .style (by simp) (by simp [hclass]) (hbody (by simp))
  have hdouble : ∃ value, Text.Quoted id '"' value ['\x7b', ';', '\x7d', '*', '/', '"'] :=
    ⟨['\x7b', ';', '\x7d', '*', '/'], .of_plain (by simp)⟩
  have hopen : ∃ value, Text.Quoted id '\'' value ['\x7b', '\''] :=
    ⟨['\x7b'], .of_plain (by simp)⟩
  have hclose : ∃ value, Text.Quoted id '\'' value ['\\', '\'', '\x7d', '\''] :=
    ⟨['\'', '\x7d'], .escape '\'' (.of_plain (by simp))⟩
  have hpieces : ∀ p ∈ sheet.pieces, p.IsWritten ∧ p.OpensNoComment := by
    simp [sheet, first, second, chars, Sheet.pieces, Rule.pieces, intercalate_cons,
      Piece.IsWritten, Piece.OpensNoComment, List.infix_cons_iff, hdouble, hopen, hclose]
  have h : sheet.IsWritten :=
    { rules := List.forall_mem_cons.2 ⟨hfirst, List.forall_mem_singleton.2 hsecond⟩
      rest := by simp [sheet, chars, kept, Piece.kept, Piece.source, isBlank]
      pieces := fun p hp => (hpieces p hp).1
      parted := by
        simp [sheet, first, second, chars, Sheet.pieces, Rule.pieces, intercalate_cons,
          Piece.Parted, Piece.kept, Piece.source] }
  have hn : ∀ p ∈ sheet.pieces, p.OpensNoComment := fun p hp => (hpieces p hp).2
  refine ⟨h, hn, ?_⟩
  rw [(scope_keeps_literals "data-x" h hn).1]
  decide +kernel

/-- A brace in a literal ends the body, and marks in two literals make a comment of what stands
between them, though all braces are balanced outside of the literals. -/
theorem scope_breaks_literals :
    let chars (s : String) : List Piece := s.toList.map .char
    let content (s : String) : Rule := ⟨[chars ".a"], chars "content: " ++ [.literal '"' s.toList]⟩
    let top : Rule := ⟨[chars ".b"], chars "top: 0"⟩
    let brace : Sheet := ⟨[content "\x7d\"", top], []⟩
    let marks : Sheet := ⟨[content "/*\"", top, content "*/\""], []⟩
    (∀ p ∈ brace.pieces ++ marks.pieces, p.IsWritten) ∧
      (∀ r ∈ brace.rules ++ marks.rules, IsBody (source (r.body.filter (!·.isLiteral)))) ∧
      scope "data-x" (.ofList (source brace.pieces)) =
        ".a[data-x] \x7bcontent: \"\x7d\n\"\x7d.b[data-x] \x7btop: 0\x7d\n" ∧
      scope "data-x" (.ofList (source marks.pieces)) = ".a[data-x] \x7bcontent: \"\"\x7d\n" := by
  intro chars content top brace marks
  have hbrace : ∃ value, Text.Quoted id '"' value ['\x7d', '"'] :=
    ⟨['\x7d'], .of_plain (by simp)⟩
  have hopen : ∃ value, Text.Quoted id '"' value ['/', '*', '"'] :=
    ⟨['/', '*'], .of_plain (by simp)⟩
  have hclose : ∃ value, Text.Quoted id '"' value ['*', '/', '"'] :=
    ⟨['*', '/'], .of_plain (by simp)⟩
  refine ⟨?_, ?_, by decide +kernel, by decide +kernel⟩
  · simp [brace, marks, content, top, chars, Sheet.pieces, Rule.pieces, Piece.IsWritten, hbrace,
      hopen, hclose]
  · have hcontent (s : String) : IsBody (source ((content s).body.filter (!·.isLiteral))) :=
      (isBody_plain (by simp) : IsBody "content: ".toList)
    have htop : IsBody (source (top.body.filter (!·.isLiteral))) :=
      (isBody_plain (by simp) : IsBody "top: 0".toList)
    simp [brace, marks, hcontent, htop]

end PageCompiler.Style
