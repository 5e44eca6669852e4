import PageCompiler.Proofs.StatementText
import PageCompiler.Props.Block

/-!
Texts as defaults of props. Main statement: a prop of texts that is declared on a line of its own,
whatever separator, blanks and comment stand behind it, has the quoted text as its default if and
only if two slashes do not stand in the text: the comment of a line begins at the first two, also
where they stand between quotes.
-/

namespace PageCompiler

open Text (isBlank trim escapeMark)

namespace Props

/-! ### Lines -/

section Lines

variable {p q cs : List Char}

theorem slash_notMem_blanks (h : ∀ c ∈ cs, isBlank c) : '/' ∉ cs := fun hm => by
  cases h '/' hm

/-- Blanks around a line make no difference, also behind its comment. -/
theorem declarationText_around (hp : ∀ c ∈ p, isBlank c) (hq : ∀ c ∈ q, isBlank c)
    (cs : List Char) : declarationText (p ++ (cs ++ q)) = declarationText cs := by
  have hfront (ds : List Char) := Text.cutAt?_append_left (p := ['/']) (slash_notMem_blanks hp) ds
  cases hcut : Text.cutAt? ['/', '/'] cs with
  | some cut =>
    obtain ⟨before, rest⟩ := cut
    have htrim : trim (p ++ before) = trim before := by
      have h : trim (p ++ (before ++ [])) = _ := Text.trim_around hp (List.forall_mem_nil _)
      rwa [List.append_nil] at h
    rw [declarationText, hfront, Text.cutAt?_append_right hcut, declarationText, hcut]
    simp only [Option.map_some, htrim]
  | none =>
    have hnone : ¬['/', '/'] <:+: cs ++ q := by
      refine Text.not_pair_infix_append (Text.cutAt?_eq_none_iff.1 hcut) (fun h => ?_) fun _ h => ?_
      · exact slash_notMem_blanks hq (h.subset List.mem_cons_self)
      · exact slash_notMem_blanks hq (List.mem_of_mem_head? h)
    rw [declarationText, hfront, Text.cutAt?_eq_none hnone, declarationText, hcut]
    simp only [Option.map_none, Text.trim_around hp hq]

variable (file : String) (number : Nat) (declared : List PropDefinition)

/-- Just what is declared on the lines counts. -/
theorem readLines_congr {lines lines' : List (List Char)}
    (h : lines.map declarationText = lines'.map declarationText) :
    readLines file number declared lines = readLines file number declared lines' := by
  induction lines generalizing number declared lines' with
  | nil =>
    rw [List.map_nil, eq_comm, List.map_eq_nil_iff] at h
    rw [h]
  | cons line lines ih =>
    obtain _ | ⟨line', lines'⟩ := lines'
    · cases h
    · rw [List.map_cons, List.map_cons, List.cons.injEq] at h
      rw [readLines, readLines, h.1]
      simp only [ih _ _ h.2]

/-- An empty line behind the others is none. -/
theorem readLines_concat_nil (lines : List (List Char)) :
    readLines file number declared (lines ++ [[]]) = readLines file number declared lines := by
  induction lines generalizing number declared with
  | nil => rfl
  | cons line lines ih =>
    rw [List.cons_append, readLines, readLines]
    simp only [ih]

theorem readLines_skip {lines : List (List Char)} (h : ∀ line ∈ lines, declarationText line = [])
    (rest : List (List Char)) :
    readLines file number declared (lines ++ rest) =
      readLines file (number + lines.length) declared rest := by
  induction lines generalizing number with
  | nil => rfl
  | cons line lines ih =>
    rw [List.forall_mem_cons] at h
    rw [List.cons_append, readLines, h.1, ih _ h.2, List.length_cons, Nat.add_right_comm,
      Nat.add_assoc]
    rfl

/-- The lines of a block are what stands between its line feeds. -/
theorem ofBlock_eq (block : PropsBlock) :
    ofBlock file block =
      readLines file block.location.line [] (Text.splitOn '\n' block.source.toList) := by
  have hreturn (line : List Char) :
      declarationText (if line.getLast? = some '\r' then line.dropLast else line) =
        declarationText line := by
    split
    · next h =>
      obtain ⟨start, rfl⟩ := List.getLast?_eq_some_iff.1 h
      have hline := declarationText_around (List.forall_mem_nil _)
        (List.forall_mem_singleton.2 rfl : ∀ c ∈ ['\r'], isBlank c) start
      rw [List.dropLast_concat, ← hline, List.nil_append]
    · rfl
  obtain ⟨start, last, hsplit, hlines⟩ := Text.exists_lines block.source.toList
  have hstart : (start.map fun l => if l.getLast? = some '\r' then l.dropLast else l).map
      declarationText = start.map declarationText := by
    rw [List.map_map]
    exact List.map_congr_left fun line _ => hreturn line
  rw [ofBlock, hlines, hsplit]
  split
  · next hlast =>
    rw [hlast, readLines_concat_nil, List.append_nil, readLines_congr file _ [] hstart]
  · refine readLines_congr file _ [] ?_
    rw [List.map_append, hstart, List.map_append]

/-- Trimming keeps a quotation mark and what is in front of it. -/
theorem trim_quote (hp : (p ++ ['"']).head?.all (!isBlank ·)) (cs : List Char) :
    trim (p ++ '"' :: cs) = p ++ '"' :: Text.trimEnd cs := by
  have hhead : (p ++ '"' :: cs).head?.all (!isBlank ·) := by
    cases p with
    | nil => rfl
    | cons c p => exact hp
  have hstart : Text.trimStart (p ++ '"' :: cs) = p ++ '"' :: cs :=
    Text.trimStart_append (List.forall_mem_nil _) hhead
  rw [trim, hstart, Text.trimEnd, Text.dropEndWhile_append rfl, Text.trimEnd]

/-- A comment is cut off, unless a slash in front of it would begin it earlier. -/
theorem declarationText_comment (hcs : ¬['/', '/'] <:+: cs) (hlast : cs.getLast? ≠ some '/')
    (comment : Option (List Char)) :
    declarationText (cs ++ comment.elim [] ("//".toList ++ ·)) =
      trim (Text.dropEndWhile (fun c => c = ',' || c = ';') (trim cs)) := by
  cases comment with
  | none => rw [Option.elim_none, List.append_nil, declarationText, Text.cutAt?_eq_none hcs]
  | some comment =>
    have hcut : Text.cutAt? ['/', '/'] (cs ++ ("//".toList ++ comment)) = some (cs, comment) :=
      Text.cutAt?_twice hcs hlast
    rw [Option.elim_some, declarationText, hcut]

section Endings

variable {separator : Option Char} (hseparator : ∀ c ∈ separator, c = ',' ∨ c = ';')
  (hq : ∀ c ∈ q, isBlank c)
include hseparator hq

theorem slash_notMem_ending : '/' ∉ separator.toList ++ q := by
  rw [List.mem_append, not_or]
  refine ⟨fun hm => ?_, slash_notMem_blanks hq⟩
  have hmark := hseparator '/' (Option.mem_toList.1 hm)
  simp at hmark

/-- Of a separator and blanks nothing is left. -/
theorem dropEndWhile_ending :
    Text.dropEndWhile (fun c => c = ',' || c = ';') (Text.trimEnd (separator.toList ++ q)) =
      [] := by
  cases separator with
  | none => rw [Text.trimEnd_append hq rfl]; rfl
  | some c =>
    obtain rfl | rfl := hseparator c rfl <;>
    · rw [Text.trimEnd_append hq rfl]
      rfl

/-- What stands behind a quotation mark on its line is cut off. -/
theorem declarationText_ending (hhead : (cs ++ ['"']).head?.all (!isBlank ·))
    (hcs : ¬['/', '/'] <:+: cs ++ ['"']) (comment : Option (List Char)) :
    declarationText (cs ++ '"' :: (separator.toList ++
      (q ++ comment.elim [] ("//".toList ++ ·)))) = cs ++ ['"'] := by
  have hslash : '/' ∉ separator.toList ++ q := slash_notMem_ending hseparator hq
  have hlast : (cs ++ '"' :: (separator.toList ++ q)).getLast? ≠ some '/' := fun hlast => by
    rw [List.getLast?_append_cons] at hlast
    have hm := List.mem_of_mem_getLast? hlast
    rw [List.mem_cons] at hm
    exact hm.elim (by decide) hslash
  have hin : ¬['/', '/'] <:+: cs ++ '"' :: (separator.toList ++ q) := by
    rw [List.append_cons]
    refine Text.not_pair_infix_append hcs (fun hmark => ?_) fun hquote => ?_
    · exact hslash (hmark.subset List.mem_cons_self)
    · rw [List.getLast?_concat] at hquote
      cases hquote
  have hcode := declarationText_comment hin hlast comment
  simp only [List.append_assoc, List.cons_append] at hcode
  rw [hcode, trim_quote hhead, Text.dropEndWhile_append (by decide),
    dropEndWhile_ending hseparator hq, trim_quote hhead]
  rfl

end Endings

/-- Of what stands behind a quotation mark the end may be dropped. -/
theorem exists_declared (hp : (p ++ ['"']).head?.all (!isBlank ·)) (cs : List Char) :
    ∃ ds, ds <+: cs ∧ trim ('"' :: ds) = '"' :: ds ∧
      trim (Text.dropEndWhile (fun c => c = ',' || c = ';') (trim (p ++ '"' :: cs))) =
        p ++ '"' :: ds := by
  have hdropped : ∀ es : List Char, Text.trimEnd es <+: es := Text.dropEndWhile_prefix isBlank
  have hagain (es : List Char) : Text.trimEnd (Text.trimEnd es) = Text.trimEnd es :=
    List.rdropWhile_idempotent isBlank es
  have hquote (es : List Char) : trim ('"' :: es) = '"' :: Text.trimEnd es :=
    trim_quote (p := []) rfl es
  refine ⟨Text.trimEnd (Text.dropEndWhile (fun c => c = ',' || c = ';') (Text.trimEnd cs)), ?_, ?_,
    ?_⟩
  · exact (hdropped _).trans ((Text.dropEndWhile_prefix _ _).trans (hdropped _))
  · rw [hquote, hagain]
  · rw [trim_quote hp, Text.dropEndWhile_append (by decide), trim_quote hp]

theorem declarationText_nil : declarationText [] = [] := rfl

/-- Blanks in front of a text are empty lines and the beginning of its first line. -/
theorem map_declarationText_blanks (hp : ∀ c ∈ p, isBlank c) (cs : List Char) :
    ∃ n, (Text.splitOn '\n' (p ++ cs)).map declarationText =
      List.replicate n [] ++ (Text.splitOn '\n' cs).map declarationText := by
  induction p with
  | nil => exact ⟨0, rfl⟩
  | cons b p ih =>
    rw [List.forall_mem_cons] at hp
    obtain ⟨n, hn⟩ := ih hp.2
    rw [List.cons_append, Text.splitOn]
    split
    · exact ⟨n + 1, by rw [List.map_cons, declarationText_nil, hn, List.replicate_succ]; rfl⟩
    · obtain ⟨line, lines, hsplit⟩ :=
        List.exists_cons_of_ne_nil (Text.splitOn_ne_nil '\n' (p ++ cs))
      have hline := declarationText_around (List.forall_mem_singleton.2 hp.1)
        (List.forall_mem_nil _) line
      rw [List.append_nil, List.singleton_append] at hline
      refine ⟨n, ?_⟩
      rw [← hn, hsplit, List.map_cons, List.map_cons, hline]

/-- Blanks behind a line are its end and empty lines. -/
theorem map_declarationText_line {line : List Char} (hline : '\n' ∉ line)
    (hq : ∀ c ∈ q, isBlank c) :
    ∃ n, (Text.splitOn '\n' (line ++ q)).map declarationText =
      declarationText line :: List.replicate n [] := by
  induction q generalizing line with
  | nil => exact ⟨0, by rw [List.append_nil, Text.splitOn_of_notMem hline]; rfl⟩
  | cons b q ih =>
    rw [List.forall_mem_cons] at hq
    by_cases hb : b = '\n'
    · obtain ⟨n, hn⟩ := map_declarationText_blanks hq.2 []
      rw [List.append_nil] at hn
      refine ⟨n + 1, ?_⟩
      rw [hb, Text.splitOn_append, Text.splitOn_of_notMem hline, List.singleton_append,
        List.map_cons, hn, List.replicate_succ']
      rfl
    · have hmore : '\n' ∉ line ++ [b] := by simp [hline, Ne.symm hb]
      have hend := declarationText_around (List.forall_mem_nil _) (List.forall_mem_singleton.2 hq.1)
        line
      rw [List.nil_append] at hend
      obtain ⟨n, hn⟩ := ih hmore hq.2
      exact ⟨n, by rw [← hend, ← hn, List.append_assoc, List.singleton_append]⟩

/-- A block with one line that declares something. -/
theorem ofBlock_line {block : PropsBlock} {line : List Char} {d : PropDefinition}
    (hsource : block.source.toList = p ++ (line ++ q)) (hp : ∀ c ∈ p, isBlank c)
    (hline : '\n' ∉ line) (hq : ∀ c ∈ q, isBlank c) (hfilled : declarationText line ≠ [])
    (hread : readLine [] (declarationText line) = .ok d) : ofBlock file block = pure [d] := by
  obtain ⟨n, hn⟩ := map_declarationText_blanks hp (line ++ q)
  obtain ⟨m, hm⟩ := map_declarationText_line hline hq
  have hlines : (Text.splitOn '\n' block.source.toList).map declarationText =
      (List.replicate n [] ++ line :: (List.replicate m [] ++ [])).map declarationText := by
    rw [hsource, hn, hm]
    simp [declarationText_nil]
  have hempty (n : Nat) : ∀ line ∈ List.replicate n ([] : List Char), declarationText line = [] :=
    fun line h => (List.eq_of_mem_replicate h).symm ▸ declarationText_nil
  have hisEmpty : (declarationText line).isEmpty = false := by simpa using hfilled
  rw [ofBlock_eq, readLines_congr file _ [] hlines, readLines_skip file _ [] (hempty n), readLines,
    hisEmpty, hread]
  exact readLines_skip file _ [d] (hempty m) []

end Lines

/-! ### Declarations -/

section Declarations

variable {name : String} {type value : List Char}

theorem readDeclaration?_default (h : Markup.IsIdentifier name) (htype : type ≠ [])
    (hequals : '=' ∉ type) (hvalue : value ≠ []) :
    readDeclaration? (name.toList ++ ':' :: (type ++ '=' :: value)) =
      some ⟨name, trim type, some (trim value)⟩ := by
  have hname : Text.identifier? (name.toList ++ ':' :: (type ++ '=' :: value)) =
      some (name.toList, ':' :: (type ++ '=' :: value)) := h.identifier?_append rfl
  have hin : ∀ c ∈ type, (c != '=') = true := by
    simpa using fun c hc (he : c = '=') => hequals (he ▸ hc)
  have hstops : ('=' :: value).head?.any (· != '=') = false := rfl
  have htake : (type ++ '=' :: value).takeWhile (· != '=') = type :=
    Text.takeWhile_append_of_head hin hstops
  have hcolon : Text.trimStart (':' :: (type ++ '=' :: value)) = ':' :: (type ++ '=' :: value) :=
    rfl
  have hempty : type.isEmpty = false := by simpa using htype
  obtain ⟨c, cs, rfl⟩ := List.exists_cons_of_ne_nil hvalue
  rw [readDeclaration?, hname]
  simp only [Option.bind_eq_bind, Option.bind_some, hcolon, htake, hempty, List.drop_left]
  simp

theorem ofDeclaration?_string :
    PropType.ofDeclaration? "String".toList = some (.string, false) := by
  decide +kernel

theorem readLine_string (h : Markup.IsIdentifier name) (hvalue : trim value = value)
    {default : String}
    (hdefault : readDefault .string value = .ok (.string default)) :
    readLine [] (name.toList ++ (": String = ".toList ++ value)) =
      .ok ⟨name, .string, some (.string default), false⟩ := by
  have hread : readDeclaration? (name.toList ++ (": String = ".toList ++ value)) =
      some ⟨name, "String".toList, some value⟩ := by
    have hspace : trim (' ' :: value) = value := hvalue
    have htype : trim " String ".toList = "String".toList := rfl
    have hequals : " String ".toList ≠ [] ∧ '=' ∉ " String ".toList := by decide
    have hdeclared :=
      readDeclaration?_default h hequals.1 hequals.2 (List.cons_ne_nil ' ' value)
    rw [hspace, htype] at hdeclared
    exact hdeclared
  rw [readLine, hread]
  simp only [ofDeclaration?_string, defaultOf, hdefault]
  rfl

end Declarations

/-! ### Texts between quotes -/

section Quotes

/-- Without its end a text between quotes is none. -/
theorem stringBody?_unclosed {unescape : Char → Char} {quote : Char} {text cs ds : List Char}
    (h : Text.Quoted unescape quote text cs) (hfront : ds <+: cs) (hne : ds ≠ cs) :
    Expr.Token.stringBody? quote ds = none := by
  induction h generalizing ds with
  | close =>
    obtain rfl | ⟨ds, rfl, hds⟩ := List.prefix_cons_iff.1 hfront
    · rfl
    · exact absurd (List.prefix_nil.1 hds ▸ rfl) hne
  | @plain c text cs hc hslash _ ih =>
    obtain rfl | ⟨ds, rfl, hds⟩ := List.prefix_cons_iff.1 hfront
    · rfl
    · have hnone : Expr.Token.stringBody? quote ds = none := ih hds fun he => hne (he ▸ rfl)
      unfold Expr.Token.stringBody?
      split <;> simp_all
  | @escape c text cs _ ih =>
    obtain rfl | ⟨ds, rfl, hds⟩ := List.prefix_cons_iff.1 hfront
    · rfl
    · obtain rfl | ⟨es, rfl, hes⟩ := List.prefix_cons_iff.1 hds
      · rfl
      · have hnone : Expr.Token.stringBody? quote es = none := ih hes fun he => hne (he ▸ rfl)
        simp [Expr.Token.stringBody?, hnone]

theorem parse_unclosed {cs : List Char} (h : Expr.Token.stringBody? '"' cs = none) :
    Expr.parse (.ofList ('"' :: cs)) = .error .unterminatedString := by
  have hnext : Expr.Token.next none '"' cs = .error .unterminatedString := by
    have hnumber : Expr.Token.startsNumber none '"' cs = false := by
      simp [Expr.Token.startsNumber]
    rw [Expr.Token.next, hnumber, if_neg (by decide), if_neg (by decide), if_pos (.inl rfl), h]
  have hall : Expr.Token.all none ('"' :: cs) = .error .unterminatedString := by
    rw [Expr.Token.all, if_neg (by decide), hnext]
  rw [Expr.parse, String.toList_ofList, hall]
  rfl

/-- What is written for a text holds two slashes if the text does. -/
theorem infix_quoted (cs : List Char) :
    ['/', '/'] <:+: Text.quoted escapeMark '"' cs ↔ ['/', '/'] <:+: cs := by
  have hslash : escapeMark '/' = none := by decide
  have hhead (ds : List Char) : ['/'] <+: Text.quoted escapeMark '"' ds ↔ ['/'] <+: ds := by
    cases ds with
    | nil => simp [Text.quoted]
    | cons d ds =>
      rw [Text.quoted]
      split
      · next e he =>
        have hd : '/' ≠ d := by
          rintro rfl
          cases hslash.symm.trans he
        simp [List.cons_prefix_cons, hd]
      · simp [List.cons_prefix_cons]
  induction cs with
  | nil => simp [Text.quoted, List.infix_cons_iff]
  | cons c cs ih =>
    rw [Text.quoted]
    split
    · next d hd =>
      have hc : '/' ≠ c := by
        rintro rfl
        cases hslash.symm.trans hd
      obtain rfl := Text.escapeMark_spec c d hd
      simp [List.infix_cons_iff, List.cons_prefix_cons, hc, ih]
    · rw [List.infix_cons_iff, List.infix_cons_iff, List.cons_prefix_cons, List.cons_prefix_cons]
      exact or_congr (and_congr_right fun _ => hhead cs) ih

end Quotes

/-! ### A text as default -/

/-- A line that declares a prop of texts, with its default between quotes. -/
structure TextLine where
  name : String
  default : String
  separator : Option Char
  gap : List Char
  comment : Option (List Char)

namespace TextLine

/-- What stands in front of the quotes. -/
def opening (l : TextLine) : List Char := l.name.toList ++ ": String = ".toList

/-- The characters between the quotes, with the one that closes them. -/
def body (l : TextLine) : List Char := Text.quoted escapeMark '"' l.default.toList

/-- What stands behind the quotes. -/
def ending (l : TextLine) : List Char :=
  l.separator.toList ++ (l.gap ++ l.comment.elim [] ("//".toList ++ ·))

def text (l : TextLine) : List Char := l.opening ++ '"' :: (l.body ++ l.ending)

structure IsWritten (l : TextLine) : Prop where
  name : Markup.IsIdentifier l.name
  default : '\n' ∉ l.default.toList
  separator : ∀ c ∈ l.separator, c = ',' ∨ c = ';'
  gap : ∀ c ∈ l.gap, isBlank c ∧ c ≠ '\n'
  comment : ∀ text ∈ l.comment, '\n' ∉ text

variable {l : TextLine}

theorem quoted_body (l : TextLine) :
    Text.Quoted Expr.Token.unescape '"' l.default.toList l.body := by
  refine Text.quoted_spec (fun c d hd => ?_) (fun c => (Text.escapeMark_eq_none c).1) _
  obtain rfl := Text.escapeMark_spec c d hd
  rw [escapeMark, Option.ite_none_right_eq_some] at hd
  obtain ⟨rfl | rfl, -⟩ := hd <;> rfl

theorem IsWritten.notMem_opening (h : l.IsWritten) {c : Char}
    (hc : Text.continuesIdentifier c = false) (hmark : c ∉ ": String = ".toList) :
    c ∉ l.opening := by
  rw [opening, List.mem_append, not_or]
  refine ⟨fun hm => ?_, hmark⟩
  cases hc.symm.trans (h.name.chars c hm)

theorem IsWritten.head?_opening (h : l.IsWritten) (cs : List Char) :
    (l.opening ++ cs).head?.all (!isBlank ·) := by
  obtain ⟨c, ds, hname, hc, -⟩ := h.name.exists_cons
  have hblank : isBlank c = false := by
    simpa using Markup.not_isBlank_of_continuesIdentifier (h.name.chars c (by simp [hname]))
  simp [opening, hname, hblank]

theorem IsWritten.lineFeed_notMem_text (h : l.IsWritten) : '\n' ∉ l.text := by
  have hbody : '\n' ∉ l.body := Text.lineFeed_notMem_escapeMark h.default
  have hseparator : '\n' ∉ l.separator.toList := fun hm => by
    have := h.separator '\n' (Option.mem_toList.1 hm)
    simp at this
  have hgap : '\n' ∉ l.gap := fun hm => (h.gap _ hm).2 rfl
  have hopening : '\n' ∉ l.opening := h.notMem_opening rfl (by decide)
  have hending : '\n' ∉ l.ending := by
    cases hc : l.comment with
    | none => simp [ending, hc, hseparator, hgap]
    | some text => simp [ending, hc, hseparator, hgap, h.comment text hc]
  simp [text, hopening, hbody, hending]

theorem IsWritten.infix_declared_iff (h : l.IsWritten) (cs : List Char) :
    ['/', '/'] <:+: l.opening ++ '"' :: cs ↔ ['/', '/'] <:+: cs := by
  have hopening : '/' ∉ l.opening ++ ['"'] := by
    simpa using h.notMem_opening (c := '/') rfl (by decide)
  have hiff : ['/', '/'] <:+: l.opening ++ ['"'] ++ cs ↔ ['/', '/'] <:+: cs :=
    Text.infix_append_iff_of_notMem hopening
  rwa [List.append_assoc] at hiff

/-- Without two slashes in the default just the ending is cut off. -/
theorem IsWritten.declarationText_text (h : l.IsWritten)
    (hslashes : ¬['/', '/'] <:+: l.default.toList) :
    declarationText l.text = l.opening ++ '"' :: l.body := by
  obtain ⟨ds, hds⟩ := List.getLast?_eq_some_iff.1 l.quoted_body.getLast?_eq
  have hdeclared : l.opening ++ '"' :: l.body = l.opening ++ '"' :: ds ++ ['"'] := by simp [hds]
  have hnone : ¬['/', '/'] <:+: l.opening ++ '"' :: l.body := by
    rwa [h.infix_declared_iff, body, infix_quoted]
  have htext : l.text = l.opening ++ '"' :: ds ++ '"' :: l.ending := by simp [text, hds]
  have hgap (c : Char) (hc : c ∈ l.gap) : isBlank c := (h.gap c hc).1
  rw [htext, ending, declarationText_ending h.separator hgap (hdeclared ▸ h.head?_opening _)
    (hdeclared ▸ hnone), ← hdeclared]

/-- Two slashes in the default end the declaration. -/
theorem IsWritten.exists_declarationText (h : l.IsWritten)
    (hslashes : ['/', '/'] <:+: l.default.toList) :
    ∃ ds, declarationText l.text = l.opening ++ '"' :: ds ∧ ds <+: l.body ∧
      ¬['/', '/'] <:+: ds ∧ trim ('"' :: ds) = '"' :: ds := by
  cases hcut : Text.cutAt? ['/', '/'] l.body with
  | none => exact absurd ((infix_quoted _).2 hslashes) (Text.cutAt?_eq_none_iff.1 hcut)
  | some cut =>
    obtain ⟨before, rest⟩ := cut
    have hopening : '/' ∉ l.opening ++ ['"'] := by
      simpa using h.notMem_opening (c := '/') rfl (by decide)
    have htext : Text.cutAt? ['/', '/'] l.text =
        some (l.opening ++ '"' :: before, rest ++ l.ending) := by
      have hfront := Text.cutAt?_append_left (p := ['/']) hopening (l.body ++ l.ending)
      rw [Text.cutAt?_append_right hcut, List.append_assoc] at hfront
      rw [text]
      simpa using hfront
    have hfront := Text.eq_of_cutAt? hcut
    obtain ⟨ds, hds, htrim, hcode⟩ := exists_declared (h.head?_opening _) before
    refine ⟨ds, ?_, ?_, ?_, htrim⟩
    · rw [declarationText, htext]
      exact hcode
    · exact hds.trans ⟨_, hfront.symm⟩
    · exact fun hmark => Text.not_infix_of_cutAt? (by simp) hcut (hmark.trans hds.isInfix)

end TextLine

/-- The line declares the prop in any case, and its default is the text that was written if and
only if there are no two slashes in it. -/
theorem ofBlock_text {l : TextLine} (h : l.IsWritten) {p q : List Char} {block : PropsBlock}
    (hsource : block.source.toList = p ++ (l.text ++ q)) (hp : ∀ c ∈ p, isBlank c)
    (hq : ∀ c ∈ q, isBlank c) (file : String) :
    ∃ default, ofBlock file block = pure [⟨l.name, .string, some (.string default), false⟩] ∧
      (default = l.default ↔ ¬"//".toList <:+: l.default.toList) := by
  have hblock {default : String} {value : List Char}
      (htext : declarationText l.text = l.opening ++ value) (hvalue : trim value = value)
      (hdefault : readDefault .string value = .ok (.string default)) :
      ofBlock file block = pure [⟨l.name, .string, some (.string default), false⟩] := by
    rw [TextLine.opening, List.append_assoc] at htext
    have hfilled : declarationText l.text ≠ [] := by
      rw [htext]
      simp
    refine ofBlock_line file hsource hp h.lineFeed_notMem_text hq hfilled ?_
    rw [htext]
    exact readLine_string h.name hvalue hdefault
  by_cases hslashes : ['/', '/'] <:+: l.default.toList
  · obtain ⟨ds, htext, hfront, hnone, htrim⟩ := h.exists_declarationText hslashes
    have hshort : ds ≠ l.body := by
      rintro rfl
      exact hnone ((infix_quoted _).2 hslashes)
    have hdefault : readDefault .string ('"' :: ds) = .ok (.string (.ofList ('"' :: ds))) := by
      rw [readDefault, Expr.parseLiteral?,
        parse_unclosed (stringBody?_unclosed l.quoted_body hfront hshort)]
      rfl
    refine ⟨_, hblock htext htrim hdefault, iff_of_false (fun he => ?_) (not_not_intro hslashes)⟩
    rw [← he, String.toList_ofList, List.infix_cons_iff] at hslashes
    exact hslashes.elim (by simp) hnone
  · have hliteral := Island.Literal.string (.inl rfl) l.quoted_body
    have hdefault : readDefault .string ('"' :: l.body) = .ok (.string l.default) := by
      rw [readDefault, Expr.parseLiteral?, hliteral.parse_eq]
      rfl
    have htrim : trim ('"' :: l.body) = '"' :: l.body := by
      obtain ⟨hhead, hlast, -⟩ := hliteral.ends
      have htrim := Text.trim_append (List.forall_mem_nil _) (List.forall_mem_nil _) hhead hlast
      rwa [List.nil_append, List.append_nil] at htrim
    exact ⟨l.default, hblock (h.declarationText_text hslashes) htrim hdefault,
      iff_of_true rfl hslashes⟩

/-- Slashes that stand alone, escapes, and everything that may stand around the quotes. -/
theorem ofBlock_text_comment :
    let l : TextLine := ⟨"p", "\"/\\n/\"", some ',', [' '], some " \"//\" is left out".toList⟩
    let block : PropsBlock :=
      ⟨"\r\n  p: String = \"\\\"/\\\\n/\\\"\", // \"//\" is left out\n", ⟨1, 1⟩⟩
    l.IsWritten ∧ block.source.toList = "\r\n  ".toList ++ (l.text ++ ['\n']) ∧
      ofBlock "a.ncl" block = pure [⟨"p", .string, some (.string "\"/\\n/\""), false⟩] := by
  intro l block
  have h : l.IsWritten :=
    { name := ⟨by simp [l, Text.startsIdentifier], by simp [l, Text.continuesIdentifier]⟩
      default := by decide
      separator := by simp [l]
      gap := by simp [l, isBlank]
      comment := by simp [l] }
  have hsource : block.source.toList = "\r\n  ".toList ++ (l.text ++ ['\n']) := by decide +kernel
  refine ⟨h, hsource, ?_⟩
  have hfront : ∀ c ∈ "\r\n  ".toList, isBlank c := by simp [isBlank]
  have hbehind : ∀ c ∈ ['\n'], isBlank c := by simp [isBlank]
  obtain ⟨default, hblock, hdefault⟩ := ofBlock_text h hsource hfront hbehind "a.ncl"
  rw [hblock, hdefault.2 (by decide)]

/-- A text with two slashes is cut at these, and the quotation mark in front of it is left. -/
theorem ofBlock_slashes :
    let l : TextLine := ⟨"p", "a//b", none, [], none⟩
    let block : PropsBlock := ⟨"p: String = \"a//b\"", ⟨1, 1⟩⟩
    l.IsWritten ∧ block.source.toList = l.text ∧
      ofBlock "a.ncl" block = pure [⟨"p", .string, some (.string "\"a"), false⟩] := by
  intro l block
  have h : l.IsWritten :=
    { name := ⟨by simp [l, Text.startsIdentifier], by simp [l, Text.continuesIdentifier]⟩
      default := by decide
      separator := by simp [l]
      gap := by simp [l]
      comment := by simp [l] }
  have hsource : block.source.toList = l.text := by decide +kernel
  have hnone : ∀ c ∈ ([] : List Char), isBlank c := List.forall_mem_nil _
  have hcut : declarationText l.text =
      l.name.toList ++ (": String = ".toList ++ ['"', 'a']) := by decide +kernel
  have hdefault : readDefault .string ['"', 'a'] = .ok (.string "\"a") := by
    rw [readDefault, Expr.parseLiteral?, parse_unclosed rfl]
    rfl
  have hread : readLine [] (declarationText l.text) =
      .ok ⟨"p", .string, some (.string "\"a"), false⟩ := by
    rw [hcut]
    exact readLine_string h.name rfl hdefault
  have hblock : block.source.toList = [] ++ (l.text ++ []) := by
    rw [hsource, List.nil_append, List.append_nil]
  exact ⟨h, hsource, ofBlock_line "a.ncl" hblock hnone h.lineFeed_notMem_text hnone
    (by rw [hcut]; simp) hread⟩

end Props

end PageCompiler
