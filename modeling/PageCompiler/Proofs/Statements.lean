import PageCompiler.Island.Statement
import PageCompiler.Proofs.Blanks
import PageCompiler.Proofs.Spelling
import PageCompiler.Proofs.Words

/-!
How a script is cut into statements. A line holds statements between semicolons, and maybe a comment
behind them; strings may hold anything. Main statement: the statements of a script are the ones that
its lines were made of.
-/

namespace PageCompiler.Island

open Text (isBlank trim splitOn continuesIdentifier)

theorem putInFront_putInFront (cs ds : List Char) (ps : List (List Char)) :
    putInFront cs (putInFront ds ps) = putInFront (cs ++ ds) ps := by
  cases ps <;> simp [putInFront]

theorem putInFront_ne_nil (cs : List Char) (ps : List (List Char)) : putInFront cs ps ≠ [] := by
  cases ps <;> simp [putInFront]

theorem pieces_cons {c : Char} {cs : List Char} (h : c = '/' → cs.head? ≠ some '/') :
    pieces (c :: cs) =
      if c = ';' then [] :: pieces cs
      else if c = '"' ∨ c = '\'' then putInFront [c] (piecesInQuotes c cs)
      else putInFront [c] (pieces cs) := by
  rw [pieces]
  rintro tail rfl rfl
  exact h rfl rfl

theorem piecesInQuotes_cons {quote c : Char} (h : c ≠ '\\') (cs : List Char) :
    piecesInQuotes quote (c :: cs) =
      if c = quote then putInFront [c] (pieces cs)
      else putInFront [c] (piecesInQuotes quote cs) := by
  rw [piecesInQuotes]
  · rintro rfl
    exact absurd rfl h
  · rintro d ds rfl
    exact absurd rfl h

theorem pieces_ne_nil (cs : List Char) : pieces cs ≠ [] := by
  unfold pieces
  split
  · simp
  · simp
  · split
    · simp
    · split <;> exact putInFront_ne_nil _ _

/-- In front of `rest` the characters `cs` neither end a statement nor begin a comment. -/
def Passes (cs rest : List Char) : Prop := pieces (cs ++ rest) = putInFront cs (pieces rest)

section Passes

variable {c : Char} {cs ds rest : List Char}

theorem Passes.append (h : Passes cs (ds ++ rest)) (h' : Passes ds rest) :
    Passes (cs ++ ds) rest := by
  rw [Passes] at h h' ⊢
  rw [List.append_assoc, h, h', putInFront_putInFront]

theorem passes_nil (rest : List Char) : Passes [] rest := by
  rw [Passes, List.nil_append]
  cases h : pieces rest with
  | nil => exact absurd h (pieces_ne_nil rest)
  | cons p ps => rfl

/-- A character that means nothing to the cutting of a line. -/
def isPlain (c : Char) : Bool := c ≠ ';' && c ≠ '"' && c ≠ '\'' && c ≠ '/'

theorem passes_char (hc : isPlain c) (rest : List Char) : Passes [c] rest := by
  simp only [isPlain, Bool.and_eq_true, decide_eq_true_eq] at hc
  obtain ⟨⟨⟨hend, hquote⟩, hquote'⟩, hslash⟩ := hc
  rw [Passes, List.singleton_append, pieces_cons fun h => absurd h hslash, if_neg hend,
    if_neg (not_or.2 ⟨hquote, hquote'⟩)]

theorem passes_plain (h : ∀ c ∈ cs, isPlain c) (rest : List Char) : Passes cs rest := by
  induction cs with
  | nil => exact passes_nil rest
  | cons c cs ih =>
    rw [List.forall_mem_cons] at h
    exact (passes_char h.1 _).append (ih h.2)

theorem Passes.behind_plain (h : Passes ds rest) (hcs : ∀ c ∈ cs, isPlain c) :
    Passes (cs ++ ds) rest :=
  (passes_plain hcs _).append h

theorem Passes.behind_word (h : Passes ds rest) (word : String)
    (hword : word.toList.all isPlain) : Passes (word.toList ++ ds) rest :=
  h.behind_plain (List.all_eq_true.1 hword)

theorem Passes.behind_char (h : Passes ds rest) (hc : isPlain c) : Passes (c :: ds) rest :=
  (passes_char hc _).append h

theorem passes_slash (h : rest.head? ≠ some '/') : Passes ['/'] rest := by
  rw [Passes, List.singleton_append, pieces_cons fun _ => h, if_neg (by decide),
    if_neg (by decide)]

theorem piecesInQuotes_quoted {unescape : Char → Char} {quote : Char} {text : List Char}
    (hquote : quote ≠ '\\') (h : Text.Quoted unescape quote text cs) (rest : List Char) :
    piecesInQuotes quote (cs ++ rest) = putInFront cs (pieces rest) := by
  induction h with
  | close => rw [List.singleton_append, piecesInQuotes_cons hquote, if_pos rfl]
  | plain hne hslash _ ih =>
    rw [List.cons_append, piecesInQuotes_cons hslash, if_neg hne, ih, putInFront_putInFront]
    rfl
  | escape c _ ih => simp [piecesInQuotes, ih, putInFront_putInFront]

theorem passes_quoted {unescape : Char → Char} {quote : Char} {text : List Char}
    (hquote : quote = '"' ∨ quote = '\'') (h : Text.Quoted unescape quote text cs)
    (rest : List Char) : Passes (quote :: cs) rest := by
  have hbody : piecesInQuotes quote (cs ++ rest) = putInFront cs (pieces rest) := by
    obtain rfl | rfl := hquote <;> exact piecesInQuotes_quoted (by decide) h rest
  rw [Passes, List.cons_append]
  obtain rfl | rfl := hquote <;> simp [pieces, hbody, putInFront_putInFront]

theorem isPlain_of_not_mark {p : Char → Bool} (hp : [';', '"', '\'', '/'].all fun d => !p d)
    (h : p c) : isPlain c := by
  simp only [List.all_cons, List.all_nil, Bool.and_true, Bool.and_eq_true, Bool.not_eq_true'] at hp
  simp only [isPlain, Bool.and_eq_true, decide_eq_true_eq]
  refine ⟨⟨⟨?_, ?_⟩, ?_⟩, ?_⟩ <;> rintro rfl <;> simp [hp] at h

theorem isPlain_of_isBlank (h : isBlank c) : isPlain c := isPlain_of_not_mark rfl h

theorem isPlain_of_continuesIdentifier (h : continuesIdentifier c) : isPlain c :=
  isPlain_of_not_mark rfl h

theorem passes_blanks (h : ∀ c ∈ cs, isBlank c) (rest : List Char) : Passes cs rest :=
  passes_plain (fun c hc => isPlain_of_isBlank (h c hc)) rest

theorem Passes.behind_blanks (h : Passes ds rest) (hcs : ∀ c ∈ cs, isBlank c) :
    Passes (cs ++ ds) rest :=
  (passes_blanks hcs _).append h

end Passes

section Kept

variable {b : Char} {cs ds : List Char} {ps qs : List (List Char)}

/-- The statements of a line. -/
def kept (line : List Char) : List (List Char) :=
  ((pieces line).map trim).filter fun s => !s.isEmpty

/-- A character has been written behind a line: it belongs to the last piece, or to a comment. -/
inductive Behind (b : Char) : List (List Char) → List (List Char) → Prop
  | same (ps : List (List Char)) : Behind b ps ps
  | last (p : List Char) : Behind b [p] [p ++ [b]]
  | cons (p : List Char) {ps qs} : Behind b ps qs → Behind b (p :: ps) (p :: qs)

theorem Behind.putInFront (h : Behind b ps qs) (cs : List Char) :
    Behind b (putInFront cs ps) (putInFront cs qs) := by
  cases h with
  | same => exact .same _
  | last p =>
    simp only [Island.putInFront, ← List.append_assoc]
    exact .last _
  | cons p h => exact .cons _ h

mutual

theorem behind_pieces (hb : isBlank b) (cs : List Char) :
    Behind b (pieces cs) (pieces (cs ++ [b])) := by
  match cs with
  | [] =>
    have hend : pieces [b] = [[b]] := passes_char (isPlain_of_isBlank hb) []
    rw [List.nil_append, hend]
    exact .last []
  | c :: cs =>
    by_cases hcomment : c = '/' ∧ cs.head? = some '/'
    · obtain ⟨rfl, hhead⟩ := hcomment
      obtain ⟨cs, rfl⟩ := List.head?_eq_some_iff.1 hhead
      -- the blank is part of the comment
      simpa [pieces] using .same _
    · have hhead : c = '/' → cs.head? ≠ some '/' := fun hc h => hcomment ⟨hc, h⟩
      have hhead' : c = '/' → (cs ++ [b]).head? ≠ some '/' := by
        intro hc
        cases cs with
        | nil =>
          -- a slash at the end of the line does not begin a comment with the blank
          rintro ⟨⟩
          exact absurd hb (by decide)
        | cons d cs => exact hhead hc
      rw [List.cons_append, pieces_cons hhead, pieces_cons hhead']
      split
      · exact .cons [] (behind_pieces hb cs)
      · split
        · exact (behind_piecesInQuotes hb c cs).putInFront [c]
        · exact (behind_pieces hb cs).putInFront [c]

theorem behind_piecesInQuotes (hb : isBlank b) (quote : Char) (cs : List Char) :
    Behind b (piecesInQuotes quote cs) (piecesInQuotes quote (cs ++ [b])) := by
  match cs with
  | [] =>
    have hslash : b ≠ '\\' := by
      rintro rfl
      exact absurd hb (by decide)
    have hend : piecesInQuotes quote [b] = [[b]] := by
      simp [piecesInQuotes, hslash, pieces, Island.putInFront]
    rw [List.nil_append, hend]
    exact .last []
  | c :: cs =>
    by_cases hslash : c = '\\'
    · subst hslash
      cases cs with
      | nil => exact .last ['\\']
      | cons d cs => exact (behind_piecesInQuotes hb quote cs).putInFront ['\\', d]
    · rw [List.cons_append, piecesInQuotes_cons hslash, piecesInQuotes_cons hslash]
      split
      · exact (behind_pieces hb cs).putInFront [c]
      · exact (behind_piecesInQuotes hb quote cs).putInFront [c]

end

theorem trim_concat (hb : isBlank b) (cs : List Char) : trim (cs ++ [b]) = trim cs := by
  have h : trim ([] ++ (cs ++ [b])) = trim cs :=
    Text.trim_around (List.forall_mem_nil _) (List.forall_mem_singleton.2 hb)
  exact h

theorem Behind.map_trim (h : Behind b ps qs) (hb : isBlank b) : qs.map trim = ps.map trim := by
  induction h with
  | same => rfl
  | last p => simp [trim_concat hb]
  | cons p _ ih => simp [ih]

/-- A blank at the end of a line makes no difference. -/
theorem kept_concat (hb : isBlank b) (line : List Char) : kept (line ++ [b]) = kept line := by
  rw [kept, kept, (behind_pieces hb line).map_trim hb]

theorem kept_nil : kept [] = [] := rfl

/-- Whether a line ends with a carriage return makes no difference either. -/
theorem statements_eq (script : String) :
    statements script = (splitOn '\n' script.toList).flatMap kept := by
  have hkept (lines : List (List Char)) :
      ((lines.flatMap pieces).map trim).filter (fun s => !s.isEmpty) = lines.flatMap kept := by
    rw [List.map_flatMap, List.filter_flatMap]
    rfl
  have hreturn (line : List Char) :
      kept (if line.getLast? = some '\r' then line.dropLast else line) = kept line := by
    split
    · next h =>
      obtain ⟨start, rfl⟩ := List.getLast?_eq_some_iff.1 h
      rw [List.dropLast_concat, kept_concat rfl]
    · rfl
  obtain ⟨start, last, hsplit, hlines⟩ := Text.exists_lines script.toList
  have hstart : (start.map fun l => if l.getLast? = some '\r' then l.dropLast else l).flatMap kept =
      start.flatMap kept := by
    rw [List.flatMap_map]
    exact congrArg (start.flatMap ·) (funext hreturn)
  rw [statements, hkept, hlines, hsplit, List.flatMap_append, List.flatMap_append, hstart]
  split
  · next hlast => simp [hlast, kept_nil]
  · rfl

end Kept

/-- The text of at most one statement, with blanks around it. -/
inductive Piece : List (List Char) → List Char → Prop
  | empty {p} : (∀ c ∈ p, isBlank c) → Piece [] p
  | full {p t q} : (∀ c ∈ p, isBlank c) → (∀ c ∈ q, isBlank c) → Piece [t] (p ++ (t ++ q))

/-- A line of the statements `ts`, with semicolons between them and maybe a comment behind them. -/
inductive Line : List (List Char) → List Char → Prop
  | last {ts cs} : Piece ts cs → Line ts cs
  | comment {ts cs} (text : List Char) : Piece ts cs → Line ts (cs ++ '/' :: '/' :: text)
  | semicolon {ts us cs ds} : Piece ts cs → Line us ds → Line (ts ++ us) (cs ++ ';' :: ds)

/-- A script of the statements `ts`. -/
inductive Layout : List (List Char) → List Char → Prop
  | line {ts cs} : Line ts cs → '\n' ∉ cs → Layout ts cs
  | more {ts us cs ds} : Line ts cs → '\n' ∉ cs → Layout us ds →
      Layout (ts ++ us) (cs ++ '\n' :: ds)

/-- A text that is one statement wherever it stands. -/
structure IsStatement (t : List Char) : Prop where
  filled : t ≠ []
  head : t.head?.all (!isBlank ·)
  last : t.getLast?.all (!isBlank ·)
  passes : ∀ rest, Passes t rest

section Layout

variable {ts : List (List Char)} {cs : List Char}

theorem Piece.passes (h : Piece ts cs) (ht : ∀ t ∈ ts, IsStatement t) (rest : List Char) :
    Passes cs rest := by
  cases h with
  | empty hp => exact passes_blanks hp rest
  | full hp hq =>
    rw [List.forall_mem_singleton] at ht
    exact ((ht.passes _).append (passes_blanks hq rest)).behind_blanks hp

theorem Piece.trim_eq (h : Piece ts cs) (ht : ∀ t ∈ ts, IsStatement t) :
    [trim cs].filter (fun s => !s.isEmpty) = ts := by
  cases h with
  | empty hp =>
    have hnil : trim (cs ++ ([] ++ [])) = [] :=
      Text.trim_append hp (List.forall_mem_nil _) rfl rfl
    rw [List.append_nil, List.append_nil] at hnil
    simp [hnil]
  | full hp hq =>
    rw [List.forall_mem_singleton] at ht
    rw [Text.trim_append hp hq ht.head ht.last]
    simp [ht.filled]

theorem Line.kept_eq (h : Line ts cs) (ht : ∀ t ∈ ts, IsStatement t) : kept cs = ts := by
  induction h with
  | @last ts cs hp =>
    have hpieces : pieces cs = [cs] := by
      have := hp.passes ht []
      rw [Passes, List.append_nil] at this
      simpa [pieces, putInFront] using this
    rw [kept, hpieces]
    exact hp.trim_eq ht
  | @comment ts cs text hp =>
    have hpieces : pieces (cs ++ '/' :: '/' :: text) = [cs] := by
      rw [hp.passes ht]
      simp [pieces, putInFront]
    rw [kept, hpieces]
    exact hp.trim_eq ht
  | @semicolon ts us cs ds hp _ ih =>
    rw [List.forall_mem_append] at ht
    have hpieces : pieces (cs ++ ';' :: ds) = cs :: pieces ds := by
      rw [hp.passes ht.1]
      simp [pieces, putInFront]
    rw [kept, hpieces, List.map_cons, ← List.singleton_append, List.filter_append, hp.trim_eq ht.1,
      ← ih ht.2, kept]

theorem piece_self (t : List Char) : Piece [t] t := by
  have hfull : Piece [t] ([] ++ (t ++ [])) := .full (List.forall_mem_nil _) (List.forall_mem_nil _)
  simpa using hfull

/-- Statements may stand on lines of their own. -/
theorem layout_lines (h : ∀ t ∈ ts, '\n' ∉ t) : Layout ts (ts.flatMap fun t => t ++ ['\n']) := by
  induction ts with
  | nil => exact .line (.last (.empty (List.forall_mem_nil _))) List.not_mem_nil
  | cons t ts ih =>
    rw [List.forall_mem_cons] at h
    have hline : Line [t] t := .last (piece_self t)
    have hmore := Layout.more hline h.1 (ih h.2)
    simpa using hmore

/-- The statements of a script are those that it was made of. -/
theorem Layout.statements_eq {source : String} (h : Layout ts source.toList)
    (ht : ∀ t ∈ ts, IsStatement t) : statements source = ts := by
  rw [Island.statements_eq]
  generalize source.toList = cs at h
  induction h with
  | line hline hlf => simp [Text.splitOn_of_notMem hlf, hline.kept_eq ht]
  | more hline hlf _ ih =>
    rw [List.forall_mem_append] at ht
    rw [Text.splitOn_append, Text.splitOn_of_notMem hlf, List.flatMap_append, ih ht.2]
    simp [hline.kept_eq ht.1]

end Layout

end PageCompiler.Island
