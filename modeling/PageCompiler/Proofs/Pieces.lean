import PageCompiler.Proofs.Tiling

/-!
The pieces of a text: plain text, and expressions in single and in double braces. Attribute text is
split into them, and the scanner of a body finds the same ones. Main statement: where no tag, block
or line break stands in a text and nothing is reported, its nodes are its parts.
-/

namespace PageCompiler.Markup

/-- Plain text, or what stands between single or double braces. -/
inductive Piece
  | text (cs : List Char)
  | single (inside : List Char)
  | double (inside : List Char)
  deriving DecidableEq, Repr

namespace Piece

def source : Piece → List Char
  | text cs => cs
  | single inside => '\x7b' :: (inside ++ ['\x7d'])
  | double inside => '\x7b' :: '\x7b' :: (inside ++ ['\x7d', '\x7d'])

def part : Piece → Part
  | text cs => .text (.ofList cs)
  | single inside => .expression (codeOf inside)
  | double inside => .expression (codeOf inside)

/-- How the scanner of a body gives it. -/
def token : Piece → Token
  | text cs => .text (.ofList cs)
  | p@(single inside) => .interpolation (codeOf inside) (.ofList p.source)
  | p@(double inside) => .interpolation (codeOf inside) (.ofList p.source)

end Piece

def textPiece (literal : List Char) : List Piece :=
  if literal.isEmpty then [] else [.text literal]

/-- The expression that begins with an open brace in front of `cs`. -/
def braced? : List Char → Option Piece
  | '\x7b' :: cs => (inDoubleBraces? cs).map .double
  | cs => ((inBraces? cs).filter isExpression).map .single

/-- The pieces of a text behind the plain text `literal`. -/
def piecesAfter (literal : List Char) : List Char → List Piece
  | [] => textPiece literal
  | c :: cs =>
    if c = '\x7b' then
      match braced? cs with
      | some p => textPiece literal ++ p :: piecesAfter [] (cs.drop (p.source.length - 1))
      | none => piecesAfter (literal ++ [c]) cs
    else piecesAfter (literal ++ [c]) cs
termination_by cs => cs.length

def pieces (text : String) : List Piece := piecesAfter [] text.toList

section Pieces

variable {cs ds : List Char} {p : Piece}

theorem braced?_of_head (h : cs.head? ≠ some '\x7b') :
    braced? cs = ((inBraces? cs).filter isExpression).map .single := by
  unfold braced?
  split
  · exact absurd rfl h
  · rfl

/-- What is found behind a brace is an expression, with what stands around it. -/
theorem braced?_eq_some (h : braced? cs = some p) :
    ('\x7b' :: cs = p.source ++ cs.drop (p.source.length - 1)) ∧
      (∃ inside, p = .double inside ∨ p = .single inside ∧ isExpression inside) := by
  unfold braced? at h
  split at h
  · obtain ⟨inside, hi, rfl⟩ := Option.map_eq_some_iff.1 h
    obtain ⟨rest, rfl⟩ := inDoubleBraces?_eq_some hi
    exact ⟨by simp [Piece.source], inside, .inl rfl⟩
  · obtain ⟨inside, hi, rfl⟩ := Option.map_eq_some_iff.1 h
    obtain ⟨hi, hx⟩ := Option.filter_eq_some_iff.1 hi
    obtain ⟨rest, rfl⟩ := inBraces?_eq_some hi
    exact ⟨by simp [Piece.source], inside, .inr ⟨rfl, hx⟩⟩

theorem interpolation?_eq (cs : List Char) :
    (interpolation? cs).map (fun r => (Part.expression r.1, r.2)) =
      (braced? cs).map fun p => (p.part, p.source.length - 1) := by
  unfold interpolation?
  split
  · rw [braced?, Option.map_map, Option.map_map]
    congr 1
    funext inside
    simp [Piece.part, Piece.source]
  · next hne =>
    rw [braced?_of_head fun h => (List.head?_eq_some_iff.1 h).elim hne]
    cases inBraces? cs with
    | none => rfl
    | some inside => by_cases hx : isExpression inside <;> simp [hx, Piece.part, Piece.source]

theorem textPiece_part (literal : List Char) :
    (textPiece literal).map Piece.part = textPart literal := by
  unfold textPiece textPart
  split <;> rfl

theorem textPiece_source (literal : List Char) :
    (textPiece literal).flatMap Piece.source = literal := by
  cases literal with
  | nil => rfl
  | cons c cs => simp [textPiece, Piece.source]

/-- The parts of a text are those of its pieces. -/
theorem piecesAfter_part (literal cs : List Char) :
    (piecesAfter literal cs).map Piece.part = partsAfter literal cs := by
  fun_induction piecesAfter literal cs with
  | case1 literal => rw [partsAfter, textPiece_part]
  | case2 literal cs p hp ih =>
    have hi := interpolation?_eq cs
    rw [hp, Option.map_some, Option.map_eq_some_iff] at hi
    obtain ⟨⟨code, width⟩, hi, he⟩ := hi
    obtain ⟨hpart, rfl⟩ := Prod.mk.inj he
    rw [partsAfter, if_pos rfl, hi, List.map_append, List.map_cons, textPiece_part, ih, ← hpart]
  | case3 literal cs hp ih =>
    have hi := interpolation?_eq cs
    rw [hp, Option.map_none, Option.map_eq_none_iff] at hi
    rw [partsAfter, if_pos rfl, hi, ih]
  | case4 literal c cs hc ih => rw [partsAfter, if_neg hc, ih]

/-- Nothing is lost and nothing is moved. -/
theorem piecesAfter_source (literal cs : List Char) :
    (piecesAfter literal cs).flatMap Piece.source = literal ++ cs := by
  fun_induction piecesAfter literal cs with
  | case1 literal => rw [textPiece_source, List.append_nil]
  | case2 literal cs p hp ih =>
    rw [List.flatMap_append, List.flatMap_cons, textPiece_source, ih, List.nil_append,
      ← (braced?_eq_some hp).1]
  | case3 literal cs hp ih => rw [ih, List.append_assoc, List.singleton_append]
  | case4 literal c cs hc ih => rw [ih, List.append_assoc, List.singleton_append]

theorem piecesAfter_append (literal : List Char) (h : '\x7b' ∉ cs) (ds : List Char) :
    piecesAfter literal (cs ++ ds) = piecesAfter (literal ++ cs) ds := by
  induction cs generalizing literal with
  | nil => rw [List.nil_append, List.append_nil]
  | cons c cs ih =>
    rw [List.mem_cons, not_or] at h
    rw [List.cons_append, piecesAfter, if_neg (Ne.symm h.1), ih _ h.2, List.append_assoc,
      List.singleton_append]

theorem join_sources (text : String) :
    String.join ((pieces text).map fun p => .ofList p.source) = text := by
  have hsource : (pieces text).flatMap Piece.source = text.toList :=
    piecesAfter_source [] text.toList
  rw [← String.toList_inj, String.toList_join, List.flatMap_map, ← hsource]
  simp

theorem splitParts_eq (text : String) : splitParts text = (pieces text).map Piece.part :=
  (piecesAfter_part [] text.toList).symm

theorem part_mem_splitParts {text : String} (hp : p ∈ pieces text) : p.part ∈ splitParts text := by
  rw [splitParts_eq]
  exact List.mem_map_of_mem hp

end Pieces

/-! ### The scanner of a body -/

/-- Text in which nothing but text and expressions on one line begins. -/
structure IsBodyText (cs : List Char) : Prop where
  angle : '<' ∉ cs
  block : ¬['\x7b', '%'] <:+: cs
  line : '\n' ∉ cs

section Scanner

variable {c : Char} {literal cs ds rest : List Char} {p : Piece}

theorem IsBodyText.of_suffix (h : IsBodyText cs) (hd : ds <:+ cs) : IsBodyText ds where
  angle hm := h.angle (hd.subset hm)
  block hi := h.block (hi.trans hd.isInfix)
  line hm := h.line (hd.subset hm)

theorem IsBodyText.next_text (h : IsBodyText (c :: cs)) (hc : c ≠ '\x7b') (l : Location) :
    ∃ ds es, cs = ds ++ es ∧ '\x7b' ∉ ds ∧
      Step.next l c (ds ++ es) = .one ds.length (.text (.ofList (c :: ds))) := by
  have hlt : c ≠ '<' := fun hlt => h.angle (hlt ▸ List.mem_cons_self)
  let isPlain (c : Char) : Bool := c != '<' && c != '\x7b'
  refine ⟨cs.takeWhile isPlain, cs.dropWhile isPlain, List.takeWhile_append_dropWhile.symm,
    fun hm => by simpa [isPlain] using List.mem_takeWhile_imp hm, ?_⟩
  rw [List.takeWhile_append_dropWhile]
  have hnext : Step.next l c cs = Step.next.text c cs := by simp [Step.next, hlt, hc]
  rw [hnext, Step.next.text, Step.plain]
  have htake : cs.take (cs.takeWhile isPlain).length = cs.takeWhile isPlain :=
    (List.prefix_iff_eq_take.1 (List.takeWhile_prefix isPlain)).symm
  rw [htake]

/-- The scanner finds an expression behind a brace exactly where the splitter does, unless double
braces do not end. -/
theorem IsBodyText.next_brace (h : IsBodyText ('\x7b' :: cs)) (l : Location) :
    match braced? cs with
    | some p => Step.next l '\x7b' cs = .one (p.source.length - 1) p.token
    | none => (Step.next l '\x7b' cs).problem.isSome ∨
        Step.next l '\x7b' cs = .one 0 (.text (.ofList ['\x7b'])) := by
  by_cases hd : cs.head? = some '\x7b'
  · obtain ⟨cs, rfl⟩ := List.head?_eq_some_iff.1 hd
    have hnext : Step.next l '\x7b' ('\x7b' :: cs) = Step.doubleBrace cs := rfl
    rw [hnext, Step.doubleBrace, braced?]
    cases inDoubleBraces? cs <;> simp [Piece.source, Piece.token, Step.flawed]
  · have hblock : cs.head? ≠ some '%' := by
      rw [Ne, List.head?_eq_some_iff]
      rintro ⟨cs, rfl⟩
      exact h.block ⟨[], cs, rfl⟩
    have hnext : Step.next l '\x7b' cs = Step.singleBrace cs := by
      cases cs with
      | nil => rfl
      | cons c cs =>
        have hc : c ≠ '\x7b' ∧ c ≠ '%' := by simpa using And.intro hd hblock
        simp [Step.next, hc]
    rw [hnext, Step.singleBrace, braced?_of_head hd]
    cases hi : inBraces? cs with
    | none => exact .inr rfl
    | some inside =>
      have hline : '\n' ∉ inside := by
        obtain ⟨rest, rfl⟩ := inBraces?_eq_some hi
        exact fun hm => h.line (by simp [hm])
      by_cases hx : isExpression inside
      · rw [Option.filter_some_pos hx]
        simp [hx, hline, Piece.source, Piece.token]
      · rw [Option.filter_some_neg (by simpa using hx)]
        simp [hx, Step.plain]

theorem joinText_texts (s t : String) (l l' : Location) (xs : List Lexeme) :
    joinText (⟨.text s, l⟩ :: ⟨.text t, l'⟩ :: xs) = joinText (⟨.text (s ++ t), l⟩ :: xs) := by
  cases hx : (joinText xs).head?.any Lexeme.isText with
  | false =>
    rw [joinText_cons (x := ⟨.text (s ++ t), l⟩) fun _ => hx,
      joinText_text (joinText_cons fun _ => hx)]
  | true =>
    obtain ⟨x, ys, hxs⟩ : ∃ x ys, joinText xs = x :: ys := by
      cases hj : joinText xs with
      | nil => simp [hj] at hx
      | cons x ys => exact ⟨x, ys, rfl⟩
    obtain ⟨u, l'', rfl⟩ := Lexeme.exists_of_isText (by simpa [hxs] using hx)
    rw [joinText_text hxs, joinText_text (joinText_text hxs), String.append_assoc]

/-- Text that follows text is put behind it. -/
theorem joinText_textLexemes (literal : List Char) (hc : cs ≠ []) (l l' : Location)
    (xs : List Lexeme) :
    ∃ l'', joinText (textLexemes literal l ++ ⟨.text (.ofList cs), l'⟩ :: xs) =
      joinText (textLexemes (literal ++ cs) l'' ++ xs) := by
  cases literal with
  | nil => exact ⟨l', by simp [textLexemes, hc]⟩
  | cons d ds =>
    refine ⟨l, ?_⟩
    have hjoin := joinText_texts (.ofList (d :: ds)) (.ofList cs) l l' xs
    rw [← String.ofList_append] at hjoin
    simpa [textLexemes] using hjoin

theorem isText_piece (h : braced? cs = some p) (l : Location) :
    Lexeme.isText ⟨p.token, l⟩ = false := by
  obtain ⟨-, inside, rfl | ⟨rfl, -⟩⟩ := braced?_eq_some h <;> rfl

theorem joinText_textPiece (literal : List Char) (l : Location) :
    (joinText (textLexemes literal l)).map Lexeme.token =
      (textPiece literal).map Piece.token := by
  cases literal <;> rfl

variable (file : String)

theorem steps_of_one {l : Location} {t : Token}
    (h : Step.next l c (cs ++ rest) = .one cs.length t) :
    ∃ l', steps file l (c :: (cs ++ rest)) = (⟨t, l⟩ :: ·) <$> steps file l' rest :=
  scans_one file l rest h

theorem steps_problem {l : Location} (h : (Step.next l c cs).problem.isSome) :
    (steps file l (c :: cs)).diagnostics ≠ [] := by
  obtain ⟨⟨problem, message, n⟩, hp⟩ := Option.isSome_iff_exists.1 h
  rw [steps]
  simp [hp, report]

theorem IsBodyText.steps_expression (h : IsBodyText ('\x7b' :: cs)) (hp : braced? cs = some p)
    (l : Location) :
    ∃ l', steps file l ('\x7b' :: cs) =
      (⟨p.token, l⟩ :: ·) <$> steps file l' (cs.drop (p.source.length - 1)) := by
  have hnext := h.next_brace l
  simp only [hp] at hnext
  have htake : (cs.take (p.source.length - 1)).length = p.source.length - 1 := by
    have hlength := congrArg List.length (braced?_eq_some hp).1
    simp only [List.length_cons, List.length_append, List.length_drop] at hlength
    rw [List.length_take]
    omega
  rw [← htake] at hnext
  nth_rewrite 1 [← List.take_append_drop (p.source.length - 1) cs] at hnext ⊢
  exact steps_of_one file hnext

/-- The tokens of a body behind the plain text `literal` are those of its pieces. By induction on
the length of what is left: a step of the scanner takes a whole run of plain text. -/
theorem IsBodyText.tokens (h : IsBodyText cs) (literal : List Char) (l l' : Location)
    (hclean : (steps file l' cs).diagnostics = []) :
    (joinText (textLexemes literal l ++ (steps file l' cs).value)).map Lexeme.token =
      (piecesAfter literal cs).map Piece.token := by
  induction hn : cs.length using Nat.strongRecOn generalizing literal cs l l' with
  | ind n ih =>
    -- Text of a step goes behind the literal, and what is left is shorter.
    have text {c : Char} (ds es : List Char) (hcs : cs = c :: (ds ++ es))
        (hnext : Step.next l' c (ds ++ es) = .one ds.length (.text (.ofList (c :: ds)))) :
        (joinText (textLexemes literal l ++ (steps file l' cs).value)).map Lexeme.token =
          (piecesAfter (literal ++ c :: ds) es).map Piece.token := by
      obtain ⟨l₁, hsteps⟩ := steps_of_one file hnext
      rw [← hcs] at hsteps
      rw [hsteps, Reported.diagnostics_map] at hclean
      obtain ⟨l₂, hjoin⟩ := joinText_textLexemes literal (List.cons_ne_nil c ds) l l'
        (steps file l₁ es).value
      rw [hsteps, Reported.value_map, hjoin]
      refine ih es.length ?_ (h.of_suffix ⟨c :: ds, by simp [hcs]⟩) _ l₂ l₁ hclean rfl
      simp only [hcs, List.length_cons, List.length_append] at hn
      omega
    cases cs with
    | nil =>
      rw [steps, piecesAfter, Reported.value_pure, List.append_nil, joinText_textPiece]
    | cons c cs =>
      by_cases hc : c = '\x7b'
      · subst hc
        rw [piecesAfter, if_pos rfl]
        cases hp : braced? cs with
        | none =>
          have hbrace := h.next_brace l'
          rw [hp] at hbrace
          obtain hproblem | hnext := hbrace
          · exact absurd hclean (steps_problem file hproblem)
          · exact text [] cs rfl hnext
        | some p =>
          obtain ⟨l₁, hsteps⟩ := h.steps_expression file hp l'
          rw [hsteps, Reported.diagnostics_map] at hclean
          have hrest := ih (cs.drop (p.source.length - 1)).length
            (by simp only [List.length_cons, List.length_drop] at hn ⊢; omega)
            (h.of_suffix ((List.drop_suffix _ cs).trans (List.suffix_cons _ cs))) [] l l₁ hclean rfl
          rw [hsteps, Reported.value_map, joinText_append_cons (isText_piece hp l'),
            List.map_append, List.map_cons, joinText_textPiece, List.map_append, List.map_cons,
            ← hrest]
          rfl
      · obtain ⟨ds, es, rfl, hds, hnext⟩ := h.next_text hc l'
        have hmem : '\x7b' ∉ c :: ds := by simp [Ne.symm hc, hds]
        rw [text ds es rfl hnext, ← List.cons_append, piecesAfter_append literal hmem]

end Scanner

/-! ### The nodes -/

/-- Text and expressions are the nodes that attribute text has as parts. -/
def nodePart? : Node → Option Part
  | .text s _ => some (.text s)
  | .expression code _ _ => some (.expression code)
  | _ => none

namespace Piece

def node (l : Location) : Piece → Node
  | text cs => .text (.ofList cs) l
  | p@(single inside) => .expression (codeOf inside) (.ofList p.source) l
  | p@(double inside) => .expression (codeOf inside) (.ofList p.source) l

@[simp] theorem nodePart?_node (p : Piece) (l : Location) : nodePart? (p.node l) = some p.part := by
  cases p <;> rfl

end Piece

theorem step_piece (file : String) (nodes : List Node) (p : Piece) (l : Location) :
    Progress.step file ⟨nodes, [], none⟩ ⟨p.token, l⟩ = pure ⟨p.node l :: nodes, [], none⟩ := by
  cases p <;> rfl

theorem foldlM_pieces (file : String) (nodes : List Node) {xs : List Lexeme} {ps : List Piece}
    (h : xs.map Lexeme.token = ps.map Piece.token) :
    ∃ ns : List Node, ns.map nodePart? = ps.map (some ·.part) ∧
      xs.foldlM (Progress.step file) ⟨nodes, [], none⟩ =
        pure ⟨ns.reverse ++ nodes, [], none⟩ := by
  induction ps generalizing xs nodes with
  | nil =>
    obtain rfl : xs = [] := by simpa using h
    exact ⟨[], rfl, rfl⟩
  | cons p ps ih =>
    obtain ⟨⟨t, l⟩, xs, rfl, rfl, hxs⟩ := List.map_eq_cons_iff.1 h
    obtain ⟨ns, hns, hfold⟩ := ih (p.node l :: nodes) hxs
    refine ⟨p.node l :: ns, by simp [hns], ?_⟩
    rw [List.foldlM_cons, step_piece, pure_bind, hfold]
    simp

/-- Body text is split as attribute text is. -/
theorem parse_parts {text file : String} (hangle : '<' ∉ text.toList)
    (hblock : ¬"\x7b%".toList <:+: text.toList) (hline : '\n' ∉ text.toList)
    (hclean : (parse text file).diagnostics = []) :
    (parse text file).value.map nodePart? = (splitParts text).map some := by
  have hbody : IsBodyText text.toList := ⟨hangle, hblock, hline⟩
  have hscan : (steps file .start text.toList).diagnostics = [] := by
    rw [parse, Reported.diagnostics_bind, scan, Reported.diagnostics_map] at hclean
    exact (List.append_eq_nil_iff.1 hclean).1
  have htokens := hbody.tokens file [] .start .start hscan
  obtain ⟨ns, hns, hfold⟩ := foldlM_pieces file [] htokens
  have hread : (scan text file).value.foldlM (Progress.step file) .start =
      pure ⟨ns.reverse, [], none⟩ := by
    rw [List.append_nil] at hfold
    exact hfold
  have hvalue : (parse text file).value = ns := by
    rw [parse, Reported.value_bind, hread, pure_bind]
    exact List.reverse_reverse ns
  rw [hvalue, hns, splitParts_eq, List.map_map]
  rfl

/-- Braces of both kinds, with braces in quotes, and braces that hold no expression. -/
theorem parse_parts_braces :
    let text := "\x7b1 +\x7d \x7b\x7b x \x7d\x7d\x7by['\x7d']\x7d \x7b \x7bz\x7d b"
    let parts : List Part := [.text "\x7b1 +\x7d ", .expression "x", .expression "y['\x7d']",
      .text " \x7b ", .expression "z", .text " b"]
    '<' ∉ text.toList ∧ ¬"\x7b%".toList <:+: text.toList ∧ '\n' ∉ text.toList ∧
      (parse text "page").diagnostics = [] ∧ splitParts text = parts ∧
      (parse text "page").value.map nodePart? = parts.map some := by
  intro text parts
  have hangle : '<' ∉ text.toList := by decide
  have hblock : ¬"\x7b%".toList <:+: text.toList := by decide
  have hline : '\n' ∉ text.toList := by decide
  have hclean : (parse text "page").diagnostics = [] := by decide +kernel
  have hparts : splitParts text = parts := by decide +kernel
  exact ⟨hangle, hblock, hline, hclean, hparts, hparts ▸ parse_parts hangle hblock hline hclean⟩

end PageCompiler.Markup
