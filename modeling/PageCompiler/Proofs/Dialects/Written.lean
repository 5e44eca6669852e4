import Mathlib
import PageCompiler.Proofs.Dialects.Blocks

/-!
Loops and conditionals over fragments. Whether they are written with tags or between delimiters,
they are read as the same node, up to its dialect and its places.
-/

namespace PageCompiler

namespace Markup

open Node (listUnplaced)

/-! ### Reading piece by piece -/

/-- In front of `rest`, what is written as `cs` takes the reading from `p` to `q`. It ends with
something else than text. -/
def Advances (file : String) (l : Location) (cs rest : List Char) (p q : Progress) (l' : Location) :
    Prop :=
  ∃ xs x, x.isText = false ∧ Scans file l cs rest (xs ++ [x]) l' ∧
    (joinText (xs ++ [x])).foldlM (Progress.step file) p = pure q

section Advances

variable {file : String} {l l' l'' : Location} {cs ds rest : List Char} {p q r : Progress}
  {T : String → Prop} {ns : List Node}

theorem Advances.append (h : Advances file l cs (ds ++ rest) p q l')
    (h' : Advances file l' ds rest q r l'') : Advances file l (cs ++ ds) rest p r l'' := by
  obtain ⟨xs, x, hx, hs, hp⟩ := h
  obtain ⟨ys, y, hy, hs', hq⟩ := h'
  refine ⟨xs ++ x :: ys, y, hy, by simpa using hs.append hs', ?_⟩
  have hjoin : joinText (xs ++ x :: ys ++ [y]) = joinText (xs ++ [x]) ++ joinText (ys ++ [y]) := by
    rw [List.append_assoc, List.cons_append, joinText_append_cons hx, joinText_append_cons hx]
    simp [joinText]
  rw [hjoin, List.foldlM_append, hp, pure_bind, hq]

theorem Advances.one {x : Lexeme} (hx : x.isText = false) (hs : Scans file l cs rest [x] l')
    (h : Progress.step file p x = pure q) : Advances file l cs rest p q l' :=
  ⟨[], x, hx, hs, by simpa [joinText] using h⟩

theorem Advances.parse {source : String} (h : Advances file .start source.toList [] .start q l') :
    parse source file = Progress.closeAll file q.settle.nodes q.stack := by
  obtain ⟨xs, x, -, hs, hq⟩ := h
  rw [Scans, List.append_nil] at hs
  rw [Markup.parse, scan, hs, steps, map_pure, map_pure, pure_bind, List.append_nil, hq, pure_bind]

/-- The nodes that a fragment is read as. -/
def reading (file : String) (ns : List Node) : List Node :=
  listUnplaced (Markup.parse (renderAll ns) file).value

/-- The nodes `ms` are the reading of `ns` at some places. -/
structure IsReading (T : String → Prop) (file : String) (ns ms : List Node) : Prop where
  unplaced : listUnplaced ms = reading file ns
  pieces : ∀ m ∈ ms, m.Everywhere (IsPiece T)

/-- A fragment and the token behind it. -/
theorem Fragment.advances (h : Fragment T ns) {t : Token} (ht : ∀ l, Lexeme.isText ⟨t, l⟩ = false)
    (hs : ∀ l, ∃ l', Scans file l ds rest [⟨t, l⟩] l') (hr : EndsText (ds ++ rest)) (l : Location) :
    ∃ ms l₁ l', IsReading T file ns ms ∧ ∀ stack q,
      Progress.step file ⟨ms.reverse, stack, none⟩ ⟨t, l₁⟩ = pure q →
        Advances file l ((renderAll ns).toList ++ ds) rest ⟨[], stack, none⟩ q l' := by
  obtain ⟨xs, ms, l₁, h⟩ := h.spelled file l hr
  obtain ⟨l', hs⟩ := hs l₁
  refine ⟨ms, l₁, l', ⟨h.unplaced, h.pieces⟩, fun stack q hq => ?_⟩
  refine ⟨xs, ⟨t, l₁⟩, ht l₁, h.scans.append hs, ?_⟩
  rw [joinText_append_cons (ht l₁), List.foldlM_append, h.spells.foldlM, List.append_nil,
    pure_bind]
  simpa [joinText] using hq

end Advances

/-! ### Tags of control flow -/

section Tags

variable {file name t s : String} {raw : List RawAttribute} {as : List Attribute}
  {nodes ms : List Node} {stack : List (Frame × List Node)} {c : Chain} {l l' : Location}

theorem IsExpressionText.trimmed_ne (h : IsExpressionText s) : Text.trimmed s ≠ "" :=
  fun hs => h.trim_ne_nil (by simpa [Text.trimmed] using congrArg String.toList hs)

theorem IsIdentifier.ne_empty (h : IsIdentifier s) : s ≠ "" := by
  rintro rfl
  exact absurd h.head (by decide)

theorem IsIdentifier.trimmed (h : IsIdentifier s) : Text.trimmed s = s := by
  rw [Text.trimmed, trim_of_forall fun c hc => not_isBlank_of_continuesIdentifier (h.chars c hc),
    String.ofList_toList]

/-- A directive is given by the text of the first attribute of its name. -/
theorem filledDirective?_of_found (h : Found raw as)
    (ha : as.find? (fun a => Text.eqIgnoringAsciiCase a.name name) = some (.new name (.static t)))
    (hb : '\x7b' ∉ t.toList) (hne : Text.trimmed t ≠ "") :
    filledDirective? name raw = some (Text.trimmed t) := by
  let isNamed (p : String × Option RawValue) : Bool := Text.eqIgnoringAsciiCase p.1 name
  have hfind : (raw.find? fun a => Text.eqIgnoringAsciiCase a.name name).map
      (fun r => (r.name, r.value)) = some (name, some (.text t)) := by
    calc _ = (raw.map fun r => (r.name, r.value)).find? isNamed := by rw [List.find?_map]; rfl
      _ = (as.map fun a => (a.name, rawValue a.value)).find? isNamed := by rw [h]
      _ = (as.find? fun a => Text.eqIgnoringAsciiCase a.name name).map
          fun a => (a.name, rawValue a.value) := by rw [List.find?_map]; rfl
      _ = some (name, some (.text t)) := by rw [ha]; rfl
  obtain ⟨r, hr, hvalue⟩ := Option.map_eq_some_iff.1 hfind
  have hparts : directive? name raw = some (Text.trimmed t) := by
    have hv : r.value = some (.text t) := congrArg Prod.snd hvalue
    have hsplit : splitParts t = textPart t.toList := partsAfter_of_notMem [] hb
    simp only [directive?, hr, hv, hsplit, textPart, Option.bind_eq_bind, Option.bind_some]
    cases t.toList.isEmpty <;> rfl
  rw [filledDirective?, hparts, Option.filter_some, if_pos (by simpa using hne)]

theorem step_chained (h : Progress.continuesChain name) (l : Location) :
    Progress.step file ⟨nodes, stack, some c⟩ ⟨.openTag name raw false, l⟩ =
      pure ⟨[], (.chained name raw l c, nodes) :: stack, none⟩ := by
  simp [Progress.step, h]

theorem step_closeChained (ms : List Node) (l l' : Location) :
    Progress.step file ⟨ms.reverse, (.chained name raw l c, nodes) :: stack, none⟩
        ⟨.closeTag name, l'⟩ =
      Progress.place nodes stack <$> Progress.continueChain file name raw l c ms := by
  simp [Progress.step, Progress.take, Frame.isClosedBy, Text.eqIgnoringAsciiCase,
    Progress.closeTo, Progress.finish]

/-- Blank text behind a conditional of tags waits for the next tag. -/
theorem foldlM_blanks {gap : List Char} (h : ∀ c ∈ gap, Text.isBlank c) (l : Location) :
    (textLexemes gap l).foldlM (Progress.step file) ⟨nodes, stack, some c⟩ =
      pure ⟨nodes, stack, some { c with blanks := textNodes gap l ++ c.blanks }⟩ := by
  have hblank : Text.isAllBlank (.ofList gap) := by
    rw [Text.isAllBlank, String.toList_ofList]
    exact List.all_eq_true.2 h
  unfold textLexemes textNodes
  split
  · rfl
  · simp [Progress.step, hblank]

end Tags

/-! ### Control flow as it is written -/

/-- The tag is that of an element, and of no directive. -/
def IsOrdinaryTag (tag : String) : Prop := ¬Text.startsWith (asciiLower tag) "n:"

/-- A condition and what it guards can be written. -/
structure IsBranch (b : String × List Node) : Prop where
  condition : IsExpressionText b.1
  body : Fragment IsOrdinaryTag b.2

/-- The branch is read as `b` at some places. -/
structure IsBranchReading (file : String) (given b : String × List Node) : Prop where
  condition : b.1 = Text.trimmed given.1
  body : IsReading IsOrdinaryTag file given.2 b.2

def branchTag (tag : String) (b : String × List Node) : String :=
  "<" ++ tag ++ " condition=\"" ++ b.1 ++ "\">" ++ renderAll b.2 ++ "</" ++ tag ++ ">"

/-- The further branches of a chain of tags, each behind the blank text `gap`. -/
def otherTags (gap : String) : List (String × List Node) → String
  | [] => ""
  | b :: rest => gap ++ branchTag "elif" b ++ otherTags gap rest

def alternateTag (gap : String) : Option (List Node) → String
  | none => ""
  | some body => gap ++ "<else>" ++ renderAll body ++ "</else>"

def otherBlocks : List (String × List Node) → String
  | [] => ""
  | b :: rest => (Block.otherBranch b.1).text ++ renderAll b.2 ++ otherBlocks rest

def alternateBlock : Option (List Node) → String
  | none => ""
  | some body => Block.alternate.text ++ renderAll body

/-- A loop or a conditional over fragments, apart from how it is written. -/
inductive Control
  | loop (item source : String) (body : List Node)
  /-- A branch, further branches, and what is left if no condition holds. -/
  | conditional (first : String × List Node) (others : List (String × List Node))
      (alternate : Option (List Node))

namespace Control

def IsWellFormed : Control → Prop
  | loop item source body =>
    IsIdentifier item ∧ IsExpressionText source ∧ Fragment IsOrdinaryTag body
  | conditional first others alternate =>
    IsBranch first ∧ (∀ b ∈ others, IsBranch b) ∧ ∀ body ∈ alternate, Fragment IsOrdinaryTag body

/-- The construct in a dialect. Between tags that belong together stands the blank text `gap`. -/
def written (gap : String) : Dialect → Control → String
  | .tag, loop item source body =>
    "<for item=\"" ++ item ++ "\" in=\"" ++ source ++ "\">" ++ renderAll body ++ "</for>"
  | .tag, conditional first others alternate =>
    branchTag "if" first ++ otherTags gap others ++ alternateTag gap alternate
  | .delimiter, loop item source body =>
    (Block.loop item source).text ++ renderAll body ++ Block.endLoop.text
  | .delimiter, conditional first others alternate =>
    (Block.branch first.1).text ++ renderAll first.2 ++ otherBlocks others ++
      alternateBlock alternate ++ Block.endBranch.text

/-- The node that is read, without its places. -/
def node (file : String) (d : Dialect) : Control → Node
  | loop item source body => .loop item (Text.trimmed source) (reading file body) d .unknown
  | conditional first others alternate =>
    .conditional ((first :: others).map fun b => (Text.trimmed b.1, reading file b.2))
      (alternate.map (reading file)) d .unknown

end Control

section Readings

variable {file gap : String} {l : Location} {rest : List Char} {b : String × List Node}
  {others : List (String × List Node)} {c : Chain} {nodes ns : List Node}
  {stack : List (Frame × List Node)}

theorem isPlain_new {name t : String} (hne : name ≠ "")
    (hname : ∀ c ∈ name.toList, ¬Step.endsAttributeName c) (hq : '"' ∉ t.toList)
    (hb : '\x7b' ∉ t.toList) : (Attribute.new name (.static t)).IsPlain := ⟨hne, hname, hq, hb⟩

theorem scans_condition {tag s : String} (ht : IsTagName tag) (hraw : ¬isRawText tag)
    (h : IsExpressionText s) (file : String) (l : Location) (rest : List Char) :
    ∃ raw l', filledDirective? "condition" raw = some (Text.trimmed s) ∧
      Scans file l ('<' :: opening tag [.new "condition" (.static s)]) rest
        [⟨.openTag tag raw false, l⟩] l' := by
  have hplain : ∀ a ∈ [Attribute.new "condition" (.static s)], a.IsPlain :=
    List.forall_mem_singleton.2 (isPlain_new (by decide)
      (by simp [Step.endsAttributeName, Text.isBlank]) h.quote h.opening)
  obtain ⟨raw, l', hfound, hs⟩ := scans_opening file l rest ht hplain hraw
  have hcondition : filledDirective? "condition" raw = some (Text.trimmed s) :=
    filledDirective?_of_found hfound (by simp [Attribute.new, Text.eqIgnoringAsciiCase])
      h.opening h.trimmed_ne
  exact ⟨raw, l', hcondition, hs⟩

theorem toList_branchTag (tag : String) (h : IsBranch b) :
    (branchTag tag b).toList =
      '<' :: opening tag [.new "condition" (.static b.1)] ++
        ((renderAll b.2).toList ++ closing tag) := by
  simp [branchTag, opening, closing, renderAttributes, renderAttribute, Attribute.new,
    escapeQuotes_of_notMem h.condition.quote]

theorem isTagName_if : IsTagName "if" :=
  ⟨by decide +kernel, by simp [Step.endsTagName, Text.isBlank]⟩

theorem isTagName_elif : IsTagName "elif" :=
  ⟨by decide +kernel, by simp [Step.endsTagName, Text.isBlank]⟩

theorem isTagName_else : IsTagName "else" :=
  ⟨by decide +kernel, by simp [Step.endsTagName, Text.isBlank]⟩

theorem isTagName_for : IsTagName "for" :=
  ⟨by decide +kernel, by simp [Step.endsTagName, Text.isBlank]⟩

theorem endsText_closing (tag : String) (rest : List Char) : EndsText (closing tag ++ rest) := by
  simp [EndsText, closing]

/-- A fragment with the tag that closes it. -/
theorem Fragment.advances_closing {T : String → Prop} (h : Fragment T ns) {tag : String}
    (ht : IsTagName tag) (file : String) (l : Location) (rest : List Char) :
    ∃ ms l₁ l', IsReading T file ns ms ∧ ∀ stack q,
      Progress.step file ⟨ms.reverse, stack, none⟩ ⟨.closeTag tag, l₁⟩ = pure q →
        Advances file l ((renderAll ns).toList ++ closing tag) rest ⟨[], stack, none⟩ q l' :=
  h.advances (fun _ => rfl) (fun l => scans_closing file l rest ht) (endsText_closing tag rest) l

theorem advances_if (h : IsBranch b) (file : String) (l : Location) (rest : List Char)
    (nodes : List Node) (stack : List (Frame × List Node)) :
    ∃ d l', IsBranchReading file b d ∧
      Advances file l (branchTag "if" b).toList rest ⟨nodes, stack, none⟩
        ⟨nodes, stack, some ⟨[d], l, []⟩⟩ l' := by
  obtain ⟨raw, l₁, hcondition, hopen⟩ := scans_condition isTagName_if (by decide +kernel)
    h.condition file l ((renderAll b.2).toList ++ closing "if" ++ rest)
  obtain ⟨ms, l₂, l', hms, hbody⟩ := h.body.advances_closing isTagName_if file l₁ rest
  refine ⟨(Text.trimmed b.1, ms), l', ⟨rfl, hms⟩, ?_⟩
  rw [toList_branchTag "if" h]
  refine (Advances.one rfl hopen (step_openTag (by decide +kernel) l)).append (hbody _ _ ?_)
  rw [step_closeTag]
  simp [build, show asciiLower "if" = "if" by decide +kernel, hcondition, Progress.place]

theorem isLoose_of_isBlank {gap : List Char} (h : ∀ c ∈ gap, Text.isBlank c) : IsLoose gap where
  brace hb := absurd (h _ hb) (by decide)
  angle := by
    induction gap with
    | nil => exact .nil
    | cons c cs ih =>
      rw [List.forall_mem_cons] at h
      exact List.isChain_cons.2 ⟨fun _ _ hlt => absurd h.1 (hlt ▸ by decide), ih h.2⟩
  last hl := absurd (h _ (List.mem_of_getLast? hl)) (by decide)

/-- A tag goes on with a chain behind blank text. -/
theorem advances_chained {gap ds : List Char} (hgap : ∀ c ∈ gap, Text.isBlank c) {name : String}
    (hname : Progress.continuesChain name) {P : List RawAttribute → Prop}
    (hs : ∀ l, ∃ raw l', P raw ∧
      Scans file l ('<' :: ds) rest [⟨.openTag name raw false, l⟩] l')
    (l : Location) (nodes : List Node) (stack : List (Frame × List Node)) (c : Chain) :
    ∃ raw l₁ l' blanks, P raw ∧ Advances file l (gap ++ '<' :: ds) rest ⟨nodes, stack, some c⟩
      ⟨[], (.chained name raw l₁ { c with blanks }, nodes) :: stack, none⟩ l' := by
  obtain ⟨xs, l₁, hxs, hjoin⟩ :=
    scans_loose file ('<' :: ds ++ rest) (by simp [EndsText]) l (isLoose_of_isBlank hgap)
  obtain ⟨raw, l', hraw, hopen⟩ := hs l₁
  refine ⟨raw, l₁, l', textNodes gap l ++ c.blanks, hraw, xs, _, ?_, hxs.append hopen, ?_⟩
  · rfl
  · rw [joinText_append_cons rfl, hjoin, List.foldlM_append, foldlM_blanks hgap, pure_bind]
    simp [joinText, step_chained hname]

variable (hgap : ∀ c ∈ gap.toList, Text.isBlank c)

include hgap

theorem advances_elif (h : IsBranch b) (file : String) (l : Location) (rest : List Char)
    (nodes : List Node) (stack : List (Frame × List Node)) (c : Chain) :
    ∃ d l', IsBranchReading file b d ∧
      Advances file l (gap.toList ++ (branchTag "elif" b).toList) rest ⟨nodes, stack, some c⟩
        ⟨nodes, stack, some ⟨c.branches ++ [d], c.location, []⟩⟩ l' := by
  obtain ⟨raw, l₁, l₂, blanks, hcondition, hopen⟩ :=
    advances_chained hgap (by decide +kernel)
      (fun l => scans_condition isTagName_elif (by decide +kernel) h.condition file l
        ((renderAll b.2).toList ++ closing "elif" ++ rest)) l nodes stack c
  obtain ⟨ms, l₃, l', hms, hbody⟩ := h.body.advances_closing isTagName_elif file l₂ rest
  refine ⟨(Text.trimmed b.1, ms), l', ⟨rfl, hms⟩, ?_⟩
  rw [toList_branchTag "elif" h, ← List.append_assoc]
  refine hopen.append (hbody _ _ ?_)
  rw [step_closeChained]
  simp [Progress.continueChain, show asciiLower "elif" ≠ "else" by decide +kernel, hcondition,
    Progress.place]

theorem advances_else (h : Fragment IsOrdinaryTag ns) (file : String) (l : Location)
    (rest : List Char) (nodes : List Node) (stack : List (Frame × List Node)) (c : Chain) :
    ∃ ms l', IsReading IsOrdinaryTag file ns ms ∧
      Advances file l (alternateTag gap (some ns)).toList rest ⟨nodes, stack, some c⟩
        ⟨.conditional c.branches (some ms) .tag c.location :: nodes, stack, none⟩ l' := by
  have hplain : ∀ a ∈ ([] : List Attribute), a.IsPlain := List.forall_mem_nil _
  obtain ⟨raw, l₁, l₂, blanks, -, hopen⟩ :=
    advances_chained hgap (by decide +kernel)
      (fun l => scans_opening file l ((renderAll ns).toList ++ closing "else" ++ rest)
        isTagName_else hplain (by decide +kernel)) l nodes stack c
  obtain ⟨ms, l₃, l', hms, hbody⟩ := h.advances_closing isTagName_else file l₂ rest
  have hcs : (alternateTag gap (some ns)).toList =
      gap.toList ++ '<' :: opening "else" [] ++ ((renderAll ns).toList ++ closing "else") := by
    simp [alternateTag, opening, closing, renderAttributes]
  refine ⟨ms, l', hms, ?_⟩
  rw [hcs]
  refine hopen.append (hbody _ _ ?_)
  rw [step_closeChained]
  simp [Progress.continueChain, show asciiLower "else" = "else" by decide +kernel, Progress.place]

/-- Further branches are added to a chain one after the other. -/
theorem advances_otherTags (h : ∀ b ∈ others, IsBranch b) {l₀ : Location} {cs : List Char}
    {given bs : List (String × List Node)} (hbs : List.Forall₂ (IsBranchReading file) given bs)
    (hcs : Advances file l₀ cs ((otherTags gap others).toList ++ rest) .start
      ⟨[], [], some ⟨bs, l₀, []⟩⟩ l) :
    ∃ ds l', List.Forall₂ (IsBranchReading file) (given ++ others) ds ∧
      Advances file l₀ (cs ++ (otherTags gap others).toList) rest .start
        ⟨[], [], some ⟨ds, l₀, []⟩⟩ l' := by
  induction others generalizing cs given bs l with
  | nil => exact ⟨bs, l, by simpa using hbs, by simpa [otherTags] using hcs⟩
  | cons b others ih =>
    rw [List.forall_mem_cons] at h
    have happend : (otherTags gap (b :: others)).toList =
        gap.toList ++ (branchTag "elif" b).toList ++ (otherTags gap others).toList := by
      simp [otherTags]
    rw [happend, List.append_assoc] at hcs
    obtain ⟨d, l₁, hd, hb⟩ := advances_elif hgap h.1 file l
      ((otherTags gap others).toList ++ rest) [] [] ⟨bs, l₀, []⟩
    have hbs' : List.Forall₂ (IsBranchReading file) (given ++ [b]) (bs ++ [d]) :=
      List.rel_append hbs (.cons hd .nil)
    obtain ⟨ds, l', hds, hreads⟩ := ih h.2 hbs' (hcs.append hb)
    refine ⟨ds, l', by simpa using hds, ?_⟩
    rw [happend, ← List.append_assoc]
    exact hreads

omit hgap

theorem endsText_block (b : Block) (rest : List Char) : EndsText (b.text.toList ++ rest) := by
  cases b <;> simp [EndsText, Block.text, Block.delimited]

/-- A fragment with the block behind it. -/
theorem Fragment.advances_block {T : String → Prop} (h : Fragment T ns) {t : Block}
    (ht : t.IsReadable) (file : String) (l : Location) (rest : List Char) :
    ∃ ms l₁ l', IsReading T file ns ms ∧ ∀ stack q,
      Progress.step file ⟨ms.reverse, stack, none⟩ ⟨.block t.trimmed, l₁⟩ = pure q →
        Advances file l ((renderAll ns).toList ++ t.text.toList) rest ⟨[], stack, none⟩ q l' :=
  h.advances (fun _ => rfl) (fun l => Block.scans_text ht file l rest) (endsText_block t rest) l

/-- All branches between delimiters, with the block `t` that ends the last one. -/
theorem advances_otherBlocks {first : String × List Node} (hfirst : IsBranch first)
    (h : ∀ b ∈ others, IsBranch b) {l₀ : Location} {t : Block} (ht : t.IsReadable)
    {q : List (String × List Node) → Progress}
    (hq : ∀ bs condition ms l, Progress.step file
      ⟨ms.reverse, [(.branch bs condition l₀, [])], none⟩ ⟨.block t.trimmed, l⟩ =
        pure (q (bs ++ [(condition, ms)])))
    {cs : List Char} {given bs : List (String × List Node)}
    (hbs : List.Forall₂ (IsBranchReading file) given bs)
    (hcs : Advances file l₀ cs
      ((renderAll first.2).toList ++ ((otherBlocks others).toList ++ (t.text.toList ++ rest)))
      .start ⟨[], [(.branch bs (Text.trimmed first.1) l₀, [])], none⟩ l) :
    ∃ ds l', List.Forall₂ (IsBranchReading file) (given ++ first :: others) ds ∧
      Advances file l₀ (cs ++ (renderAll first.2).toList ++ (otherBlocks others).toList ++
        t.text.toList) rest .start (q ds) l' := by
  induction others generalizing first cs given bs l with
  | nil =>
    obtain ⟨ms, l₁, l', hms, hbody⟩ := hfirst.body.advances_block ht file l rest
    have hd : IsBranchReading file first (Text.trimmed first.1, ms) := ⟨rfl, hms⟩
    have hcs : Advances file l₀ cs ((renderAll first.2).toList ++ t.text.toList ++ rest) .start
        ⟨[], [(.branch bs (Text.trimmed first.1) l₀, [])], none⟩ l := by
      simpa [otherBlocks] using hcs
    refine ⟨_, l', List.rel_append hbs (.cons hd .nil), ?_⟩
    simpa [otherBlocks] using hcs.append (hbody _ _ (hq bs _ ms l₁))
  | cons b others ih =>
    rw [List.forall_mem_cons] at h
    have hb : (Block.otherBranch b.1).IsReadable := h.1.condition
    obtain ⟨ms, l₁, l₂, hms, hbody⟩ := hfirst.body.advances_block hb file l
      ((renderAll b.2).toList ++ ((otherBlocks others).toList ++ (t.text.toList ++ rest)))
    have hd : IsBranchReading file first (Text.trimmed first.1, ms) := ⟨rfl, hms⟩
    have hbs' : List.Forall₂ (IsBranchReading file) (given ++ [first])
        (bs ++ [(Text.trimmed first.1, ms)]) := List.rel_append hbs (.cons hd .nil)
    have hcs : Advances file l₀ cs
        ((renderAll first.2).toList ++ (Block.otherBranch b.1).text.toList ++
          ((renderAll b.2).toList ++ ((otherBlocks others).toList ++ (t.text.toList ++ rest))))
        .start ⟨[], [(.branch bs (Text.trimmed first.1) l₀, [])], none⟩ l := by
      simpa [otherBlocks] using hcs
    have hstep : Progress.step file
        ⟨ms.reverse, [(.branch bs (Text.trimmed first.1) l₀, [])], none⟩
        ⟨.block (Block.otherBranch b.1).trimmed, l₁⟩ =
          pure ⟨[], [(.branch (bs ++ [(Text.trimmed first.1, ms)]) (Text.trimmed b.1) l₀, [])],
            none⟩ := by
      simp [Progress.step, Progress.take, Progress.takeBlock, Block.trimmed]
    obtain ⟨ds, l', hds, hreads⟩ := ih h.1 h.2 hbs' (hcs.append (hbody _ _ hstep))
    refine ⟨ds, l', by simpa using hds, ?_⟩
    simpa [otherBlocks] using hreads

end Readings

/-! ### The dialects read alike -/

theorem map_unplaced_of_isBranchReading {file : String} {given bs : List (String × List Node)}
    (h : List.Forall₂ (IsBranchReading file) given bs) :
    Node.branchesUnplaced bs = given.map fun b => (Text.trimmed b.1, reading file b.2) := by
  induction h with
  | nil => rfl
  | cons hb _ ih => rw [Node.branchesUnplaced, hb.condition, hb.body.unplaced, ih, List.map_cons]

theorem pieces_of_isBranchReading {file : String} {given bs : List (String × List Node)}
    (h : List.Forall₂ (IsBranchReading file) given bs) :
    ∀ ns ∈ bs.map Prod.snd, ∀ m ∈ ns, m.Everywhere (IsPiece IsOrdinaryTag) := by
  induction h with
  | nil => exact List.forall_mem_nil _
  | cons hb _ ih => exact List.forall_mem_cons.2 ⟨hb.body.pieces, ih⟩

namespace Control

variable {file : String} {n : Node}

/-- The node is what is read for the construct, at some places. -/
structure IsReading (file : String) (d : Dialect) (c : Control) (n : Node) : Prop where
  unplaced : n.unplaced = c.node file d
  pieces : ∀ ns ∈ n.childLists, ∀ m ∈ ns, m.Everywhere (IsPiece IsOrdinaryTag)

theorem isReading_loop {item source : String} {body ms : List Node} {d : Dialect}
    (h : Markup.IsReading IsOrdinaryTag file body ms) (l : Location) :
    (loop item source body).IsReading file d (.loop item (Text.trimmed source) ms d l) where
  unplaced := by rw [Node.unplaced, h.unplaced, node]
  pieces := List.forall_mem_singleton.2 h.pieces

theorem isReading_conditional {first : String × List Node} {others bs : List (String × List Node)}
    {given alternate : Option (List Node)} {d : Dialect}
    (hbs : List.Forall₂ (IsBranchReading file) (first :: others) bs)
    (ha : Option.Rel (Markup.IsReading IsOrdinaryTag file) given alternate) (l : Location) :
    (conditional first others given).IsReading file d (.conditional bs alternate d l) where
  unplaced := by
    cases ha with
    | none => rw [Node.unplaced, map_unplaced_of_isBranchReading hbs, node]; rfl
    | some h => rw [Node.unplaced, map_unplaced_of_isBranchReading hbs, node, h.unplaced]; rfl
  pieces := by
    refine List.forall_mem_append.2 ⟨pieces_of_isBranchReading hbs, ?_⟩
    cases ha with
    | none => exact List.forall_mem_nil _
    | some h => exact List.forall_mem_singleton.2 h.pieces

section Loops

variable {item source : String} {body : List Node} (hx : IsIdentifier item)
  (hs : IsExpressionText source) (hb : Fragment IsOrdinaryTag body)

include hx hs hb

theorem parse_loop_tag (gap file : String) :
    ∃ n, parse (written gap .tag (loop item source body)) file = pure [n] ∧
      (loop item source body).IsReading file .tag n := by
  let as : List Attribute := [.new "item" (.static item), .new "in" (.static source)]
  have hquote : '"' ∉ item.toList := fun hm => absurd (hx.chars _ hm) (by decide)
  have hbrace : '\x7b' ∉ item.toList := fun hm => absurd (hx.chars _ hm) (by decide)
  have hplain : ∀ a ∈ as, a.IsPlain := by
    refine List.forall_mem_cons.2 ⟨?_, List.forall_mem_singleton.2 ?_⟩
    · exact isPlain_new (by decide) (by simp [Step.endsAttributeName, Text.isBlank]) hquote hbrace
    · exact isPlain_new (by decide) (by simp [Step.endsAttributeName, Text.isBlank]) hs.quote
        hs.opening
  have hcs : (written gap .tag (loop item source body)).toList =
      '<' :: opening "for" as ++ ((renderAll body).toList ++ closing "for") := by
    simp [written, as, opening, closing, renderAttributes, renderAttribute, Attribute.new,
      escapeQuotes_of_notMem hquote, escapeQuotes_of_notMem hs.quote]
  obtain ⟨raw, l₁, hfound, hopen⟩ := scans_opening file .start
    ((renderAll body).toList ++ closing "for" ++ []) isTagName_for hplain (by decide +kernel)
  obtain ⟨ms, l₂, l', hms, hbody⟩ := hb.advances_closing isTagName_for file l₁ []
  have hitem : filledDirective? "item" raw = some (Text.trimmed item) :=
    filledDirective?_of_found hfound (by simp [as, Attribute.new, Text.eqIgnoringAsciiCase])
      hbrace (hx.trimmed.symm ▸ hx.ne_empty)
  have hin : filledDirective? "in" raw = some (Text.trimmed source) :=
    filledDirective?_of_found hfound (by simp [as, Attribute.new, Text.eqIgnoringAsciiCase])
      hs.opening hs.trimmed_ne
  refine ⟨.loop item (Text.trimmed source) ms .tag .start, ?_, isReading_loop hms _⟩
  have hreads : Advances file .start (written gap .tag (loop item source body)).toList [] .start
      ⟨[.loop item (Text.trimmed source) ms .tag .start], [], none⟩ l' := by
    rw [hcs]
    refine (Advances.one rfl hopen (step_openTag (by decide +kernel) _)).append (hbody _ _ ?_)
    rw [step_closeTag]
    simp [build, show asciiLower "for" = "for" by decide +kernel, hitem, hin, hx.trimmed,
      Progress.place]
  rw [hreads.parse]
  rfl

theorem parse_loop_delimiter (gap file : String) :
    ∃ n, parse (written gap .delimiter (loop item source body)) file = pure [n] ∧
      (loop item source body).IsReading file .delimiter n := by
  have hblock : (Block.loop item source).IsReadable := ⟨hx, hs⟩
  obtain ⟨l₁, hopen⟩ := Block.scans_text hblock file .start
    ((renderAll body).toList ++ Block.endLoop.text.toList ++ [])
  have hend : Block.endLoop.IsReadable := trivial
  obtain ⟨ms, l₂, l', hms, hbody⟩ := hb.advances_block hend file l₁ []
  refine ⟨.loop item (Text.trimmed source) ms .delimiter .start, ?_, isReading_loop hms _⟩
  have hreads : Advances file .start (written gap .delimiter (loop item source body)).toList []
      .start ⟨[.loop item (Text.trimmed source) ms .delimiter .start], [], none⟩ l' := by
    rw [written, String.toList_append, String.toList_append, List.append_assoc]
    refine (Advances.one rfl hopen rfl).append (hbody _ _ ?_)
    simp [Progress.step, Progress.take, Progress.takeBlock, Block.trimmed, Progress.finish,
      Progress.place, Progress.start]
  rw [hreads.parse]
  rfl

end Loops

section Conditionals

variable {first : String × List Node} {others : List (String × List Node)}
  {alternate : Option (List Node)} (hfirst : IsBranch first) (hothers : ∀ b ∈ others, IsBranch b)
  (ha : ∀ body ∈ alternate, Fragment IsOrdinaryTag body)

include hfirst hothers ha

theorem parse_conditional_tag {gap : String} (hgap : ∀ c ∈ gap.toList, Text.isBlank c)
    (file : String) :
    ∃ n, parse (written gap .tag (conditional first others alternate)) file = pure [n] ∧
      (conditional first others alternate).IsReading file .tag n := by
  have hcs : (written gap .tag (conditional first others alternate)).toList =
      (branchTag "if" first).toList ++ (otherTags gap others).toList ++
        (alternateTag gap alternate).toList := by
    simp [written]
  obtain ⟨d, l₁, hd, hif⟩ := advances_if hfirst file .start
    ((otherTags gap others).toList ++ ((alternateTag gap alternate).toList ++ [])) [] []
  obtain ⟨bs, l₂, hbs, hbranches⟩ := advances_otherTags hgap hothers (.cons hd .nil) hif
  cases alternate with
  | none =>
    refine ⟨.conditional bs none .tag .start, ?_, isReading_conditional hbs .none _⟩
    have hreads : Advances file .start (written gap .tag (conditional first others none)).toList []
        .start ⟨[], [], some ⟨bs, .start, []⟩⟩ l₂ := by
      rw [hcs]
      simpa [alternateTag] using hbranches
    rw [hreads.parse]
    rfl
  | some body =>
    obtain ⟨ms, l', hms, helse⟩ :=
      advances_else hgap (ha body rfl) file l₂ [] [] [] ⟨bs, .start, []⟩
    refine ⟨.conditional bs (some ms) .tag .start, ?_, isReading_conditional hbs (.some hms) _⟩
    have hreads := hbranches.append helse
    rw [← hcs] at hreads
    rw [hreads.parse]
    rfl

theorem parse_conditional_delimiter (gap file : String) :
    ∃ n, parse (written gap .delimiter (conditional first others alternate)) file = pure [n] ∧
      (conditional first others alternate).IsReading file .delimiter n := by
  have hblock : (Block.branch first.1).IsReadable := hfirst.condition
  have hstart (rest : List Char) : ∃ l, Advances file .start (Block.branch first.1).text.toList rest
      .start ⟨[], [(.branch [] (Text.trimmed first.1) .start, [])], none⟩ l := by
    obtain ⟨l, hs⟩ := Block.scans_text hblock file .start rest
    exact ⟨l, .one rfl hs rfl⟩
  have hend : Block.endBranch.IsReadable := trivial
  cases alternate with
  | none =>
    obtain ⟨l, hif⟩ := hstart ((renderAll first.2).toList ++ ((otherBlocks others).toList ++
      (Block.endBranch.text.toList ++ [])))
    obtain ⟨bs, l', hbs, hreads⟩ := advances_otherBlocks hfirst hothers hend
      (q := fun bs => ⟨[.conditional bs none .delimiter .start], [], none⟩)
      (fun bs condition ms l => by
        simp [Progress.step, Progress.take, Progress.takeBlock, Block.trimmed, Progress.finish,
          Progress.place])
      .nil hif
    refine ⟨.conditional bs none .delimiter .start, ?_, isReading_conditional hbs .none _⟩
    have hcs : (written gap .delimiter (conditional first others none)).toList =
        (Block.branch first.1).text.toList ++ (renderAll first.2).toList ++
          (otherBlocks others).toList ++ Block.endBranch.text.toList := by
      simp [written, alternateBlock]
    rw [← hcs] at hreads
    rw [hreads.parse]
    rfl
  | some body =>
    have helse : Block.alternate.IsReadable := trivial
    obtain ⟨l, hif⟩ := hstart ((renderAll first.2).toList ++ ((otherBlocks others).toList ++
      (Block.alternate.text.toList ++
        ((renderAll body).toList ++ Block.endBranch.text.toList ++ []))))
    obtain ⟨bs, l₁, hbs, hbranches⟩ := advances_otherBlocks hfirst hothers helse
      (q := fun bs => ⟨[], [(.alternate bs .start, [])], none⟩)
      (fun bs condition ms l => by
        simp [Progress.step, Progress.take, Progress.takeBlock, Block.trimmed])
      .nil hif
    obtain ⟨ms, l₂, l', hms, hbody⟩ := (ha body rfl).advances_block hend file l₁ []
    refine ⟨.conditional bs (some ms) .delimiter .start, ?_,
      isReading_conditional hbs (.some hms) _⟩
    have hreads := hbranches.append (hbody _
      ⟨[.conditional bs (some ms) .delimiter .start], [], none⟩ (by
        simp [Progress.step, Progress.take, Progress.takeBlock, Block.trimmed, Progress.finish,
          Progress.place]))
    have hcs : (written gap .delimiter (conditional first others (some body))).toList =
        (Block.branch first.1).text.toList ++ (renderAll first.2).toList ++
          (otherBlocks others).toList ++ Block.alternate.text.toList ++
            ((renderAll body).toList ++ Block.endBranch.text.toList) := by
      simp [written, alternateBlock]
    rw [← hcs] at hreads
    rw [hreads.parse]
    rfl

end Conditionals

/-- In either dialect the construct is read without a report, as the same node but for the dialect
and the places. -/
theorem parse_written {c : Control} (h : c.IsWellFormed) {gap : String}
    (hgap : ∀ c ∈ gap.toList, Text.isBlank c) (d : Dialect) (file : String) :
    ∃ n, parse (c.written gap d) file = pure [n] ∧ c.IsReading file d n := by
  cases c with
  | loop item source body =>
    obtain ⟨hx, hs, hb⟩ := h
    cases d with
    | tag => exact parse_loop_tag hx hs hb gap file
    | delimiter => exact parse_loop_delimiter hx hs hb gap file
  | conditional first others alternate =>
    obtain ⟨hfirst, hothers, ha⟩ := h
    cases d with
    | tag => exact parse_conditional_tag hfirst hothers ha hgap file
    | delimiter => exact parse_conditional_delimiter hfirst hothers ha gap file

end Control

end Markup

end PageCompiler
