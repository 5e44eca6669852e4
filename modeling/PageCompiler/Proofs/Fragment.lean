import Mathlib
import PageCompiler.Proofs.RoundTrip
import PageCompiler.Proofs.Tree

/-!
Fragments of markup: elements, text and expressions between double braces. What is written for a
fragment is read as the same nodes wherever it stands.
-/

namespace PageCompiler

open Markup (isVoid isRawText)
open Markup.Step (endsAttributeName)

/-- The value has no expression in it; quotes are escaped when it is written. -/
def AttributeValue.IsBraceless : AttributeValue → Prop
  | .bare => True
  | .static text => '\x7b' ∉ text.toList
  | _ => False

structure Attribute.IsBraceless (a : Attribute) : Prop where
  name_ne : a.name ≠ ""
  name : ∀ c ∈ a.name.toList, ¬endsAttributeName c
  value : a.value.IsBraceless

namespace Markup

open Node (listUnplaced)

/-! ### What stands in a fragment -/

/-- Behind a `<` it makes a tag, a comment or the like. -/
def opensTag (c : Char) : Bool := c.isAlpha || c = '/' || c = '!'

/-- Text in which nothing but text begins. -/
structure IsLoose (cs : List Char) : Prop where
  brace : '\x7b' ∉ cs
  angle : cs.IsChain fun c d => c = '<' → ¬opensTag d
  last : cs.getLast? ≠ some '<'

/-- Code that stands for itself in markup, and does not end the braces around it. -/
structure IsPlainCode (code : String) : Prop where
  escaped : ∀ c ∈ code.toList, Text.escapeHtmlChar c = [c]
  brace : '\x7d' ∉ code.toList

def doubleBraced (code : String) : String := "\x7b\x7b " ++ code ++ " \x7d\x7d"

/-- Elements whose tags have the property `T`, text, and expressions: no components, and no raw
text. -/
inductive Fragment (T : String → Prop) : List Node → Prop
  | nil : Fragment T []
  | text : IsLoose s.toList → Fragment T ns → Fragment T (.text s l :: ns)
  | expression : IsPlainCode code → Fragment T ns →
    Fragment T (.expression code (doubleBraced code) l :: ns)
  | void : IsElementName tag → T tag → isVoid tag → (∀ a ∈ as, a.IsBraceless) → Fragment T ns →
    Fragment T (.element tag as children selfClosing l :: ns)
  | element : IsElementName tag → T tag → ¬isVoid tag → ¬isRawText tag →
    (∀ a ∈ as, a.IsBraceless) → Fragment T children → Fragment T ns →
    Fragment T (.element tag as children selfClosing l :: ns)

/-- What fragments are made of. -/
def IsPiece (T : String → Prop) : Node → Prop
  | .element tag .. => T tag ∧ ¬isRawText tag
  | .text .. | .expression .. => True
  | _ => False

/-- Text in front of it ends where it begins. -/
def EndsText (rest : List Char) : Prop := ∀ d ∈ rest.head?, d = '<' ∨ d = '\x7b'

theorem not_endsTagName_of_isAlphanum {c : Char} (h : c.isAlphanum) : ¬Step.endsTagName c := by
  intro he
  simp only [Step.endsTagName, Bool.or_eq_true, decide_eq_true_eq] at he
  obtain (hblank | rfl) | rfl := he
  · simp [Text.isBlank_of_isAlphanum h] at hblank
  · exact absurd h (by decide)
  · exact absurd h (by decide)

section Attributes

variable {a : Attribute} {as : List Attribute}

/-- The attribute with its value as it is written between quotes. -/
def quoted (a : Attribute) : Attribute :=
  match a.value with
  | .static text => { a with value := .static (Text.escapeQuotes text) }
  | _ => a

theorem notMem_escapeQuotes {c : Char} {s : String} (hc : c ∉ "&quot;".toList)
    (h : c = '"' ∨ c ∉ s.toList) : c ∉ (Text.escapeQuotes s).toList := by
  rw [Text.escapeQuotes, String.toList_ofList, List.mem_flatMap]
  rintro ⟨d, hd, hcd⟩
  split at hcd
  · exact hc hcd
  · next hne =>
    obtain rfl := List.mem_singleton.1 hcd
    exact h.elim hne (· hd)

theorem isPlain_quoted (h : a.IsBraceless) : (quoted a).IsPlain := by
  obtain ⟨name, value, l⟩ := a
  have hv := h.value
  cases value with
  | bare => exact ⟨h.name_ne, h.name, trivial⟩
  | static text =>
    exact ⟨h.name_ne, h.name, notMem_escapeQuotes (by decide) (.inl rfl),
      notMem_escapeQuotes (by decide) (.inr hv)⟩
  | interpolated parts => exact hv.elim
  | expression code => exact hv.elim

theorem renderAttribute_quoted (a : Attribute) :
    renderAttribute (quoted a) = renderAttribute a := by
  obtain ⟨name, value, l⟩ := a
  cases value with
  | static text =>
    have hq : '"' ∉ (Text.escapeQuotes text).toList :=
      notMem_escapeQuotes (by decide) (.inl rfl)
    simp [quoted, renderAttribute, escapeQuotes_of_notMem hq]
  | _ => rfl

theorem renderAttributes_quoted (as : List Attribute) :
    renderAttributes (as.map quoted) = renderAttributes as := by
  simp [renderAttributes, Function.comp_def, renderAttribute_quoted]

theorem opening_quoted (tag : String) (as : List Attribute) :
    opening tag (as.map quoted) = opening tag as := by
  rw [opening, renderAttributes_quoted, opening]

end Attributes

namespace IsLoose

variable {c : Char} {cs ds : List Char}

theorem nil : IsLoose [] := ⟨nofun, .nil, nofun⟩

theorem append (h : IsLoose cs) (h' : IsLoose ds) : IsLoose (cs ++ ds) where
  brace hb := (List.mem_append.1 hb).elim h.brace h'.brace
  angle := List.isChain_append.2 ⟨h.angle, h'.angle, fun _ hx _ _ hlt => absurd (hlt ▸ hx) h.last⟩
  last := by
    rw [List.getLast?_append, ne_eq, Option.or_eq_some_iff, not_or, not_and_or]
    exact ⟨h'.last, .inr h.last⟩

theorem of_append (h : IsLoose (cs ++ ds)) : IsLoose ds where
  brace hb := h.brace (List.mem_append_right cs hb)
  angle := (List.isChain_append.1 h.angle).2.1
  last hd := h.last (by rw [List.getLast?_append, hd]; rfl)

theorem next_eq (h : IsLoose (c :: cs)) (l : Location) (rest : List Char) :
    Step.next l c (cs ++ rest) = Step.next.text c (cs ++ rest) := by
  have hbrace : c ≠ '\x7b' := fun hc => h.brace (hc ▸ List.mem_cons_self)
  by_cases hlt : c = '<'
  · subst hlt
    obtain ⟨d, ds, rfl⟩ : ∃ d ds, cs = d :: ds :=
      List.exists_cons_of_ne_nil fun hn => h.last (by rw [hn]; rfl)
    have hd := (List.isChain_cons_cons.1 h.angle).1 rfl
    simp only [opensTag, Bool.or_eq_true, decide_eq_true_eq, not_or] at hd
    simp [Step.next, Step.startsWithLetter, hd]
  · simp [Step.next, hlt, hbrace]

end IsLoose

/-! ### How it is scanned and parsed -/

theorem isText_joinText (xs : List Lexeme) :
    (joinText xs).head?.any Lexeme.isText = xs.head?.any Lexeme.isText := by
  cases xs with
  | nil => rfl
  | cons x xs =>
    unfold joinText
    split <;> rfl

theorem Lexeme.exists_of_isText {x : Lexeme} (h : x.isText) : ∃ s l, x = ⟨.text s, l⟩ := by
  obtain ⟨t, l⟩ := x
  cases t with
  | text s => exact ⟨s, l, rfl⟩
  | _ => cases h

theorem joinText_cons {x : Lexeme} {xs : List Lexeme}
    (h : x.isText → (joinText xs).head?.any Lexeme.isText = false) :
    joinText (x :: xs) = x :: joinText xs := by
  rw [joinText.eq_def]
  dsimp only
  split
  · next hj =>
    have hj := hj ▸ h rfl
    cases hj
  · rfl

theorem joinText_text {s t : String} {l l' : Location} {xs ys : List Lexeme}
    (h : joinText xs = ⟨.text t, l'⟩ :: ys) :
    joinText (⟨.text s, l⟩ :: xs) = ⟨.text (s ++ t), l⟩ :: ys := by
  rw [joinText.eq_def]
  dsimp only
  rw [h]

/-- Text is joined on either side of what is no text. -/
theorem joinText_append {xs ys : List Lexeme} (h : ys.head?.any Lexeme.isText = false) :
    joinText (xs ++ ys) = joinText xs ++ joinText ys := by
  induction xs with
  | nil => rfl
  | cons x xs ih =>
    rw [List.cons_append]
    cases hxs : joinText xs with
    | nil =>
      have hys : joinText (xs ++ ys) = joinText ys := by rw [ih, hxs, List.nil_append]
      rw [joinText_cons fun _ => by rw [hys, isText_joinText, h],
        joinText_cons fun _ => by rw [hxs]; rfl, ih, List.cons_append]
    | cons y zs =>
      rw [hxs, List.cons_append] at ih
      by_cases hxy : x.isText ∧ y.isText
      · obtain ⟨s, l, rfl⟩ := Lexeme.exists_of_isText hxy.1
        obtain ⟨t, l', rfl⟩ := Lexeme.exists_of_isText hxy.2
        rw [joinText_text ih, joinText_text hxs, List.cons_append]
      · have hy (hx : x.isText) : y.isText = false := by simpa [hx] using hxy
        rw [joinText_cons fun hx => by rw [ih]; exact hy hx,
          joinText_cons fun hx => by rw [hxs]; exact hy hx, ih, hxs, List.cons_append,
          List.cons_append]

theorem joinText_append_cons {x : Lexeme} (h : x.isText = false) (xs ys : List Lexeme) :
    joinText (xs ++ x :: ys) = joinText xs ++ x :: joinText ys := by
  have hx : (x :: ys).head?.any Lexeme.isText = false := h
  rw [joinText_append hx, joinText_cons fun hx => absurd hx (by simp [h])]

/-- The lexeme of a text, if there is any. -/
def textLexemes (cs : List Char) (l : Location) : List Lexeme :=
  if cs.isEmpty then [] else [⟨.text (.ofList cs), l⟩]

def textNodes (cs : List Char) (l : Location) : List Node :=
  if cs.isEmpty then [] else [.text (.ofList cs) l]

theorem Spells.loose {xs : List Lexeme} {ms : List Node} (h : Spells xs ms) (cs : List Char)
    (l : Location) (hx : xs.head?.any Lexeme.isText = false) :
    Spells (textLexemes cs l ++ xs) (textNodes cs l ++ ms) := by
  unfold textLexemes textNodes
  split
  · exact h
  · exact .text hx h

/-- The first step in loose text takes all that no step can begin in. -/
theorem IsLoose.first_step {c : Char} {cs rest : List Char} (h : IsLoose (c :: cs))
    (hr : EndsText rest) (l : Location) :
    ∃ ds es, cs = ds ++ es ∧ IsLoose es ∧
      Step.next l c (ds ++ (es ++ rest)) = .one ds.length (.text (.ofList (c :: ds))) := by
  let isPlain (c : Char) : Bool := c != '<' && c != '\x7b'
  have hcs : cs.takeWhile isPlain ++ cs.dropWhile isPlain = cs := List.takeWhile_append_dropWhile
  have hplain : ∀ d ∈ cs.takeWhile isPlain, isPlain d := fun _ hd => List.mem_takeWhile_imp hd
  have hstop : (cs.dropWhile isPlain ++ rest).head?.any isPlain = false := by
    cases hd : cs.dropWhile isPlain with
    | nil =>
      cases rest with
      | nil => rfl
      | cons d rest => obtain rfl | rfl := hr d rfl <;> rfl
    | cons d ds => simpa [hd] using List.head?_dropWhile_not isPlain cs
  generalize cs.takeWhile isPlain = ds at hcs hplain
  generalize cs.dropWhile isPlain = es at hcs hstop
  subst hcs
  have hes : IsLoose (c :: ds ++ es) := h
  refine ⟨ds, es, rfl, hes.of_append, ?_⟩
  rw [← List.append_assoc, h.next_eq, List.append_assoc, Step.next.text,
    Text.takeWhile_append_of_head hplain hstop, Step.plain, List.take_left]

/-- Text that may have a `<` in it makes several lexemes, which are joined to one. -/
theorem scans_loose (file : String) (rest : List Char) (hr : EndsText rest)
    (l : Location) {cs : List Char} (h : IsLoose cs) :
    ∃ xs l', Scans file l cs rest xs l' ∧ joinText xs = textLexemes cs l := by
  induction hn : cs.length using Nat.strongRecOn generalizing l cs with
  | ind n ih =>
    cases cs with
    | nil => exact ⟨[], l, by simp [Scans], rfl⟩
    | cons c cs =>
      obtain ⟨ds, es, rfl, hes, hnext⟩ := h.first_step hr l
      obtain ⟨l₁, h₁⟩ := scans_one file l _ hnext
      obtain ⟨xs, l₂, h₂, hxs⟩ := ih es.length (by simp at hn; omega) l₁ hes rfl
      refine ⟨_, l₂, h₁.append h₂, ?_⟩
      rw [List.singleton_append]
      cases es with
      | nil => rw [joinText_cons fun _ => by rw [hxs]; rfl, hxs, List.append_nil]; rfl
      | cons e es => rw [joinText_text hxs, ← String.ofList_append]; rfl

theorem listUnplaced_append (ns ms : List Node) :
    listUnplaced (ns ++ ms) = listUnplaced ns ++ listUnplaced ms := by
  induction ns with
  | nil => rfl
  | cons n ns ih => rw [List.cons_append, listUnplaced, ih, listUnplaced, List.cons_append]

theorem listUnplaced_textNodes (cs : List Char) (l : Location) :
    listUnplaced (textNodes cs l) = textNodes cs .unknown := by
  unfold textNodes
  split <;> rfl

section Elements

variable {tag : String} {as : List Attribute}

theorem isPlain_map_quoted (ha : ∀ a ∈ as, a.IsBraceless) : ∀ a ∈ as.map quoted, a.IsPlain := by
  intro b hb
  obtain ⟨a, hmem, rfl⟩ := List.mem_map.1 hb
  exact isPlain_quoted (ha a hmem)

end Elements

section Expressions

variable {code : String}

theorem toList_doubleBraced (code : String) :
    (doubleBraced code).toList =
      '\x7b' :: '\x7b' :: ' ' :: (code.toList ++ [' ', '\x7d', '\x7d']) := by
  simp [doubleBraced]

theorem render_doubleBraced (h : IsPlainCode code) (l : Location) :
    render (.expression code (doubleBraced code) l) = doubleBraced code := by
  have hcode : code.toList.flatMap Text.escapeHtmlChar = code.toList := by
    rw [List.flatMap_def, List.map_congr_left h.escaped, ← List.flatMap_def,
      List.flatMap_singleton']
  rw [render, Text.escapeHtml, ← String.toList_inj, String.toList_ofList, toList_doubleBraced]
  simp [hcode, Text.escapeHtmlChar]

/-- Double braces end at the first two closing ones. -/
theorem scans_inDoubleBraces {inside rest : List Char}
    (h : Text.cutAt? ['\x7d', '\x7d'] (inside ++ (['\x7d', '\x7d'] ++ rest)) = some (inside, rest))
    (file : String) (l : Location) :
    let cs := '\x7b' :: '\x7b' :: (inside ++ ['\x7d', '\x7d'])
    ∃ l', Scans file l cs rest [⟨.interpolation (codeOf inside) (.ofList cs), l⟩] l' := by
  have hnext : Step.next l '\x7b' ('\x7b' :: (inside ++ ['\x7d', '\x7d']) ++ rest) =
      Step.doubleBrace (inside ++ (['\x7d', '\x7d'] ++ rest)) := by
    rw [← List.append_assoc]
    rfl
  refine scans_one file l rest ?_
  rw [hnext, Step.doubleBrace, inDoubleBraces?, h]
  simp

theorem scans_doubleBraced (h : IsPlainCode code) (file : String) (l : Location)
    (rest : List Char) :
    ∃ l', Scans file l (doubleBraced code).toList rest
      [⟨.interpolation (codeOf (' ' :: (code.toList ++ [' ']))) (doubleBraced code), l⟩] l' := by
  have hinside : '\x7d' ∉ ' ' :: (code.toList ++ [' ']) := by simp [h.brace]
  have hs := @scans_inDoubleBraces _ rest (Text.cutAt?_pair hinside) file l
  rw [← String.ofList_toList (s := doubleBraced code), toList_doubleBraced, String.toList_ofList]
  simpa using hs

end Expressions

/-- In front of `rest`, the lexemes `xs` of `cs` spell the nodes `ms`, which are `ks` up to their
places. -/
structure Spelled (T : String → Prop) (file : String) (l : Location) (cs rest : List Char)
    (ks : List Node) (xs : List Lexeme) (ms : List Node) (l' : Location) : Prop where
  spells : Spells (joinText xs) ms
  unplaced : listUnplaced ms = ks
  pieces : ∀ m ∈ ms, m.Everywhere (IsPiece T)
  scans : Scans file l cs rest xs l'

theorem textNodes_pieces {T : String → Prop} (cs : List Char) (l : Location) :
    ∀ m ∈ textNodes cs l, m.Everywhere (IsPiece T) := by
  unfold textNodes
  split
  · exact List.forall_mem_nil _
  · exact List.forall_mem_singleton.2 (Node.everywhere_text.2 trivial)

/-- Text that is put off stands in front of what begins with something else. -/
theorem Spelled.behindText {T : String → Prop} {file : String} {l l₀ l' : Location}
    {cs ds rest : List Char} {ks : List Node} {ws xs : List Lexeme} {ms : List Node}
    (hx : xs.head?.any Lexeme.isText = false) (hws : joinText ws = textLexemes cs l)
    (h₀ : Scans file l cs (ds ++ rest) ws l₀) (h : Spelled T file l₀ ds rest ks xs ms l') :
    Spelled T file l (cs ++ ds) rest (textNodes cs .unknown ++ ks) (ws ++ xs)
      (textNodes cs l ++ ms) l' where
  spells := by
    rw [joinText_append hx, hws]
    exact h.spells.loose cs l (by rw [isText_joinText, hx])
  unplaced := by rw [listUnplaced_append, listUnplaced_textNodes, h.unplaced]
  pieces := List.forall_mem_append.2 ⟨textNodes_pieces cs l, h.pieces⟩
  scans := h₀.append h.scans

/-- Wherever it stands, `cs` is read as the nodes `ks`. -/
def IsReadAs (T : String → Prop) (cs : List Char) (ks : List Node) : Prop :=
  ∀ (file : String) (l : Location) (rest : List Char), EndsText rest →
    ∃ xs ms l', Spelled T file l cs rest ks xs ms l'

/-- What is read of `cs` is kept apart from text in front of it. -/
structure IsReadApart (T : String → Prop) (cs : List Char) (ks : List Node) : Prop where
  ends : EndsText cs
  read : ∀ (file : String) (l : Location) (rest : List Char), EndsText rest →
    ∃ xs ms l', xs.head?.any Lexeme.isText = false ∧ Spelled T file l cs rest ks xs ms l'

section Reading

variable {T : String → Prop} {tag code : String} {as : List Attribute} {cs ds rest : List Char}
  {js ks : List Node}

theorem EndsText.append (h : EndsText ds) (hr : EndsText rest) : EndsText (ds ++ rest) := by
  cases ds with
  | nil => exact hr
  | cons d ds => exact h

theorem IsReadApart.nil : IsReadApart T [] [] where
  ends := nofun
  read _ l _ _ := ⟨[], [], l, rfl, .nil, rfl, List.forall_mem_nil _, by simp [Scans]⟩

theorem IsReadApart.behindText (h : IsReadApart T ds ks) (hcs : IsLoose cs) :
    IsReadAs T (cs ++ ds) (textNodes cs .unknown ++ ks) := by
  intro file l rest hr
  obtain ⟨ws, l₀, h₀, hws⟩ := scans_loose file (ds ++ rest) (h.ends.append hr) l hcs
  obtain ⟨xs, ms, l', hx, hs⟩ := h.read file l₀ rest hr
  exact ⟨_, _, l', hs.behindText hx hws h₀⟩

namespace IsReadAs

theorem expression (h : IsReadAs T ds ks) (hc : IsPlainCode code) :
    let inside := codeOf (' ' :: (code.toList ++ [' ']))
    IsReadApart T ((doubleBraced code).toList ++ ds)
      (.expression inside (doubleBraced code) .unknown :: ks) where
  ends := by simp [toList_doubleBraced, EndsText]
  read file l rest hr := by
    obtain ⟨l₁, h₁⟩ := scans_doubleBraced hc file l (ds ++ rest)
    obtain ⟨xs, ms, l₂, h₂⟩ := h file l₁ rest hr
    let inside := codeOf (' ' :: (code.toList ++ [' ']))
    refine ⟨⟨.interpolation inside (doubleBraced code), l⟩ :: xs,
      .expression inside (doubleBraced code) l :: ms, l₂, rfl, ?_, ?_, ?_, h₁.append h₂.scans⟩
    · rw [joinText_cons fun ht => Bool.noConfusion ht]
      exact .interpolation h₂.spells
    · rw [listUnplaced, h₂.unplaced]
      rfl
    · exact List.forall_mem_cons.2 ⟨Node.everywhere_expression.2 trivial, h₂.pieces⟩

theorem void (h : IsReadAs T ds ks) (ht : IsElementName tag) (hT : T tag) (hv : isVoid tag)
    (ha : ∀ a ∈ as, a.IsBraceless) :
    IsReadApart T ('<' :: opening tag as ++ ds)
      (.element tag ((as.map quoted).map Attribute.unplaced) [] false .unknown :: ks) where
  ends := by simp [EndsText]
  read file l rest hr := by
    have hraw : ¬isRawText tag := fun hraw => by simp [isVoid_of_isRawText hraw] at hv
    obtain ⟨raw, l₁, hattrs, h₁⟩ :=
      scans_opening file l (ds ++ rest) ht.isTagName (isPlain_map_quoted ha) hraw
    rw [opening_quoted] at h₁
    obtain ⟨xs, ms, l₂, h₂⟩ := h file l₁ rest hr
    refine ⟨⟨.openTag tag raw false, l⟩ :: xs, .element tag (attributesOf raw) [] false l :: ms, l₂,
      rfl, ?_, ?_, ?_, h₁.append h₂.scans⟩
    · rw [joinText_cons fun ht => Bool.noConfusion ht]
      exact .void ht hv h₂.spells
    · simp [listUnplaced, Node.unplaced, h₂.unplaced,
        attributesOf_unplaced (isPlain_map_quoted ha) hattrs]
    · exact List.forall_mem_cons.2
        ⟨Node.everywhere_element.2 ⟨⟨hT, hraw⟩, List.forall_mem_nil _⟩, h₂.pieces⟩

theorem element (h : IsReadAs T ds ks) (hc : IsReadAs T cs js) (ht : IsElementName tag)
    (hT : T tag) (hv : ¬isVoid tag) (hraw : ¬isRawText tag) (ha : ∀ a ∈ as, a.IsBraceless) :
    IsReadApart T ('<' :: (opening tag as ++ cs) ++ closing tag ++ ds)
      (.element tag ((as.map quoted).map Attribute.unplaced) js false .unknown :: ks) where
  ends := by simp [EndsText]
  read file l rest hr := by
    obtain ⟨raw, l₁, hattrs, h₁⟩ := scans_opening file l (cs ++ (closing tag ++ (ds ++ rest)))
      ht.isTagName (isPlain_map_quoted ha) hraw
    rw [opening_quoted] at h₁
    obtain ⟨ys, ms', l₂, h₂⟩ := hc file l₁ (closing tag ++ (ds ++ rest))
      (by simp [closing, EndsText])
    obtain ⟨l₃, h₃⟩ := scans_closing file l₂ (ds ++ rest) ht.isTagName
    obtain ⟨xs, ms, l₄, h₄⟩ := h file l₃ rest hr
    refine ⟨⟨.openTag tag raw false, l⟩ :: (ys ++ ⟨.closeTag tag, l₂⟩ :: xs),
      .element tag (attributesOf raw) ms' false l :: ms, l₄, rfl, ?_, ?_, ?_, ?_⟩
    · rw [joinText_cons fun ht => Bool.noConfusion ht, joinText_append_cons rfl]
      exact .element ht hv h₂.spells h₄.spells
    · simp [listUnplaced, Node.unplaced, h₂.unplaced, h₄.unplaced,
        attributesOf_unplaced (isPlain_map_quoted ha) hattrs]
    · exact List.forall_mem_cons.2
        ⟨Node.everywhere_element.2 ⟨⟨hT, hraw⟩, h₂.pieces⟩, h₄.pieces⟩
    · simpa using ((h₁.append h₂.scans).append h₃).append h₄.scans

end IsReadAs

end Reading

/-- Wherever it stands behind the text `cs`, what is written for a fragment is read as the same
nodes. -/
theorem Fragment.isReadAs {T : String → Prop} {ns : List Node} (h : Fragment T ns) {cs : List Char}
    (hcs : IsLoose cs) : ∃ ks, IsReadAs T (cs ++ (renderAll ns).toList) ks := by
  -- Texts that follow one another become one text, so those in front of a node are put off.
  induction h generalizing cs with
  | nil => exact ⟨_, IsReadApart.nil.behindText hcs⟩
  | text hs _ ih =>
    rw [renderAll_cons, render, ← List.append_assoc]
    exact ih (hcs.append hs)
  | expression hc _ ih =>
    obtain ⟨ks, hks⟩ := ih .nil
    rw [renderAll_cons, render_doubleBraced hc]
    exact ⟨_, (hks.expression hc).behindText hcs⟩
  | void ht hT hv ha _ ih =>
    obtain ⟨ks, hks⟩ := ih .nil
    rw [renderAll_cons, render_void _ _ _ _ hv]
    exact ⟨_, (hks.void ht hT hv ha).behindText hcs⟩
  | element ht hT hv hraw ha _ _ ihc ih =>
    obtain ⟨js, hjs⟩ := ihc .nil
    obtain ⟨ks, hks⟩ := ih .nil
    rw [renderAll_cons, render_element _ _ _ _ hv]
    exact ⟨_, (hks.element hjs ht hT hv hraw ha).behindText hcs⟩

/-- Wherever it stands, a fragment is read as the nodes that are parsed from it alone. -/
theorem Fragment.spelled {T : String → Prop} {ns : List Node} (h : Fragment T ns) (file : String)
    (l : Location) {rest : List Char} (hr : EndsText rest) :
    ∃ xs ms l', Spelled T file l (renderAll ns).toList rest
      (listUnplaced (parse (renderAll ns) file).value) xs ms l' := by
  obtain ⟨ks, hks⟩ := h.isReadAs .nil
  obtain ⟨xs, ms, l', hs⟩ := hks file .start [] nofun
  have hscans : Scans file .start (renderAll ns).toList [] xs l' := hs.scans
  rw [parse_of_scans hs.spells hscans, Reported.value_pure, hs.unplaced]
  exact hks file l rest hr

end Markup

end PageCompiler
