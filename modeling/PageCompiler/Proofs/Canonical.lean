import PageCompiler.Markup.Render
import PageCompiler.Markup.Scan
import PageCompiler.Proofs.Search

/-!
Nodes that are read from markup as they are written in it, up to the places where they stand, and
how they are written.
-/

namespace PageCompiler

open Markup (isVoid isRawText asciiLower)
open Markup.Step (endsTagName endsAttributeName)

/-- Plain values hold no expression, and no quote that would have to be escaped. -/
def AttributeValue.IsPlain : AttributeValue → Prop
  | .bare => True
  | .static text => '"' ∉ text.toList ∧ '\x7b' ∉ text.toList
  | _ => False

structure Attribute.IsPlain (a : Attribute) : Prop where
  name_ne : a.name ≠ ""
  name : ∀ c ∈ a.name.toList, ¬endsAttributeName c
  value : a.value.IsPlain

def Attribute.unplaced (a : Attribute) : Attribute := { a with location := .unknown }

theorem Attribute.IsPlain.exists_cons {a : Attribute} (h : a.IsPlain) :
    ∃ c more, a.name.toList = c :: more ∧ ¬endsAttributeName c ∧
      ∀ d ∈ more, ¬endsAttributeName d := by
  obtain ⟨c, more, hname⟩ := List.exists_cons_of_ne_nil (mt String.toList_eq_nil_iff.1 h.name_ne)
  obtain ⟨hc, hm⟩ := List.forall_mem_cons.1 (hname ▸ h.name)
  exact ⟨c, more, hname, hc, hm⟩

namespace Node

def isText : Node → Bool
  | text .. => true
  | _ => false

mutual

/-- A node without its places. -/
def unplaced : Node → Node
  | element tag as children selfClosing _ =>
    element tag (as.map Attribute.unplaced) (listUnplaced children) selfClosing .unknown
  | text s _ => text s .unknown
  | expression code raw _ => expression code raw .unknown
  | comment s _ => comment s .unknown
  | doctype s _ => doctype s .unknown
  | component name as children _ =>
    component name (as.map Attribute.unplaced) (listUnplaced children) .unknown
  | slot name fallback _ => slot name (listUnplaced fallback) .unknown
  | loop item source body d _ => loop item source (listUnplaced body) d .unknown
  | conditional branches alternate d _ =>
    conditional (branchesUnplaced branches)
      (match alternate with
        | some nodes => some (listUnplaced nodes)
        | none => none) d .unknown
  | island st sc children _ => island st sc (listUnplaced children) .unknown
  | isolated c bs children _ => isolated c bs (listUnplaced children) .unknown
  | callerScope children => callerScope (listUnplaced children)
  | error p message _ => error p message .unknown
termination_by structural n => n

def listUnplaced : List Node → List Node
  | [] => []
  | n :: ns => unplaced n :: listUnplaced ns
termination_by structural ns => ns

def branchesUnplaced : List (String × List Node) → List (String × List Node)
  | [] => []
  | (condition, body) :: rest => (condition, listUnplaced body) :: branchesUnplaced rest
termination_by structural bs => bs

end

end Node

namespace Markup

/-- A name that a tag can have, whatever the tag stands for. -/
structure IsTagName (tag : String) : Prop where
  head : tag.toList.head?.any Char.isAlpha
  chars : ∀ c ∈ tag.toList, ¬endsTagName c

/-- The name of an element that is nothing else to the compiler. -/
structure IsElementName (tag : String) : Prop where
  head : tag.toList.head?.any Char.isLower
  chars : ∀ c ∈ tag.toList, ¬endsTagName c
  ordinary : asciiLower tag ∉ ["for", "if", "elif", "else", "slot", "n:slot", "n:island"]

structure IsPlainText (s : String) : Prop where
  ne_empty : s ≠ ""
  chars : ∀ c ∈ s.toList, c ≠ '<' ∧ c ≠ '\x7b'

/-- What begins a closing tag, in lower case. -/
def closingMark (tag : String) : List Char := '<' :: '/' :: tag.toList.map Char.toLower

/-- What may stand in an element whose content is raw text. -/
inductive IsRawContent (tag : String) : List Node → Prop
  | nil : IsRawContent tag []
  | text : s ≠ "" → ¬closingMark tag <:+: s.toList.map Char.toLower →
    IsRawContent tag [.text s l]

/-- Lists of nodes that are read again as they are written. Void elements and elements with raw
text are those whose name is such in any case of letters. -/
inductive Canonical : List Node → Prop
  | nil : Canonical []
  | text : IsPlainText s → ns.head?.any Node.isText = false → Canonical ns →
    Canonical (.text s l :: ns)
  | comment : ¬['-', '-'] <:+: s.toList → Canonical ns → Canonical (.comment s l :: ns)
  | void : IsElementName tag → isVoid tag → (∀ a ∈ as, a.IsPlain) → Canonical ns →
    Canonical (.element tag as [] false l :: ns)
  | raw : IsElementName tag → isRawText tag → (∀ a ∈ as, a.IsPlain) →
    IsRawContent tag children → Canonical ns →
    Canonical (.element tag as children false l :: ns)
  | element : IsElementName tag → ¬isVoid tag → ¬isRawText tag → (∀ a ∈ as, a.IsPlain) →
    Canonical children → Canonical ns → Canonical (.element tag as children false l :: ns)

section Names

variable {tag : String}

theorem IsElementName.exists_cons (h : IsElementName tag) :
    ∃ c cs, tag.toList = c :: cs ∧ c.isLower := by
  cases ht : tag.toList with
  | nil => simpa [ht] using h.head
  | cons c cs => exact ⟨c, cs, rfl, by simpa [ht] using h.head⟩

theorem isAlpha_of_isLower {c : Char} (h : c.isLower) : c.isAlpha := by
  change (c.isUpper || c.isLower) = true
  rw [h, Bool.or_true]

theorem IsElementName.isTagName (h : IsElementName tag) : IsTagName tag := by
  obtain ⟨c, cs, ht, hc⟩ := h.exists_cons
  exact ⟨by simp [ht, isAlpha_of_isLower hc], h.chars⟩

theorem IsTagName.exists_cons (h : IsTagName tag) :
    ∃ c cs, tag.toList = c :: cs ∧ c.isAlpha := by
  cases ht : tag.toList with
  | nil => simpa [ht] using h.head
  | cons c cs => exact ⟨c, cs, rfl, by simpa [ht] using h.head⟩

theorem exists_rawTextTag (h : isRawText tag) :
    ∃ t ∈ rawTextTags, tag.toList.map Char.toLower = t.toList.map Char.toLower := by
  simpa only [isRawText, List.any_eq_true, Text.eqIgnoringAsciiCase, beq_iff_eq] using h

theorem isVoid_of_isRawText (h : isRawText tag) : isVoid tag = false := by
  obtain ⟨t, ht, hlower⟩ := exists_rawTextTag h
  have hvoid : ∀ t ∈ rawTextTags, isVoid t = false := by decide +kernel
  have heq : Text.eqIgnoringAsciiCase tag = Text.eqIgnoringAsciiCase t := by
    funext s
    rw [Text.eqIgnoringAsciiCase, hlower]
    rfl
  rw [← hvoid t ht, isVoid, heq]
  rfl

end Names

/-! ### How they are written -/

/-- The value of an attribute behind its name. -/
def valueChars : AttributeValue → List Char
  | .static text => '=' :: '"' :: (text.toList ++ ['"'])
  | _ => []

theorem escapeQuotes_of_notMem {s : String} (h : '"' ∉ s.toList) : Text.escapeQuotes s = s := by
  have (cs : List Char) (h : '"' ∉ cs) :
      cs.flatMap (fun c => if c = '"' then "&quot;".toList else [c]) = cs := by
    induction cs with
    | nil => rfl
    | cons c cs ih =>
      rw [List.mem_cons, not_or] at h
      rw [List.flatMap_cons, ih h.2, if_neg (Ne.symm h.1), List.singleton_append]
  rw [Text.escapeQuotes, this _ h, String.ofList_toList]

theorem toList_renderAttribute {a : Attribute} (h : a.IsPlain) :
    (renderAttribute a).toList = ' ' :: (a.name.toList ++ valueChars a.value) := by
  obtain ⟨name, value, l⟩ := a
  have hv := h.value
  cases value with
  | bare => simp [renderAttribute, valueChars]
  | static text => simp [renderAttribute, valueChars, escapeQuotes_of_notMem hv.1]
  | interpolated parts => exact hv.elim
  | expression code => exact hv.elim

theorem toList_renderAttributes_cons (a : Attribute) (as : List Attribute) :
    (renderAttributes (a :: as)).toList =
      (renderAttribute a).toList ++ (renderAttributes as).toList := by
  rw [renderAttributes, List.map_cons, String.join_cons, String.toList_append]
  rfl

/-- What stands behind the `<` of an opening tag. -/
def opening (tag : String) (as : List Attribute) : List Char :=
  tag.toList ++ ((renderAttributes as).toList ++ ['>'])

/-- A closing tag. -/
def closing (tag : String) : List Char := '<' :: '/' :: (tag.toList ++ ['>'])

theorem render_comment {s : String} (hs : ¬['-', '-'] <:+: s.toList) (l : Location) :
    (render (.comment s l)).toList = '<' :: '!' :: '-' :: '-' :: (s.toList ++ ['-', '-', '>']) := by
  have hreplaced : Text.replaced "--" "- -" s = s := by
    have : Text.replaceAll "--".toList "- -".toList s.toList = s.toList :=
      Text.replaceAll_of_not_isInfix _ hs
    rw [Text.replaced, this, String.ofList_toList]
  simp [render, hreplaced]

section Elements

variable {tag : String} (as : List Attribute) (children : List Node) (selfClosing : Bool)
  (l : Location)

theorem render_void (hv : isVoid tag) :
    (render (.element tag as children selfClosing l)).toList = '<' :: opening tag as := by
  simp [render, hv, opening]

theorem render_element (hv : ¬isVoid tag) :
    (render (.element tag as children selfClosing l)).toList =
      '<' :: (opening tag as ++ (renderAll children).toList) ++ closing tag := by
  simp [render, hv, opening, closing]

end Elements

theorem renderAll_cons (n : Node) (ns : List Node) :
    (renderAll (n :: ns)).toList = (render n).toList ++ (renderAll ns).toList := by
  rw [renderAll, String.toList_append]

theorem Canonical.head_renderAll {ns : List Node} (h : Canonical ns)
    (ht : ns.head?.any Node.isText = false) {rest : List Char} (hr : ∀ d ∈ rest.head?, d = '<') :
    ∀ d ∈ ((renderAll ns).toList ++ rest).head?, d = '<' := by
  cases h with
  | nil => simpa [renderAll] using hr
  | text => simp [Node.isText] at ht
  | comment | void | raw | element => simp [renderAll_cons, render]

end Markup

end PageCompiler
