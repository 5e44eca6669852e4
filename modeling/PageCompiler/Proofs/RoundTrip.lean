import Mathlib.Data.List.Chain
import PageCompiler.Markup.Parse
import PageCompiler.Proofs.Scanning

/-!
Parsing undoes rendering. The tokens that are scanned in what is written for canonical nodes spell
these nodes, up to their places, and from tokens that spell nodes just these are parsed.
-/

namespace PageCompiler.Markup

open Node (listUnplaced)

theorem partsAfter_of_notMem (literal : List Char) {cs : List Char} (h : '\x7b' ∉ cs) :
    partsAfter literal cs = textPart (literal ++ cs) := by
  induction cs generalizing literal with
  | nil => simp [partsAfter]
  | cons c cs ih =>
    rw [List.mem_cons, not_or] at h
    rw [partsAfter, if_neg (Ne.symm h.1), ih _ h.2, List.append_assoc, List.singleton_append]

theorem attributeText_of_notMem {s : String} (h : '\x7b' ∉ s.toList) :
    attributeText s = .static s := by
  have hparts : (splitParts s).any isExpressionPart = false := by
    rw [splitParts, partsAfter_of_notMem [] h, textPart]
    split <;> rfl
  simp [attributeText, hparts]

/-- What an attribute's value stands for. -/
def readValue : Option RawValue → AttributeValue
  | none => .bare
  | some (.braced code) => .expression code
  | some (.text text) => attributeText text

theorem readValue_rawValue {v : AttributeValue} (h : v.IsPlain) :
    readValue (rawValue v) = v := by
  cases v with
  | bare => rfl
  | static text => exact attributeText_of_notMem h.2
  | interpolated parts => exact h.elim
  | expression code => exact h.elim

theorem attributesOf_unplaced {raw : List RawAttribute} {as : List Attribute}
    (ha : ∀ a ∈ as, a.IsPlain) (h : Found raw as) :
    (attributesOf raw).map Attribute.unplaced = as.map Attribute.unplaced := by
  let read (p : String × Option RawValue) : Attribute := ⟨p.1, readValue p.2, .unknown⟩
  calc (attributesOf raw).map Attribute.unplaced
      = (raw.map fun r => (r.name, r.value)).map read := by
        simp only [attributesOf, List.map_map]
        rfl
    _ = (as.map fun a => (a.name, rawValue a.value)).map read := by rw [h]
    _ = as.map Attribute.unplaced := by
        rw [List.map_map]
        refine List.map_congr_left fun a hm => ?_
        simp [read, readValue_rawValue (ha a hm).value, Attribute.unplaced]

def Lexeme.isText (x : Lexeme) : Bool :=
  match x.token with
  | .text _ => true
  | _ => false

/-- The lexemes of nodes. -/
inductive Spells : List Lexeme → List Node → Prop
  | nil : Spells [] []
  | text : xs.head?.any Lexeme.isText = false → Spells xs ns →
    Spells (⟨.text s, l⟩ :: xs) (.text s l :: ns)
  | rawText : Spells [⟨.rawText s, l⟩] [.text s l]
  | comment : Spells xs ns → Spells (⟨.comment s, l⟩ :: xs) (.comment s l :: ns)
  | interpolation : Spells xs ns →
    Spells (⟨.interpolation code raw, l⟩ :: xs) (.expression code raw l :: ns)
  | void : IsElementName tag → isVoid tag → Spells xs ns →
    Spells (⟨.openTag tag raw false, l⟩ :: xs)
      (.element tag (attributesOf raw) [] false l :: ns)
  | element : IsElementName tag → ¬isVoid tag → Spells xs children → Spells ys ns →
    Spells (⟨.openTag tag raw false, l⟩ :: (xs ++ ⟨.closeTag tag, l'⟩ :: ys))
      (.element tag (attributesOf raw) children false l :: ns)

/-- No text stands directly behind another. -/
def Separate (xs : List Lexeme) : Prop := xs.IsChain fun x y => ¬(x.isText ∧ y.isText)

theorem joinText_of_separate {xs : List Lexeme} (h : Separate xs) : joinText xs = xs := by
  induction xs with
  | nil => rfl
  | cons x xs ih =>
    obtain ⟨hx, hxs⟩ := List.isChain_cons.1 h
    unfold joinText
    rw [ih hxs]
    split
    · exact absurd ⟨rfl, rfl⟩ (hx _ rfl)
    · rfl

theorem Spells.separate {xs : List Lexeme} {ns : List Node} (h : Spells xs ns) : Separate xs := by
  induction h with
  | nil => exact .nil
  | text hx _ ih =>
    refine List.isChain_cons.2 ⟨fun y hy hxy => ?_, ih⟩
    rw [Option.mem_def.1 hy] at hx
    exact absurd hxy.2 (by simpa using hx)
  | rawText => exact .singleton _
  | comment _ ih | interpolation _ ih =>
    exact List.isChain_cons.2 ⟨fun _ _ h => Bool.noConfusion h.1, ih⟩
  | void _ _ _ ih => exact List.isChain_cons.2 ⟨fun _ _ h => Bool.noConfusion h.1, ih⟩
  | element _ _ _ _ ih ih' =>
    refine List.isChain_cons.2 ⟨fun _ _ h => Bool.noConfusion h.1, ?_⟩
    refine List.isChain_append.2 ⟨ih, ?_, ?_⟩
    · exact List.isChain_cons.2 ⟨fun _ _ h => Bool.noConfusion h.1, ih'⟩
    · rintro x - y hy ⟨-, h⟩
      cases hy
      cases h

theorem isUpper_of_isLower {c : Char} (h : c.isLower) : c.isUpper = false := by
  change (decide (c.val ≥ 'a'.val) && decide (c.val ≤ 'z'.val)) = true at h
  change decide (c.val ≥ 'A'.val ∧ c.val ≤ 'Z'.val) = false
  grind

theorem build_element {tag : String} (ht : IsElementName tag) (file : String)
    (raw : List RawAttribute) (children : List Node) (l : Location) :
    build file tag raw false children l =
      pure (.node (.element tag (attributesOf raw) children false l)) := by
  obtain ⟨c, cs, hc, hlower⟩ := ht.exists_cons
  have hcomponent : isComponentTag tag = false := by
    simp [isComponentTag, hc, isUpper_of_isLower hlower]
  have ho := ht.ordinary
  simp only [List.mem_cons, List.not_mem_nil, or_false, not_or] at ho
  unfold build
  split <;> simp_all

section Tags

variable {file tag : String} {raw : List RawAttribute} {nodes : List Node}
  {stack : List (Frame × List Node)}

theorem step_openTag (hv : ¬isVoid tag) (l : Location) :
    Progress.step file ⟨nodes, stack, none⟩ ⟨.openTag tag raw false, l⟩ =
      pure ⟨[], (.tag tag raw l, nodes) :: stack, none⟩ := by
  simp [Progress.step, Progress.take, hv, Progress.openFrame]

/-- The innermost tag is closed by its name, and built from what stands in it. -/
theorem step_closeTag (ms : List Node) (l l' : Location) :
    Progress.step file ⟨ms.reverse, (.tag tag raw l, nodes) :: stack, none⟩ ⟨.closeTag tag, l'⟩ =
      Progress.place nodes stack <$> build file tag raw false ms l := by
  simp [Progress.step, Progress.take, Frame.isClosedBy, Text.eqIgnoringAsciiCase,
    Progress.closeTo, Progress.finish]

end Tags

/-- Nodes are parsed from their lexemes, wherever no conditional of tags may go on. -/
theorem Spells.foldlM {xs : List Lexeme} {ns : List Node} (h : Spells xs ns) (file : String)
    (nodes : List Node) (stack : List (Frame × List Node)) :
    xs.foldlM (Progress.step file) ⟨nodes, stack, none⟩ =
      pure ⟨ns.reverse ++ nodes, stack, none⟩ := by
  induction h generalizing nodes stack with
  | nil => rfl
  | @text xs ns s l _ _ ih =>
    have hstep : Progress.step file ⟨nodes, stack, none⟩ ⟨.text s, l⟩ =
        pure ⟨.text s l :: nodes, stack, none⟩ := rfl
    rw [List.foldlM_cons, hstep, pure_bind, ih]
    simp
  | rawText => rfl
  | @comment xs ns s l _ ih =>
    have hstep : Progress.step file ⟨nodes, stack, none⟩ ⟨.comment s, l⟩ =
        pure ⟨.comment s l :: nodes, stack, none⟩ := rfl
    rw [List.foldlM_cons, hstep, pure_bind, ih]
    simp
  | @interpolation xs ns code raw l _ ih =>
    have hstep : Progress.step file ⟨nodes, stack, none⟩ ⟨.interpolation code raw, l⟩ =
        pure ⟨.expression code raw l :: nodes, stack, none⟩ := rfl
    rw [List.foldlM_cons, hstep, pure_bind, ih]
    simp
  | @void tag xs ns raw l ht hv _ ih =>
    have hstep : Progress.step file ⟨nodes, stack, none⟩ ⟨.openTag tag raw false, l⟩ =
        pure ⟨.element tag (attributesOf raw) [] false l :: nodes, stack, none⟩ := by
      simp [Progress.step, Progress.take, hv, build_element ht, Progress.place]
    rw [List.foldlM_cons, hstep, pure_bind, ih]
    simp
  | @element tag xs children ys ns raw l l' ht hv _ _ ih ih' =>
    rw [List.foldlM_cons, step_openTag hv, pure_bind, List.foldlM_append, ih, pure_bind,
      List.foldlM_cons, List.append_nil, step_closeTag, build_element ht, map_pure, pure_bind,
      Progress.place, ih']
    simp

theorem IsRawContent.not_isInfix {tag : String} {children : List Node}
    (h : IsRawContent tag children) :
    ¬closingMark tag <:+: (renderAll children).toList.map Char.toLower := by
  cases h with
  | nil => simp [renderAll, closingMark]
  | text _ h => simpa [renderAll, render] using h

theorem IsRawContent.spelled {tag : String} {children : List Node}
    (h : IsRawContent tag children) (l : Location) :
    ∃ ms, Spells (rawContent (renderAll children) l) ms ∧
      listUnplaced ms = listUnplaced children := by
  cases h with
  | nil => exact ⟨[], .nil, rfl⟩
  | @text s _ hs =>
    refine ⟨[.text s l], ?_, rfl⟩
    simpa [rawContent, renderAll, render, hs] using Spells.rawText

/-- The lexemes of what is written spell the same nodes at other places. -/
theorem Canonical.scanned {ns : List Node} (h : Canonical ns) (file : String) (l : Location)
    (rest : List Char) (hr : ∀ d ∈ rest.head?, d = '<') :
    ∃ xs ms l', Spells xs ms ∧ listUnplaced ms = listUnplaced ns ∧
      xs.head?.any Lexeme.isText = ns.head?.any Node.isText ∧
      Scans file l (renderAll ns).toList rest xs l' := by
  induction h generalizing l rest with
  | nil => exact ⟨[], [], l, .nil, rfl, rfl, by simp [Scans, renderAll]⟩
  | @text s ns lt hs hns h ih =>
    -- The next node is no text, so the text ends where it was put in.
    obtain ⟨l₁, h₁⟩ := scans_text file l ((renderAll ns).toList ++ rest) hs
      (h.head_renderAll hns hr)
    obtain ⟨xs, ms, l₂, hsp, hun, hhead, h₂⟩ := ih l₁ rest hr
    refine ⟨⟨.text s, l⟩ :: xs, .text s l :: ms, l₂, .text (hhead.trans hns) hsp, ?_, rfl, ?_⟩
    · simp [listUnplaced, Node.unplaced, hun]
    · rw [renderAll_cons, render]
      exact h₁.append h₂
  | @comment ns s lt hs h ih =>
    have hend : ¬['-', '-', '>'] <:+: s.toList :=
      fun h => hs ((List.prefix_append ['-', '-'] ['>']).isInfix.trans h)
    obtain ⟨l₁, h₁⟩ := scans_comment file l ((renderAll ns).toList ++ rest) hend
    obtain ⟨xs, ms, l₂, hsp, hun, -, h₂⟩ := ih l₁ rest hr
    refine ⟨⟨.comment s, l⟩ :: xs, .comment s l :: ms, l₂, .comment hsp, ?_, rfl, ?_⟩
    · simp [listUnplaced, Node.unplaced, hun]
    · rw [renderAll_cons, render_comment hs]
      exact h₁.append h₂
  | @void tag as ns lt ht hv ha h ih =>
    have hraw : ¬isRawText tag := fun hraw => by simp [isVoid_of_isRawText hraw] at hv
    obtain ⟨raw, l₁, hattrs, h₁⟩ :=
      scans_opening file l ((renderAll ns).toList ++ rest) ht.isTagName ha hraw
    obtain ⟨xs, ms, l₂, hsp, hun, -, h₂⟩ := ih l₁ rest hr
    refine ⟨⟨.openTag tag raw false, l⟩ :: xs, .element tag (attributesOf raw) [] false l :: ms, l₂,
      .void ht hv hsp, ?_, rfl, ?_⟩
    · simp [listUnplaced, Node.unplaced, hun, attributesOf_unplaced ha hattrs]
    · rw [renderAll_cons, render_void _ _ _ _ hv]
      exact h₁.append h₂
  | @raw tag as children ns lt ht hraw ha hc h ih =>
    have hv : ¬isVoid tag := by simp [isVoid_of_isRawText hraw]
    obtain ⟨raw, l₀, l₁, hattrs, h₁⟩ :=
      scans_rawOpening file l ((renderAll ns).toList ++ rest) ht.isTagName ha hraw hc.not_isInfix
    obtain ⟨ks, hys, hks⟩ := hc.spelled l₀
    obtain ⟨l₂, h₂⟩ := scans_closing file l₁ ((renderAll ns).toList ++ rest) ht.isTagName
    obtain ⟨xs, ms, l₃, hsp, hun, -, h₃⟩ := ih l₂ rest hr
    refine ⟨⟨.openTag tag raw false, l⟩ ::
        (rawContent (renderAll children) l₀ ++ ⟨.closeTag tag, l₁⟩ :: xs),
      .element tag (attributesOf raw) ks false l :: ms, l₃, .element ht hv hys hsp, ?_, rfl, ?_⟩
    · simp [listUnplaced, Node.unplaced, hun, hks, attributesOf_unplaced ha hattrs]
    · rw [renderAll_cons, render_element _ _ _ _ hv]
      simpa using (h₁.append h₂).append h₃
  | @element tag as children ns lt ht hv hraw ha hc h ihc ih =>
    obtain ⟨raw, l₁, hattrs, h₁⟩ := scans_opening file l
      ((renderAll children).toList ++ (closing tag ++ ((renderAll ns).toList ++ rest)))
      ht.isTagName ha hraw
    obtain ⟨ys, ks, l₂, hys, hks, -, h₂⟩ := ihc l₁
      (closing tag ++ ((renderAll ns).toList ++ rest)) (by simp [closing])
    obtain ⟨l₃, h₃⟩ := scans_closing file l₂ ((renderAll ns).toList ++ rest) ht.isTagName
    obtain ⟨xs, ms, l₄, hsp, hun, -, h₄⟩ := ih l₃ rest hr
    refine ⟨⟨.openTag tag raw false, l⟩ :: (ys ++ ⟨.closeTag tag, l₂⟩ :: xs),
      .element tag (attributesOf raw) ks false l :: ms, l₄, .element ht hv hys hsp, ?_, rfl, ?_⟩
    · simp [listUnplaced, Node.unplaced, hun, hks, attributesOf_unplaced ha hattrs]
    · rw [renderAll_cons, render_element _ _ _ _ hv]
      simpa using ((h₁.append h₂).append h₃).append h₄

/-- A source is parsed to the nodes that its lexemes spell. -/
theorem parse_of_scans {source file : String} {xs : List Lexeme} {ns : List Node} {l : Location}
    (hsp : Spells (joinText xs) ns) (hs : Scans file .start source.toList [] xs l) :
    parse source file = pure ns := by
  have hscan : scan source file = pure (joinText xs) := by
    rw [Scans, List.append_nil] at hs
    rw [scan, hs, steps, map_pure, map_pure, List.append_nil]
  rw [parse, hscan, pure_bind, Progress.start, hsp.foldlM, pure_bind]
  simp [Progress.settle, Progress.settled, Progress.closeAll]

/-- Parsing undoes rendering: nothing is reported, and the nodes are the same up to their places. -/
theorem parse_renderAll {ns : List Node} (h : Canonical ns) (file : String) :
    (parse (renderAll ns) file).diagnostics = [] ∧
      listUnplaced (parse (renderAll ns) file).value = listUnplaced ns := by
  obtain ⟨xs, ms, l, hsp, hun, -, hs⟩ := h.scanned file .start [] nofun
  have hspells : Spells (joinText xs) ms := by rwa [joinText_of_separate hsp.separate]
  rw [parse_of_scans hspells hs]
  exact ⟨rfl, hun⟩

theorem parse_renderAll_script :
    let script := Node.element "script" [.new "id" (.static "a>b")] [.newText "x</y"] false .unknown
    let ns := [.newText "1 > 0", script]
    Canonical ns ∧ (parse (renderAll ns) "page").diagnostics = [] ∧
      listUnplaced (parse (renderAll ns) "page").value = ns := by
  intro script ns
  have hname : IsElementName "script" :=
    ⟨by decide +kernel, by simp [Step.endsTagName, Text.isBlank], by decide +kernel⟩
  have hid : (Attribute.new "id" (.static "a>b")).IsPlain :=
    ⟨by decide +kernel, by simp [Attribute.new, Step.endsAttributeName, Text.isBlank],
      ⟨by decide +kernel, by decide +kernel⟩⟩
  have hraw : IsRawContent "script" [.newText "x</y"] :=
    .text (by decide +kernel) (by decide +kernel)
  have h : Canonical ns :=
    .text ⟨by decide +kernel, by simp⟩ rfl
      (.raw hname (by decide +kernel) (List.forall_mem_singleton.2 hid) hraw .nil)
  exact ⟨h, parse_renderAll h "page"⟩

end PageCompiler.Markup
