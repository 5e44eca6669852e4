import PageCompiler.Proofs.Grammar
import PageCompiler.Proofs.Report

/-!
The parser agrees with the reader of the grammar, one token after the other. Main statement: where
the tokens of a source are found without a report, the rest of parsing it reports nothing just if
they are well nested.
-/

namespace PageCompiler.Markup

open Progress (continuesChain)

theorem toLower_of_asciiLower {name s : String} (h : asciiLower name = s) :
    name.toList.map Char.toLower = s.toList := by
  rw [← h, asciiLower, String.toList_ofList]

theorem isVoid_of_continuesChain {name : String} (h : continuesChain name) :
    isVoid name = false := by
  simp only [continuesChain, Bool.or_eq_true, decide_eq_true_eq] at h
  obtain h | h := h <;>
    simp [isVoid, voidTags, Text.eqIgnoringAsciiCase, toLower_of_asciiLower h]

def Opening.ofFrame : Frame → Opening
  | .tag name raw _ => .tag name raw
  | .chained name raw _ _ => .chained name raw
  | .loop .. => .loop
  | .branch .. => .branch
  | .alternate .. => .alternate

def Built.isChain : Built → Bool
  | .node _ => false
  | .chain _ => true

theorem controlFlowError_clean? (file message : String) (l : Location) :
    (controlFlowError file message l).clean? = none := by
  simp [controlFlowError]

theorem build_clean? (file name : String) (raw : List RawAttribute) (selfClosing : Bool)
    (children : List Node) (l : Location) :
    (build file name raw selfClosing children l).clean?.map Built.isChain =
      (Opening.tag name raw).continues? := by
  unfold build
  split
  · next h =>
    simp only [Opening.continues?, h]
    split
    · next hi hs => simp [HasItemAndSource, hi, hs, Built.isChain]
    · next hn =>
      have : ¬HasItemAndSource raw := by
        rintro ⟨hi, hs⟩
        exact hn _ _ (Option.some_get hi).symm (Option.some_get hs).symm
      simp [this, controlFlowError_clean?]
  · next h =>
    simp only [Opening.continues?, h]
    split
    · next hc => simp [HasCondition, hc, Built.isChain]
    · next hc => simp [HasCondition, hc, controlFlowError_clean?]
  · next h => simp [Opening.continues?, h, Built.isChain]
  · next h => simp [Opening.continues?, h, Built.isChain]
  · next h => simp [Opening.continues?, h, Built.isChain]
  · next hf hi hs hns hni =>
    split
    · next h => obtain h | h := h <;> simp [Opening.continues?, h]
    · next h =>
      have hend : (Opening.tag name raw).continues? = some false := by
        simp only [not_or] at h
        simp only [Opening.continues?]
        split <;> simp_all
      rw [hend]
      split <;> simp [Built.isChain]

namespace Progress

def reading (p : Progress) : Reading := ⟨p.stack.map fun f => .ofFrame f.1, p.chain.isSome⟩

theorem reading_place (nodes : List Node) (stack : List (Frame × List Node)) (b : Built) :
    (place nodes stack b).reading = ⟨stack.map fun f => .ofFrame f.1, b.isChain⟩ := by
  cases b <;> rfl

theorem continueChain_clean? (file name : String) (raw : List RawAttribute) (l : Location)
    (c : Chain) (body : List Node) :
    (continueChain file name raw l c body).clean?.map Built.isChain =
      (Opening.chained name raw).continues? := by
  simp only [continueChain, Opening.continues?, HasCondition]
  split
  · simp [Built.isChain]
  · split
    · next h => simp [h, Built.isChain]
    · next h => simp [h]

theorem finish_clean? (file : String) (frame : Frame) (body : List Node) :
    (finish file frame body).clean?.map Built.isChain = (Opening.ofFrame frame).continues? := by
  cases frame with
  | tag name raw l => exact build_clean? ..
  | chained name raw l chain => exact continueChain_clean? ..
  | loop item source l => rfl
  | branch complete condition l => rfl
  | alternate complete l => rfl

/-- What is placed behind the end of a frame or a tag. -/
theorem place_clean? {nodes : List Node} {stack : List (Frame × List Node)} {r : Reported Built}
    {o : Opening} (h : r.clean?.map Built.isChain = o.continues?) :
    (do return place nodes stack (← r) : Reported Progress).clean?.map reading =
      Reading.closed o (stack.map fun f => .ofFrame f.1) := by
  rw [Reading.closed, ← h]
  cases hr : r.clean? <;> simp [hr, reading_place]

theorem isClosedBy_ofFrame (name : String) (frame : Frame) :
    (Opening.ofFrame frame).isClosedBy name = frame.isClosedBy name := by
  cases frame <;> rfl

theorem reportUnclosed_clean? (file : String) (frame : Frame) :
    (reportUnclosed file frame).clean? = none := rfl

theorem takeBlock_clean? (file : String) (b : Block) (l : Location) (p : Progress) :
    (p.takeBlock file b l).clean?.map reading = Reading.nextBlock b p.reading.stack := by
  obtain ⟨nodes, _ | ⟨⟨frame, before⟩, outer⟩, chain⟩ := p
  · cases b <;> rfl
  · cases b <;> cases frame <;> rfl

/-- Only the innermost frame can be closed without a report. -/
theorem closeTo_clean? (file name : String) (nodes : List Node) (frame : Frame)
    (before : List Node) (outer : List (Frame × List Node)) :
    (closeTo file name nodes ((frame, before) :: outer)).clean?.map reading =
      if frame.isClosedBy name then
        Reading.closed (.ofFrame frame) (outer.map fun f => .ofFrame f.1)
      else none := by
  rw [closeTo]
  split
  · exact place_clean? (finish_clean? ..)
  · simp [reportUnclosed_clean?]

theorem take_clean? (file : String) (x : Lexeme) (p : Progress) (hp : p.chain = none) :
    (p.take file x).clean?.map reading = p.reading.next x.token := by
  obtain ⟨nodes, stack, chain⟩ := p
  obtain rfl : chain = none := hp
  obtain ⟨t, l⟩ := x
  cases t with
  | openTag name raw selfClosing =>
    simp only [take, Reading.next, reading, Option.isSome_none, Opening.ofTag, Bool.false_and,
      Bool.false_eq_true, if_false]
    split
    · exact place_clean? (build_clean? ..)
    · rfl
  | closeTag name =>
    cases stack with
    | nil => rfl
    | cons f outer =>
      obtain ⟨frame, before⟩ := f
      simp only [take, Reading.next, reading, List.map_cons, isClosedBy_ofFrame]
      split
      · exact closeTo_clean? ..
      · next h =>
        rw [List.any_cons, Bool.or_eq_true, not_or] at h
        simp [h.1]
  | block b => exact takeBlock_clean? ..
  | _ => rfl

@[simp] theorem stack_settle (p : Progress) : p.settle.stack = p.stack := rfl

/-- The parser agrees with what its state decides. -/
theorem step_clean? (file : String) (x : Lexeme) (p : Progress) :
    (p.step file x).clean?.map reading = p.reading.next x.token := by
  obtain ⟨nodes, stack, _ | c⟩ := p
  · exact take_clean? file x _ rfl
  have hsettle := take_clean? file x (settle ⟨nodes, stack, some c⟩) rfl
  obtain ⟨t, l⟩ := x
  cases t with
  | text s =>
    simp only [step]
    split
    · next h => simp [reading, Reading.next, h]
    · next h => rw [hsettle]; simp [reading, Reading.next, h]
  | openTag name raw selfClosing =>
    simp only [step]
    split
    · next h =>
      have ho : Opening.ofTag true name raw = .chained name raw := by simp [Opening.ofTag, h]
      split
      · next hs =>
        rw [place_clean? (continueChain_clean? ..)]
        simp [reading, Reading.next, ho, hs]
      · next hs => simp [reading, Reading.next, ho, hs, isVoid_of_continuesChain h, Opening.ofFrame]
    · next h =>
      rw [hsettle]
      simp [reading, Reading.next, Opening.ofTag, h]
  | _ => exact hsettle

theorem steps_clean? (file : String) (xs : List Lexeme) (p : Progress) :
    (xs.foldlM (step file) p).clean?.map reading =
      (xs.map Lexeme.token).foldlM Reading.next p.reading := by
  induction xs generalizing p with
  | nil => rfl
  | cons x xs ih =>
    simp only [List.foldlM_cons, List.map_cons, Reported.clean?_bind, ← step_clean? file x p]
    cases (p.step file x).clean? with
    | none => rfl
    | some q => exact ih q

theorem closeAll_clean? (file : String) (nodes : List Node) (stack : List (Frame × List Node)) :
    (closeAll file nodes stack).clean?.isSome ↔ stack = [] := by
  cases stack with
  | nil => simp [closeAll]
  | cons f outer => simp [closeAll, reportUnclosed_clean?]

end Progress

/-- Parsing accepts just what the grammar derives. -/
theorem parse_diagnostics_eq_nil_iff {source file : String}
    (h : (scan source file).diagnostics = []) :
    (parse source file).diagnostics = [] ↔
      WellNested ((scan source file).value.map Lexeme.token) := by
  have hs := Progress.steps_clean? file (scan source file).value .start
  rw [← isRead_iff, ← Reported.isSome_clean?, parse, Reported.clean?_bind,
    Reported.clean?_eq_some.2 ⟨h, rfl⟩, Option.bind_some, Reported.clean?_bind, IsRead]
  change _ ↔ ∃ r, List.foldlM Reading.next Progress.start.reading _ = some r ∧ _
  rw [← hs]
  cases ((scan source file).value.foldlM (Progress.step file) Progress.start).clean? with
  | none => simp
  | some p => simp [Progress.closeAll_clean?, Progress.reading]

/-- A closing tag of what is around a block does not end the block. -/
theorem parse_diagnostics_eq_nil_iff_crossing :
    let nested := "<p>\x7b% if a %\x7db\x7b% endif %\x7d</P>"
    let crossing := "<p>\x7b% if a %\x7d</p>\x7b% endif %\x7d"
    ((scan nested "page").diagnostics = [] ∧
      WellNested ((scan nested "page").value.map Lexeme.token)) ∧
    (scan crossing "page").diagnostics = [] ∧
      ¬WellNested ((scan crossing "page").value.map Lexeme.token) := by
  refine ⟨⟨?_, (parse_diagnostics_eq_nil_iff ?_).1 ?_⟩, ?_,
    fun h => absurd ((parse_diagnostics_eq_nil_iff ?_).2 h) ?_⟩
  all_goals decide +kernel

end PageCompiler.Markup
