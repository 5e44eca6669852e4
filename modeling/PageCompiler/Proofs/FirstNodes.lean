import PageCompiler.Proofs.RoundTrip

/-!
What comes first in a template. Main statement: what has been read outside of all frames is not
touched by what follows, so that the first lexemes make the first nodes.
-/

namespace PageCompiler.Markup

namespace Progress

/-- The nodes in front of the outermost frame, or those read if there is none; last first. -/
def rootNodes (nodes : List Node) : List (Frame × List Node) → List Node
  | [] => nodes
  | (_, before) :: outer => rootNodes before outer

abbrev root (p : Progress) : List Node := rootNodes p.nodes p.stack

section Root

variable {nodes ms : List Node} {file : String} {p : Progress}

theorem rootNodes_suffix (h : nodes <:+ ms) (stack : List (Frame × List Node)) :
    rootNodes nodes stack <:+ rootNodes ms stack := by
  cases stack with
  | nil => exact h
  | cons f outer => exact List.suffix_rfl

theorem suffix_settle (p : Progress) : p.root <:+ p.settle.root := by
  refine rootNodes_suffix ?_ p.stack
  rw [settle]
  cases p.chain with
  | none => exact List.suffix_rfl
  | some c => exact (List.suffix_cons _ p.nodes).trans (List.suffix_append c.blanks _)

theorem suffix_place (nodes : List Node) (stack : List (Frame × List Node)) (b : Built) :
    rootNodes nodes stack <:+ (place nodes stack b).root := by
  cases b with
  | node n => exact rootNodes_suffix (List.suffix_cons n nodes) stack
  | chain c => exact List.suffix_rfl

theorem stack_place (nodes : List Node) (stack : List (Frame × List Node)) (b : Built) :
    (place nodes stack b).stack = stack := by cases b <;> rfl

/-- Behind a frame that has been built, what was at the root is still there. -/
theorem suffix_built (before : List Node) (outer : List (Frame × List Node)) (b : Built) :
    rootNodes before outer <:+ rootNodes (place before outer b).settle.nodes outer := by
  have h := (suffix_place before outer b).trans (suffix_settle (place before outer b))
  have hstack : (place before outer b).settle.stack = outer := stack_place before outer b
  rwa [root, hstack] at h

theorem suffix_closeTo (file name : String) (nodes : List Node)
    (stack : List (Frame × List Node)) :
    rootNodes nodes stack <:+ (closeTo file name nodes stack).value.root := by
  induction stack generalizing nodes with
  | nil => exact List.suffix_rfl
  | cons f outer ih =>
    rw [closeTo]
    split
    · exact suffix_place f.2 outer _
    · exact (suffix_built f.2 outer _).trans (ih _)

theorem prefix_closeAll (file : String) (nodes : List Node) (stack : List (Frame × List Node)) :
    (rootNodes nodes stack).reverse <+: (closeAll file nodes stack).value := by
  induction stack generalizing nodes with
  | nil => exact List.prefix_rfl
  | cons f outer ih =>
    rw [closeAll]
    exact (List.reverse_prefix.2 (suffix_built f.2 outer _)).trans (ih _)

theorem root_of_stack {frame : Frame} {before : List Node} {outer : List (Frame × List Node)}
    (h : p.stack = (frame, before) :: outer) : p.root = rootNodes before outer := by
  rw [root, h, rootNodes]

theorem suffix_takeBlock (file : String) (b : Block) (l : Location) (p : Progress) :
    p.root <:+ (p.takeBlock file b l).value.root := by
  unfold takeBlock
  split
  · exact List.suffix_rfl
  · exact List.suffix_rfl
  · next hs => exact root_of_stack hs ▸ suffix_place ..
  · next hs => exact root_of_stack hs ▸ List.suffix_rfl
  · next hs => exact root_of_stack hs ▸ List.suffix_rfl
  · next hs => exact root_of_stack hs ▸ suffix_place ..
  · next hs => exact root_of_stack hs ▸ suffix_place ..
  · exact List.suffix_rfl

theorem suffix_take (file : String) (x : Lexeme) (p : Progress) :
    p.root <:+ (p.take file x).value.root := by
  have hadd (n : Node) : p.root <:+ (p.add n).root :=
    rootNodes_suffix (List.suffix_cons n p.nodes) p.stack
  unfold take
  dsimp only
  split
  · exact hadd _
  · exact hadd _
  · exact hadd _
  · exact hadd _
  · exact hadd _
  · split
    · exact suffix_place ..
    · exact List.suffix_rfl
  · split
    · exact suffix_closeTo ..
    · exact List.suffix_rfl
  · exact suffix_takeBlock ..

/-- A step leaves at the root what stands there. -/
theorem suffix_step (file : String) (p : Progress) (x : Lexeme) :
    p.root <:+ (p.step file x).value.root := by
  have htake := (suffix_settle p).trans (suffix_take file x p.settle)
  unfold step
  split
  · exact suffix_take file x p
  · split
    · exact List.suffix_rfl
    · exact htake
  · split
    · split
      · exact suffix_place ..
      · exact List.suffix_rfl
    · exact htake
  · exact htake

theorem suffix_steps (file : String) (xs : List Lexeme) (p : Progress) :
    p.root <:+ (xs.foldlM (step file) p).value.root := by
  induction xs generalizing p with
  | nil => exact List.suffix_rfl
  | cons x xs ih =>
    rw [List.foldlM_cons]
    exact (suffix_step file p x).trans (ih _)

end Root

end Progress

/-- What the first lexemes spell comes first in what is parsed, whatever follows them. -/
theorem prefix_parse {source file : String} {xs ys : List Lexeme} {ns : List Node}
    (h : (scan source file).value = xs ++ ys) (hsp : Spells xs ns) :
    ns <+: (parse source file).value := by
  rw [parse, Reported.value_bind, h, List.foldlM_append, Progress.start, hsp.foldlM, pure_bind,
    List.append_nil, Reported.value_bind]
  let read : Progress := ⟨ns.reverse, [], none⟩
  let p := (ys.foldlM (Progress.step file) read).value
  have hroot : read.root <:+ p.settle.root :=
    (Progress.suffix_steps file ys read).trans (Progress.suffix_settle p)
  calc ns = read.root.reverse := (List.reverse_reverse ns).symm
    _ <+: p.settle.root.reverse := List.reverse_prefix.2 hroot
    _ <+: (Progress.closeAll file p.settle.nodes p.stack).value := Progress.prefix_closeAll ..

end PageCompiler.Markup
