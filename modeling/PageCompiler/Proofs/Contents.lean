import PageCompiler.Proofs.Nesting
import PageCompiler.Proofs.Tree

/-!
What a template says is in its tree. Main statement: where nothing is reported and there are no
islands, the tree holds the contents of the tokens in their order, but for the blank text between
the branches of a conditional of tags.
-/

namespace PageCompiler

/-- What a template holds besides its structure. -/
inductive Content
  | text (text : String)
  | expression (code : String)
  | comment (text : String)
  | doctype (text : String)
  deriving DecidableEq, Repr

namespace Node

def content? : Node → Option Content
  | text s _ => some (.text s)
  | expression code _ _ => some (.expression code)
  | comment s _ => some (.comment s)
  | doctype s _ => some (.doctype s)
  | _ => none

/-- The contents of nodes and of all below them, in the order of the document. -/
def listContents (ns : List Node) : List Content := (listDescendants ns).filterMap content?

def branchContents (bs : List (String × List Node)) : List Content :=
  bs.flatMap fun b => listContents b.2

@[simp] theorem listContents_nil : listContents [] = [] := rfl

@[simp] theorem listContents_append (ns ms : List Node) :
    listContents (ns ++ ms) = listContents ns ++ listContents ms := by
  simp [listContents, listDescendants_eq]

theorem listContents_singleton (n : Node) :
    listContents [n] = n.content?.toList ++ n.childLists.flatMap listContents := by
  rw [listContents, listDescendants, listDescendants, List.append_nil, descendants_eq,
    List.filterMap_cons, List.filterMap_flatMap]
  cases n.content? <;> rfl

@[simp] theorem listContents_text (s : String) (l : Location) :
    listContents [.text s l] = [.text s] := rfl

@[simp] theorem listContents_conditional (bs : List (String × List Node))
    (alternate : Option (List Node)) (d : Dialect) (l : Location) :
    listContents [.conditional bs alternate d l] =
      branchContents bs ++ alternate.toList.flatMap listContents := by
  simp [listContents_singleton, content?, childLists, branchContents, List.flatMap_map]

@[simp] theorem branchContents_append (bs cs : List (String × List Node)) :
    branchContents (bs ++ cs) = branchContents bs ++ branchContents cs :=
  List.flatMap_append

@[simp] theorem branchContents_singleton (condition : String) (body : List Node) :
    branchContents [(condition, body)] = listContents body := by
  simp [branchContents]

end Node

namespace Markup

open Node (listContents branchContents)
open Progress (continuesChain)

namespace Token

def content? : Token → Option Content
  | .text s | .rawText s => some (.text s)
  | .interpolation code _ => some (.expression code)
  | .comment s => some (.comment s)
  | .doctype s => some (.doctype s)
  | _ => none

def listContents (ts : List Token) : List Content := ts.filterMap content?

@[simp] theorem listContents_nil : listContents [] = [] := rfl

@[simp] theorem listContents_cons (t : Token) (ts : List Token) :
    listContents (t :: ts) = t.content?.toList ++ listContents ts := by
  rw [listContents, List.filterMap_cons]
  cases t.content? <;> rfl

def opensIsland : Token → Bool
  | .openTag name _ _ => asciiLower name = "n:island"
  | _ => false

/-- The tag of a branch that is not the first one. -/
def continues : Token → Bool
  | .openTag name _ _ => continuesChain name
  | _ => false

theorem content?_of_continues {t : Token} (h : t.continues) : t.content? = none := by
  cases t with
  | openTag => rfl
  | _ => cases h

end Token

/-- Nothing but blank text stands in front of the next branch. -/
def leadsOn : List Token → Bool
  | [] => false
  | t :: ts => t.continues || t.isBlank && leadsOn ts

/-- Tokens without the blank text in front of branches. -/
def withoutGaps : List Token → List Token
  | [] => []
  | t :: ts => if t.isBlank && leadsOn ts then withoutGaps ts else t :: withoutGaps ts

section Gaps

variable {t : Token} {ts : List Token}

theorem leadsOn_blank (h : t.isBlank) : leadsOn (t :: ts) = leadsOn ts := by
  cases t with
  | text s => exact (Bool.false_or _).trans (by rw [h, Bool.true_and])
  | _ => cases h

theorem leadsOn_eq_false (h : t.isBlank = false) (h' : t.continues = false) :
    leadsOn (t :: ts) = false := by
  simp [leadsOn, h, h']

theorem withoutGaps_cons (h : t.continues ∨ leadsOn (t :: ts) = false) :
    withoutGaps (t :: ts) = t :: withoutGaps ts := by
  rw [withoutGaps, if_neg]
  intro hb
  obtain ⟨hb, hl⟩ := Bool.and_eq_true_iff.1 hb
  obtain hc | hn := h
  · cases t with
    | text => cases hc
    | _ => cases hb
  · rw [leadsOn_blank hb, hl] at hn
    cases hn

end Gaps

/-! ### Branches stand behind branches -/

def Opening.isIsland : Opening → Bool
  | .tag name _ => asciiLower name = "n:island"
  | _ => false

/-- What a token does to the stack of what is open. -/
inductive Moves (t : Token) : List Opening → List Opening → Prop
  | stays : Moves t stack stack
  | opens : (o.isIsland → t.opensIsland) → Moves t stack (o :: stack)
  | closes : o.continues? ≠ none → Moves t (o :: stack) stack
  /-- Another branch between delimiters. -/
  | turns : o.isIsland = false → Moves t (.branch :: stack) (o :: stack)

namespace Reading

variable {r r' : Reading} {o : Opening} {t : Token} {ts : List Token}

theorem stack_closed {stack : List Opening} (h : closed o stack = some r) : r.stack = stack := by
  obtain ⟨e, -, rfl⟩ := Option.map_eq_some_iff.1 h
  rfl

theorem next_moves (h : r.next t = some r') : Moves t r.stack r'.stack := by
  obtain ⟨stack, g⟩ := r
  cases t with
  | openTag name raw selfClosing =>
    simp only [next] at h
    split at h
    · rw [stack_closed h]
      exact .stays
    · cases h
      refine .opens fun hi => ?_
      unfold Opening.ofTag at hi
      split at hi
      · cases hi
      · exact hi
  | closeTag name =>
    cases stack with
    | nil => cases h
    | cons o stack =>
      simp only [next] at h
      split at h
      · rw [stack_closed h]
        refine .closes fun ho => ?_
        rw [closed, ho] at h
        cases h
      · cases h
  | block b =>
    simp only [next, nextBlock] at h
    split at h <;> cases h
    case h_1.refl | h_2.refl => exact .opens fun hi => Bool.noConfusion hi
    case h_4.refl | h_5.refl => exact .turns rfl
    all_goals exact .closes (Option.some_ne_none _)
  | _ =>
    cases h
    exact .stays

/-- What has no end stays open. -/
theorem next_mem (ho : o.continues? = none) (h : r.next t = some r') (hm : o ∈ r.stack) :
    o ∈ r'.stack := by
  have hmoves := next_moves h
  generalize r.stack = stack, r'.stack = stack' at hm hmoves ⊢
  cases hmoves with
  | stays => exact hm
  | opens => exact List.mem_cons_of_mem _ hm
  | closes hc => exact (List.mem_cons.1 hm).resolve_left fun he => hc (he ▸ ho)
  | turns =>
    refine List.mem_cons_of_mem _ ((List.mem_cons.1 hm).resolve_left ?_)
    rintro rfl
    cases ho

theorem isIsland_next (ht : ¬t.opensIsland) (hr : ∀ o ∈ r.stack, ¬o.isIsland)
    (h : r.next t = some r') : ∀ o ∈ r'.stack, ¬o.isIsland := by
  have hmoves := next_moves h
  generalize r.stack = stack, r'.stack = stack' at hr hmoves ⊢
  cases hmoves with
  | stays => exact hr
  | opens ho => exact List.forall_mem_cons.2 ⟨mt ho ht, hr⟩
  | closes => exact (List.forall_mem_cons.1 hr).2
  | turns ho => exact List.forall_mem_cons.2 ⟨by simp [ho], (List.forall_mem_cons.1 hr).2⟩

theorem foldlM_mem (ho : o.continues? = none) (h : ts.foldlM next r = some r')
    (hm : o ∈ r.stack) : o ∈ r'.stack := by
  induction ts generalizing r with
  | nil =>
    cases h
    exact hm
  | cons t ts ih =>
    obtain ⟨q, hq, h⟩ := Option.bind_eq_some_iff.1 h
    exact ih h (next_mem ho hq hm)

theorem continues?_tag {name : String} (h : continuesChain name) (raw : List RawAttribute) :
    (Opening.tag name raw).continues? = none := by
  simp only [continuesChain, Bool.or_eq_true, decide_eq_true_eq] at h
  obtain h | h := h <;> simp [Opening.continues?, h]

/-- Where all is closed in the end, a branch goes on with a conditional. -/
theorem goesOn_of_leadsOn (h : ts.foldlM next r = some r') (hr : r'.stack = [])
    (hl : leadsOn ts) : r.goesOn = true := by
  induction ts generalizing r with
  | nil => cases hl
  | cons t ts ih =>
    obtain ⟨q, hq, h⟩ := Option.bind_eq_some_iff.1 h
    simp only [leadsOn, Bool.or_eq_true, Bool.and_eq_true] at hl
    obtain hc | ⟨hb, hl⟩ := hl
    · cases t with
      | openTag name raw selfClosing =>
        refine Bool.of_not_eq_false fun hg => ?_
        -- A branch of nothing has no end.
        have ho := continues?_tag hc raw
        have hof : Opening.ofTag r.goesOn name raw = .tag name raw := by simp [Opening.ofTag, hg]
        simp only [next, hof] at hq
        split at hq
        · simp [closed, ho] at hq
        · cases hq
          have hm := foldlM_mem ho h List.mem_cons_self
          rw [hr] at hm
          cases hm
      | _ => cases hc
    · cases t with
      | text s =>
        cases hq
        exact (Bool.and_eq_true_iff.1 (ih h hl)).1
      | _ => cases hb

end Reading

/-! ### Contents of what has been read -/

def Frame.contents : Frame → List Content
  | .chained _ _ _ c => branchContents c.branches
  | .branch complete _ _ => branchContents complete
  | .alternate complete _ => branchContents complete
  | .tag .. | .loop .. => []

namespace Built

def contents : Built → List Content
  | .node n => listContents [n]
  | .chain c => branchContents c.branches

/-- The blank text behind a conditional that may go on. -/
def waiting : Built → List Content
  | .node _ => []
  | .chain c => listContents c.blanks.reverse

/-- What is built holds just these contents. -/
structure Holds (cs : List Content) (b : Built) : Prop where
  contents : b.contents = cs
  waiting : b.waiting = []

variable {children : List Node}

theorem Holds.of_node {n : Node} (hn : n.content? = none) (hc : n.childLists = [children]) :
    (node n).Holds (listContents children) :=
  ⟨by simp [Built.contents, Node.listContents_singleton, hn, hc], rfl⟩

theorem Holds.of_chain (bs : List (String × List Node)) (condition : String) (l : Location) :
    (chain ⟨bs ++ [(condition, children)], l, []⟩).Holds
      (branchContents bs ++ listContents children) :=
  ⟨by simp [Built.contents], rfl⟩

theorem Holds.of_conditional (bs : List (String × List Node)) (d : Dialect) (l : Location) :
    (node (.conditional bs (some children) d l)).Holds
      (branchContents bs ++ listContents children) :=
  ⟨by simp [Built.contents], rfl⟩

end Built

theorem build_holds (file : String) {name : String} (hi : asciiLower name ≠ "n:island")
    (raw : List RawAttribute) (selfClosing : Bool) (children : List Node) (l : Location) :
    (build file name raw selfClosing children l).Quiet (Built.Holds (listContents children)) := by
  unfold build
  split
  · split
    · exact .pure (.of_node rfl rfl)
    · exact Reported.quiet_report_bind _ _
  · split
    · exact .pure (.of_chain [] _ _)
    · exact Reported.quiet_report_bind _ _
  · exact .pure (.of_node rfl rfl)
  · exact .pure (.of_node rfl rfl)
  · next hn => exact absurd hn hi
  · split
    · exact Reported.quiet_report_bind _ _
    · split
      · exact .pure (.of_node rfl rfl)
      · exact .pure (.of_node rfl rfl)

namespace Progress

theorem continueChain_holds (file name : String) (raw : List RawAttribute) (l : Location)
    (c : Chain) (body : List Node) :
    (continueChain file name raw l c body).Quiet
      (Built.Holds (branchContents c.branches ++ listContents body)) := by
  unfold continueChain
  split
  · exact .pure (.of_conditional ..)
  · split
    · exact .pure (.of_chain ..)
    · exact Reported.quiet_report_bind _ _

theorem finish_holds (file : String) {frame : Frame} (hi : ¬(Opening.ofFrame frame).isIsland)
    (body : List Node) :
    (finish file frame body).Quiet (Built.Holds (frame.contents ++ listContents body)) := by
  cases frame with
  | tag name raw l =>
    have hname : asciiLower name ≠ "n:island" := by
      simpa [Opening.ofFrame, Opening.isIsland] using hi
    exact build_holds file hname raw false body l
  | chained name raw l chain => exact continueChain_holds file name raw l chain body
  | loop item source l => exact .pure (.of_node rfl rfl)
  | branch complete condition l =>
    exact .pure ⟨by simp [Built.contents, Frame.contents], rfl⟩
  | alternate complete l => exact .pure (.of_conditional ..)

/-- The contents in front of what stands in the innermost frame. -/
def stackContents : List (Frame × List Node) → List Content
  | [] => []
  | (frame, before) :: outer =>
    stackContents outer ++ listContents before.reverse ++ frame.contents

/-- The contents of all that has been read, but for blank text that waits. -/
def contents (p : Progress) : List Content :=
  stackContents p.stack ++ listContents p.nodes.reverse ++
    p.chain.elim [] fun c => branchContents c.branches

/-- The blank text behind a conditional that may go on. -/
def waiting (p : Progress) : List Content := p.chain.elim [] fun c => listContents c.blanks.reverse

/-- Just these contents have been read, and no text waits. -/
structure Holds (cs : List Content) (p : Progress) : Prop where
  contents : p.contents = cs
  waiting : p.waiting = []

section Contents

variable {nodes : List Node} {stack : List (Frame × List Node)} {p q : Progress}
  {cs : List Content} {file name : String}

@[simp] theorem contents_none (nodes : List Node) (stack : List (Frame × List Node)) :
    contents ⟨nodes, stack, none⟩ = stackContents stack ++ listContents nodes.reverse :=
  List.append_nil _

theorem contents_settle (p : Progress) : p.settle.contents = p.contents ++ p.waiting := by
  obtain ⟨nodes, stack, _ | c⟩ := p
  · simp [contents, waiting, settle, settled]
  · simp only [contents, waiting, settle, settled, Option.elim, List.reverse_append,
      List.reverse_cons, Node.listContents_append, Node.listContents_conditional]
    simp

theorem place_holds {b : Built} (h : b.Holds cs) :
    (place nodes stack b).Holds (stackContents stack ++ listContents nodes.reverse ++ cs) := by
  obtain ⟨rfl, hw⟩ := h
  cases b with
  | node n => exact ⟨by simp [place, Built.contents], rfl⟩
  | chain c => exact ⟨rfl, hw⟩

theorem add_holds (n : Node) (nodes : List Node) (stack : List (Frame × List Node)) :
    (add n ⟨nodes, stack, none⟩).Holds
      (stackContents stack ++ listContents nodes.reverse ++ listContents [n]) :=
  ⟨by simp [add], rfl⟩

/-- A frame holds nothing yet when it is opened. -/
theorem openFrame_holds {frame : Frame} (h : frame.contents = []) (p : Progress) :
    (p.openFrame frame).Holds (stackContents p.stack ++ listContents p.nodes.reverse) :=
  ⟨by simp [openFrame, stackContents, h], rfl⟩

/-- The end of the innermost frame. -/
theorem close_holds (file : String) {frame : Frame} (hi : ¬(Opening.ofFrame frame).isIsland)
    (nodes before : List Node) (outer : List (Frame × List Node)) :
    (do return place before outer (← finish file frame nodes.reverse) : Reported Progress).Quiet
      (Holds (stackContents ((frame, before) :: outer) ++ listContents nodes.reverse)) := by
  refine .bind (finish_holds file hi nodes.reverse) fun b hb => .pure ?_
  simpa [stackContents] using place_holds hb

theorem takeBlock_holds (file : String) (b : Block) (l : Location)
    (hs : ∀ o ∈ stack.map fun f => Opening.ofFrame f.1, ¬o.isIsland) :
    (takeBlock file b l ⟨nodes, stack, none⟩).Quiet
      (Holds (stackContents stack ++ listContents nodes.reverse)) := by
  unfold takeBlock
  split
  case h_1 | h_2 => exact .pure (openFrame_holds rfl ⟨nodes, stack, none⟩)
  case h_4 hst | h_5 hst =>
    obtain rfl : stack = _ := hst
    exact .pure ⟨by simp [stackContents, Frame.contents], rfl⟩
  case h_8 => exact Reported.quiet_report_bind _ _
  all_goals
    next hst =>
    obtain rfl : stack = _ := hst
    exact close_holds file (hs _ List.mem_cons_self) _ _ _

theorem take_holds (file : String) {x : Lexeme} (hx : ¬x.token.opensIsland)
    (hs : ∀ o ∈ stack.map fun f => Opening.ofFrame f.1, ¬o.isIsland) :
    (take file x ⟨nodes, stack, none⟩).Quiet
      (Holds (stackContents stack ++ listContents nodes.reverse ++
        x.token.content?.toList)) := by
  obtain ⟨t, l⟩ := x
  cases t with
  | text s | rawText s => exact .pure (add_holds (.text s l) nodes stack)
  | interpolation code raw => exact .pure (add_holds (.expression code raw l) nodes stack)
  | comment s => exact .pure (add_holds (.comment s l) nodes stack)
  | doctype s => exact .pure (add_holds (.doctype s l) nodes stack)
  | openTag name raw selfClosing =>
    have hname : asciiLower name ≠ "n:island" := by simpa [Token.opensIsland] using hx
    simp only [take]
    split
    · exact .bind (build_holds file hname raw selfClosing [] l) fun b hb => .pure (place_holds hb)
    · simp only [Token.content?, Option.toList_none, List.append_nil]
      exact .pure (openFrame_holds rfl ⟨nodes, stack, none⟩)
  | closeTag name =>
    simp only [Token.content?, Option.toList_none, List.append_nil, take]
    split
    · cases stack with
      | nil => contradiction
      | cons f outer =>
        obtain ⟨frame, before⟩ := f
        rw [closeTo]
        split
        · exact close_holds file (hs _ List.mem_cons_self) nodes before outer
        · exact Reported.quiet_report_bind _ _
    · exact Reported.quiet_report_bind _ _
  | block b =>
    simp only [Token.content?, Option.toList_none, List.append_nil]
    exact takeBlock_holds file b l hs

/-- What a token does to the contents that have been read. -/
inductive Effect (p : Progress) (t : Token) (q : Progress) : Prop
  /-- Blank text behind a conditional that may go on. -/
  | waits : p.chain.isSome → t.isBlank → q.contents = p.contents →
    q.waiting = p.waiting ++ t.content?.toList → Effect p t q
  /-- Another branch, which drops the text that waits. -/
  | goesOn : t.continues → q.Holds p.contents → Effect p t q
  | adds : (p.chain.isSome → t.isBlank = false ∧ t.continues = false) →
    q.Holds (p.contents ++ p.waiting ++ t.content?.toList) → Effect p t q

theorem step_effect (file : String) {x : Lexeme} (hx : ¬x.token.opensIsland)
    (hs : ∀ o ∈ p.reading.stack, ¬o.isIsland) : (p.step file x).Quiet (Effect p x.token) := by
  obtain ⟨nodes, stack, _ | c⟩ := p
  · refine .imp_value (take_holds file hx hs) fun q hq => .adds nofun ?_
    simpa [waiting] using hq
  -- Behind a conditional, what is no part of it is read as if it had been settled before.
  have hsettle : (take file x (settle ⟨nodes, stack, some c⟩)).Quiet
      (Holds (contents ⟨nodes, stack, some c⟩ ++ waiting ⟨nodes, stack, some c⟩ ++
        x.token.content?.toList)) := by
    rw [← contents_settle]
    exact contents_none _ _ ▸ take_holds file hx hs
  obtain ⟨t, l⟩ := x
  cases t with
  | text s =>
    simp only [step]
    split
    · next hb => exact .pure (.waits rfl hb rfl (by simp [waiting, Token.content?]))
    · next hb =>
      exact .imp_value hsettle fun q => .adds fun _ => ⟨by simpa [Token.isBlank] using hb, rfl⟩
  | openTag name raw selfClosing =>
    simp only [step]
    split
    · next hc =>
      split
      · refine .bind (continueChain_holds file name raw l c []) fun b hb => .pure (.goesOn hc ?_)
        simpa [contents] using place_holds hb
      · exact .pure (.goesOn hc ⟨by simp [contents, stackContents, Frame.contents], rfl⟩)
    · next hc =>
      exact .imp_value hsettle fun q => .adds fun _ => ⟨rfl, by simpa [Token.continues] using hc⟩
  | _ => exact .imp_value hsettle fun q => .adds fun _ => ⟨rfl, rfl⟩

theorem isIsland_step {x : Lexeme} (hx : ¬x.token.opensIsland)
    (hs : ∀ o ∈ p.reading.stack, ¬o.isIsland) (h : (p.step file x).clean? = some q) :
    ∀ o ∈ q.reading.stack, ¬o.isIsland := by
  have hnext := step_clean? file x p
  rw [h, Option.map_some] at hnext
  exact Reading.isIsland_next hx hs hnext.symm

/-- The contents of tokens are put behind those that have been read. Text that waits is dropped if
a branch follows. -/
theorem steps_contents {xs : List Lexeme} (hxs : ∀ x ∈ xs, ¬x.token.opensIsland)
    (hs : ∀ o ∈ p.reading.stack, ¬o.isIsland) (h : (xs.foldlM (step file) p).clean? = some q)
    (hq : q.stack = []) :
    q.contents ++ q.waiting =
      p.contents ++ (if leadsOn (xs.map Lexeme.token) then [] else p.waiting) ++
        Token.listContents (withoutGaps (xs.map Lexeme.token)) := by
  induction xs generalizing p with
  | nil =>
    obtain rfl := Option.some.inj h
    simp [leadsOn, withoutGaps]
  | cons x xs ih =>
    have hgoesOn : leadsOn ((x :: xs).map Lexeme.token) → p.chain.isSome := by
      have hread := steps_clean? file (x :: xs) p
      rw [h, Option.map_some] at hread
      exact Reading.goesOn_of_leadsOn hread.symm (by simp [reading, hq])
    rw [List.foldlM_cons, Reported.clean?_bind] at h
    obtain ⟨p', hstep, h⟩ := Option.bind_eq_some_iff.1 h
    rw [List.forall_mem_cons] at hxs
    rw [ih hxs.2 (isIsland_step hxs.1 hs hstep) h]
    rw [List.map_cons] at hgoesOn ⊢
    generalize xs.map Lexeme.token = ts at hgoesOn ⊢
    cases (step_effect file hxs.1 hs).of_clean? hstep with
    | waits _ hb hcontents hwaiting =>
      rw [hcontents, hwaiting, leadsOn_blank hb, withoutGaps, hb, Bool.true_and]
      split <;> simp
    | goesOn hc hholds =>
      have hl : leadsOn (x.token :: ts) := by rw [leadsOn, hc, Bool.true_or]
      rw [hholds.contents, hholds.waiting, withoutGaps_cons (.inl hc), if_pos hl]
      simp [Token.content?_of_continues hc]
    | adds hn hholds =>
      -- If a branch followed, the token would be blank text that waits, or the tag of the branch.
      have hl : leadsOn (x.token :: ts) = false := by
        refine Bool.eq_false_iff.2 fun hl => ?_
        have hends := hn (hgoesOn hl)
        rw [leadsOn_eq_false hends.1 hends.2] at hl
        cases hl
      rw [hholds.contents, hholds.waiting, withoutGaps_cons (.inr hl), hl]
      simp

/-- In the end all is closed, and nothing waits any more. -/
theorem closeAll_contents (h : (closeAll file p.settle.nodes p.stack).clean? = some nodes) :
    p.stack = [] ∧ listContents nodes = p.contents ++ p.waiting := by
  have hstack : p.stack = [] := (closeAll_clean? ..).1 (by rw [h]; rfl)
  refine ⟨hstack, ?_⟩
  rw [hstack, closeAll, Reported.clean?_pure] at h
  cases h
  rw [← contents_settle, settle, hstack, contents_none]
  rfl

end Contents

end Progress

/-- A branch stands behind the branches in front of it, and blank text. -/
theorem IsRead.chain_of_continues {us vs : List Token} {t : Token} (h : IsRead (us ++ t :: vs))
    (ht : t.continues) : ∃ ws cs bs, us = ws ++ cs ++ bs ∧ Derives .chain cs ∧ Blanks bs := by
  obtain ⟨r, hr, hstack⟩ := h
  rw [List.foldlM_append] at hr
  obtain ⟨r', hus, hvs⟩ := Option.bind_eq_some_iff.1 hr
  have hgoesOn : r'.goesOn = true :=
    Reading.goesOn_of_leadsOn hvs hstack (by rw [leadsOn, ht, Bool.true_or])
  have hstart : Reading.Holds [] ⟨[], false⟩ := ⟨[], [], rfl, .start, .settled .nil⟩
  obtain ⟨ws, body, rfl, -, hbody⟩ := hstart.foldlM hus
  rw [hgoesOn] at hbody
  cases hbody with
  | @goesOn ns cs bs hns hcs hbs => exact ⟨ws ++ ns, cs, bs, by simp, hcs, hbs⟩

/-- Where nothing is reported, the tree holds the contents of the tokens in their order. Left out is
only the blank text in front of the tag of a branch, and that stands behind other branches. -/
theorem parse_contents {source file : String} (h : (parse source file).diagnostics = [])
    (hislands : ∀ x ∈ (scan source file).value, ¬x.token.opensIsland) :
    let ts := (scan source file).value.map Lexeme.token
    listContents (parse source file).value = Token.listContents (withoutGaps ts) ∧
      ∀ us t vs, ts = us ++ t :: vs → t.continues →
        ∃ ws cs bs, us = ws ++ cs ++ bs ∧ Derives .chain cs ∧ Blanks bs := by
  intro ts
  have hclean := Reported.clean?_eq_some.2 ⟨h, rfl⟩
  generalize hvalue : (parse source file).value = nodes at hclean
  rw [parse, Reported.clean?_bind] at hclean
  obtain ⟨xs, hscan, hclean⟩ := Option.bind_eq_some_iff.1 hclean
  obtain ⟨-, rfl⟩ := Reported.clean?_eq_some.1 hscan
  rw [Reported.clean?_bind] at hclean
  obtain ⟨q, hq, hclose⟩ := Option.bind_eq_some_iff.1 hclean
  obtain ⟨hstack, hcontents⟩ := Progress.closeAll_contents hclose
  constructor
  · rw [hcontents, Progress.steps_contents hislands (List.forall_mem_nil _) hq hstack]
    exact congrArg (· ++ _) (ite_self _)
  · intro us t vs hts ht
    have hread := Progress.steps_clean? file (scan source file).value .start
    rw [hq, Option.map_some] at hread
    have hisRead : IsRead ts := ⟨q.reading, hread.symm, by simp [Progress.reading, hstack]⟩
    exact IsRead.chain_of_continues (hts ▸ hisRead) ht

theorem parse_contents_else :
    let source := "<!doctype html><if condition=a>x</if> <else>\x7b\x7b y \x7d\x7d</else> <!--z-->"
    (parse source "page").diagnostics = [] ∧
      (∀ x ∈ (scan source "page").value, ¬x.token.opensIsland) ∧
      listContents (parse source "page").value =
        [.doctype "doctype html", .text "x", .expression "y", .text " ", .comment "z"] := by
  intro source
  have h : (parse source "page").diagnostics = [] := by decide +kernel
  have hislands : ∀ x ∈ (scan source "page").value, ¬x.token.opensIsland := by decide +kernel
  exact ⟨h, hislands, (parse_contents h hislands).1.trans (by decide +kernel)⟩

end Markup

end PageCompiler
