import PageCompiler.Markup.Parse
import PageCompiler.Proofs.Report
import PageCompiler.Proofs.Tree

/-!
What is read from a source: nodes that can be written in it, and so neither instances of components
nor content in its place. What reading reports is of the file that is read.
-/

namespace PageCompiler

theorem eqIgnoringAsciiCase_iff {s t : String} :
    Text.eqIgnoringAsciiCase s t ↔ Markup.asciiLower s = Markup.asciiLower t := by
  rw [Text.eqIgnoringAsciiCase, beq_iff_eq, Markup.asciiLower, Markup.asciiLower,
    String.ofList_inj]

/-- What can be written in a source. -/
def Node.Kind.IsWritten (k : Node.Kind) : Prop := k ≠ .isolated ∧ k ≠ .callerScope

abbrev Node.IsWritten : Node → Prop := Node.OfKinds Node.Kind.IsWritten

/-- The diagnostic does not come from the check before a page is written. -/
abbrev Diagnostic.IsEarly (d : Diagnostic) : Prop := d.stage ≠ .assembly

/-- The diagnostic comes from the reading of the file. -/
structure Diagnostic.OfReading (file : String) (d : Diagnostic) : Prop where
  stage : d.stage = .parse
  file : d.file = file

theorem Diagnostic.OfReading.isEarly {file : String} {d : Diagnostic} (h : d.OfReading file) :
    d.IsEarly := by
  rw [IsEarly, h.stage]
  decide

namespace Markup

open Node (Form Kind)

/-- The forms of `F` are enough for all that can be read: an error is among them if its report has
`Q`. -/
structure Reads (F : Form → Prop) (Q : Diagnostic → Prop) : Prop where
  plain : ∀ k : Kind, k ≠ .isolated → k ≠ .callerScope → k ≠ .error → F ⟨k, none⟩
  error : ∀ problem message file l,
    Q ((Diagnostic.error .parse problem message).placed file l) → F ⟨.error, some problem⟩

theorem reads_isWritten : Reads (·.kind.IsWritten) fun _ => True where
  plain _ hi hc _ := ⟨hi, hc⟩
  error _ _ _ _ _ := ⟨nofun, nofun⟩

variable {F : Form → Prop} {Q : Diagnostic → Prop} (hR : Reads F Q)

def BranchesOfForms (F : Form → Prop) (bs : List (String × List Node)) : Prop :=
  ∀ b ∈ bs, ∀ n ∈ b.2, n.OfForms F

theorem BranchesOfForms.concat {bs : List (String × List Node)} (h : BranchesOfForms F bs)
    {condition : String} {body : List Node} (hb : ∀ n ∈ body, n.OfForms F) :
    BranchesOfForms F (bs ++ [(condition, body)]) :=
  List.forall_mem_append.2 ⟨h, List.forall_mem_singleton.2 hb⟩

structure Chain.OfForms (F : Form → Prop) (c : Chain) : Prop where
  branches : BranchesOfForms F c.branches
  blanks : ∀ n ∈ c.blanks, n.OfForms F

def Built.OfForms (F : Form → Prop) : Built → Prop
  | .node n => n.OfForms F
  | .chain c => c.OfForms F

theorem takeScript_subset (ns : List Node) : (takeScript ns).2 ⊆ ns := by
  fun_induction takeScript ns with
  | case1 => exact List.nil_subset _
  | case2 => exact List.subset_cons_self _ _
  | case3 => simp_all
  | case4 => simp_all

include hR in
theorem islandOf_ofForms (raw : List RawAttribute) {children : List Node}
    (h : ∀ n ∈ children, n.OfForms F) (l : Location) : (islandOf raw children l).OfForms F :=
  Node.everywhere_island.2
    ⟨hR.plain _ nofun nofun nofun, fun n hn => h n (takeScript_subset children hn)⟩

include hR in
theorem conditional_ofForms {branches : List (String × List Node)}
    {alternate : Option (List Node)} {d : Dialect} {l : Location} (hb : BranchesOfForms F branches)
    (ha : ∀ ns ∈ alternate, ∀ n ∈ ns, n.OfForms F) :
    (Node.conditional branches alternate d l).OfForms F :=
  Node.everywhere_conditional.2 ⟨hR.plain _ nofun nofun nofun, hb, ha⟩

include hR in
theorem error_ofForms {problem : Problem} {message text file : String} {l : Location}
    (h : Q ((Diagnostic.error .parse problem message).placed file l)) :
    (Node.error problem text l).OfForms F :=
  Node.everywhere_error.2 (hR.error _ _ _ _ h)

include hR in
theorem controlFlowError_satIf (file message : String) (l : Location) :
    (controlFlowError file message l).SatIf Q (Built.OfForms F) (Diagnostic.OfReading file) :=
  .bind (Reported.SatIf.report ⟨rfl, rfl⟩) fun _ h => .pure (error_ofForms hR h)

include hR in
theorem build_satIf (file name : String) (raw : List RawAttribute) (selfClosing : Bool)
    {children : List Node} (h : ∀ n ∈ children, n.OfForms F) (l : Location) :
    (build file name raw selfClosing children l).SatIf Q (Built.OfForms F)
      (Diagnostic.OfReading file) := by
  unfold build
  split
  · split
    · exact .pure (Node.everywhere_loop.2 ⟨hR.plain _ nofun nofun nofun, h⟩)
    · exact controlFlowError_satIf hR _ _ _
  · split
    · exact .pure ⟨List.forall_mem_singleton.2 h, List.forall_mem_nil _⟩
    · exact controlFlowError_satIf hR _ _ _
  · exact .pure (Node.everywhere_slot.2 ⟨hR.plain _ nofun nofun nofun, h⟩)
  · exact .pure (Node.everywhere_slot.2 ⟨hR.plain _ nofun nofun nofun, h⟩)
  · exact .pure (islandOf_ofForms hR raw h l)
  · split
    · exact .bind (Reported.SatIf.report ⟨rfl, rfl⟩) fun _ h => .pure (error_ofForms hR h)
    · split
      · exact .pure (Node.everywhere_component.2 ⟨hR.plain _ nofun nofun nofun, h⟩)
      · exact .pure (Node.everywhere_element.2 ⟨hR.plain _ nofun nofun nofun, h⟩)

def Frame.OfForms (F : Form → Prop) : Frame → Prop
  | .chained _ _ _ chain => chain.OfForms F
  | .branch complete _ _ => BranchesOfForms F complete
  | .alternate complete _ => BranchesOfForms F complete
  | _ => True

namespace Progress

structure OfForms (F : Form → Prop) (p : Progress) : Prop where
  nodes : ∀ n ∈ p.nodes, n.OfForms F
  stack : ∀ f ∈ p.stack, f.1.OfForms F ∧ ∀ n ∈ f.2, n.OfForms F
  chain : ∀ c ∈ p.chain, c.OfForms F

include hR in
theorem settled_ofForms {nodes : List Node} {chain : Option Chain}
    (hn : ∀ n ∈ nodes, n.OfForms F) (hc : ∀ c ∈ chain, c.OfForms F) :
    ∀ n ∈ settled nodes chain, n.OfForms F := by
  cases chain with
  | none => exact hn
  | some c =>
    obtain ⟨hbs, hb⟩ := hc c rfl
    exact List.forall_mem_append.2
      ⟨hb, List.forall_mem_cons.2 ⟨conditional_ofForms hR hbs nofun, hn⟩⟩

include hR in
theorem OfForms.settle {p : Progress} (h : p.OfForms F) : p.settle.OfForms F :=
  ⟨settled_ofForms hR h.nodes h.chain, h.stack, nofun⟩

include hR in
theorem continueChain_satIf (file name : String) (raw : List RawAttribute) (l : Location)
    {chain : Chain} {body : List Node} (hc : chain.OfForms F) (hb : ∀ n ∈ body, n.OfForms F) :
    (continueChain file name raw l chain body).SatIf Q (Built.OfForms F)
      (Diagnostic.OfReading file) := by
  unfold continueChain
  split
  · exact .pure (conditional_ofForms hR hc.branches fun _ h => Option.some.inj h ▸ hb)
  · split
    · exact .pure ⟨hc.branches.concat hb, List.forall_mem_nil _⟩
    · exact .bind (Reported.SatIf.report ⟨rfl, rfl⟩) fun _ _ =>
        .pure ⟨hc.branches, List.forall_mem_nil _⟩

include hR in
theorem finish_satIf (file : String) {frame : Frame} {body : List Node} (hf : frame.OfForms F)
    (hb : ∀ n ∈ body, n.OfForms F) :
    (finish file frame body).SatIf Q (Built.OfForms F) (Diagnostic.OfReading file) := by
  cases frame with
  | tag name raw l => exact build_satIf hR file name raw false hb l
  | chained name raw l chain => exact continueChain_satIf hR file name raw l hf hb
  | loop item source l => exact .pure (Node.everywhere_loop.2 ⟨hR.plain _ nofun nofun nofun, hb⟩)
  | branch complete condition l =>
    exact .pure (conditional_ofForms hR (BranchesOfForms.concat hf hb) nofun)
  | alternate complete l =>
    exact .pure (conditional_ofForms hR hf fun _ h => Option.some.inj h ▸ hb)

theorem place_ofForms {nodes : List Node} {stack : List (Frame × List Node)} {b : Built}
    (hn : ∀ n ∈ nodes, n.OfForms F) (hs : ∀ f ∈ stack, f.1.OfForms F ∧ ∀ n ∈ f.2, n.OfForms F)
    (hb : b.OfForms F) : (place nodes stack b).OfForms F := by
  cases b with
  | node n => exact ⟨List.forall_mem_cons.2 ⟨hb, hn⟩, hs, nofun⟩
  | chain c => exact ⟨hn, hs, fun _ h => Option.some.inj h ▸ hb⟩

theorem reportUnclosed_satIf (file : String) (frame : Frame) :
    (reportUnclosed file frame).SatIf Q (fun _ => True) (Diagnostic.OfReading file) := by
  unfold reportUnclosed
  split
  exact .of_sat (Reported.sat_report ⟨rfl, rfl⟩)

include hR in
theorem closeTo_satIf (file name : String) {nodes : List Node} {stack : List (Frame × List Node)}
    (hn : ∀ n ∈ nodes, n.OfForms F)
    (hs : ∀ f ∈ stack, f.1.OfForms F ∧ ∀ n ∈ f.2, n.OfForms F) :
    (closeTo file name nodes stack).SatIf Q (OfForms F) (Diagnostic.OfReading file) := by
  induction stack generalizing nodes with
  | nil => exact .pure ⟨hn, List.forall_mem_nil _, nofun⟩
  | cons f outer ih =>
    obtain ⟨⟨hf, hb⟩, hs⟩ := List.forall_mem_cons.1 hs
    have hbuilt := finish_satIf hR file hf fun n h => hn n (List.mem_reverse.1 h)
    rw [closeTo]
    split
    · exact .bind hbuilt fun _ h => .pure (place_ofForms hb hs h)
    · exact .bind (reportUnclosed_satIf file f.1) fun _ _ => .bind hbuilt fun _ h =>
        ih (OfForms.settle hR (place_ofForms hb hs h)).nodes hs

include hR in
theorem closeAll_satIf (file : String) {nodes : List Node} {stack : List (Frame × List Node)}
    (hn : ∀ n ∈ nodes, n.OfForms F)
    (hs : ∀ f ∈ stack, f.1.OfForms F ∧ ∀ n ∈ f.2, n.OfForms F) :
    (closeAll file nodes stack).SatIf Q (∀ n ∈ ·, n.OfForms F) (Diagnostic.OfReading file) := by
  induction stack generalizing nodes with
  | nil => exact .pure fun n h => hn n (List.mem_reverse.1 h)
  | cons f outer ih =>
    obtain ⟨⟨hf, hb⟩, hs⟩ := List.forall_mem_cons.1 hs
    have hbuilt := finish_satIf hR file hf fun n h => hn n (List.mem_reverse.1 h)
    rw [closeAll]
    exact .bind (reportUnclosed_satIf file f.1) fun _ _ => .bind hbuilt fun _ h =>
      ih (OfForms.settle hR (place_ofForms hb hs h)).nodes hs

variable {p : Progress}

theorem OfForms.openFrame (h : p.OfForms F) {frame : Frame} (hf : frame.OfForms F) :
    (p.openFrame frame).OfForms F :=
  ⟨List.forall_mem_nil _, List.forall_mem_cons.2 ⟨⟨hf, h.nodes⟩, h.stack⟩, nofun⟩

theorem unexpected_satIf (file : String) (b : Block) (l : Location) (h : p.OfForms F) :
    (p.unexpected file b l).SatIf Q (OfForms F) (Diagnostic.OfReading file) :=
  .bind (Reported.SatIf.report ⟨rfl, rfl⟩) fun _ _ => .pure h

include hR in
theorem takeBlock_satIf (file : String) (b : Block) (l : Location) (h : p.OfForms F) :
    (p.takeBlock file b l).SatIf Q (OfForms F) (Diagnostic.OfReading file) := by
  have hbody : ∀ n ∈ p.nodes.reverse, n.OfForms F := fun n hn => h.nodes n (List.mem_reverse.1 hn)
  unfold takeBlock
  split
  · exact .pure (h.openFrame trivial)
  · exact .pure (h.openFrame (List.forall_mem_nil _))
  · next hs =>
    obtain ⟨⟨hf, hb⟩, ho⟩ := List.forall_mem_cons.1 (hs ▸ h.stack)
    exact .bind (finish_satIf hR file hf hbody) fun _ h => .pure (place_ofForms hb ho h)
  · next hs =>
    obtain ⟨⟨hf, hb⟩, ho⟩ := List.forall_mem_cons.1 (hs ▸ h.stack)
    exact .pure ⟨List.forall_mem_nil _,
      List.forall_mem_cons.2 ⟨⟨BranchesOfForms.concat hf hbody, hb⟩, ho⟩, nofun⟩
  · next hs =>
    obtain ⟨⟨hf, hb⟩, ho⟩ := List.forall_mem_cons.1 (hs ▸ h.stack)
    exact .pure ⟨List.forall_mem_nil _,
      List.forall_mem_cons.2 ⟨⟨BranchesOfForms.concat hf hbody, hb⟩, ho⟩, nofun⟩
  · next hs =>
    obtain ⟨⟨hf, hb⟩, ho⟩ := List.forall_mem_cons.1 (hs ▸ h.stack)
    exact .bind (finish_satIf hR file hf hbody) fun _ h => .pure (place_ofForms hb ho h)
  · next hs =>
    obtain ⟨⟨hf, hb⟩, ho⟩ := List.forall_mem_cons.1 (hs ▸ h.stack)
    exact .bind (finish_satIf hR file hf hbody) fun _ h => .pure (place_ofForms hb ho h)
  · exact unexpected_satIf file _ l h

include hR in
theorem take_satIf (file : String) (x : Lexeme) (h : p.OfForms F) :
    (p.take file x).SatIf Q (OfForms F) (Diagnostic.OfReading file) := by
  have hadd {n : Node} (hn : n.OfForms F) : (p.add n).OfForms F :=
    ⟨List.forall_mem_cons.2 ⟨hn, h.nodes⟩, h.stack, h.chain⟩
  unfold take
  dsimp only
  split
  · exact .pure (hadd (Node.everywhere_text.2 (hR.plain _ nofun nofun nofun)))
  · exact .pure (hadd (Node.everywhere_text.2 (hR.plain _ nofun nofun nofun)))
  · exact .pure (hadd (Node.everywhere_expression.2 (hR.plain _ nofun nofun nofun)))
  · exact .pure (hadd (Node.everywhere_comment.2 (hR.plain _ nofun nofun nofun)))
  · exact .pure (hadd (Node.everywhere_doctype.2 (hR.plain _ nofun nofun nofun)))
  · split
    · exact .bind (build_satIf hR _ _ _ _ (List.forall_mem_nil _) _) fun _ hb =>
        .pure (place_ofForms h.nodes h.stack hb)
    · exact .pure (h.openFrame trivial)
  · split
    · exact closeTo_satIf hR _ _ h.nodes h.stack
    · exact .bind (Reported.SatIf.report ⟨rfl, rfl⟩) fun _ _ => .pure h
  · exact takeBlock_satIf hR _ _ _ h

include hR in
theorem step_satIf (file : String) (x : Lexeme) (h : p.OfForms F) :
    (p.step file x).SatIf Q (OfForms F) (Diagnostic.OfReading file) := by
  unfold step
  split
  · exact take_satIf hR _ _ h
  · next c s hc _ =>
    obtain ⟨hbs, hb⟩ := h.chain c hc
    split
    · refine .pure ⟨h.nodes, h.stack, fun _ he => Option.some.inj he ▸ ⟨hbs, ?_⟩⟩
      exact List.forall_mem_cons.2 ⟨Node.everywhere_text.2 (hR.plain _ nofun nofun nofun), hb⟩
    · exact take_satIf hR _ _ (.settle hR h)
  · next c name raw selfClosing hc _ =>
    split
    · split
      · refine .bind (continueChain_satIf hR _ _ _ _ (h.chain c hc) (List.forall_mem_nil _)) ?_
        exact fun _ hb => .pure (place_ofForms h.nodes h.stack hb)
      · exact .pure ⟨List.forall_mem_nil _,
          List.forall_mem_cons.2 ⟨⟨h.chain c hc, h.nodes⟩, h.stack⟩, nofun⟩
    · exact take_satIf hR _ _ (.settle hR h)
  · exact take_satIf hR _ _ (.settle hR h)

end Progress

theorem steps_each (file : String) (l : Location) (cs : List Char) :
    (steps file l cs).Each (Diagnostic.OfReading file) := by
  fun_induction steps file l cs with
  | case1 => exact Reported.each_pure _
  | case2 l c cs s behind rest p message n h ih =>
    exact Reported.each_bind.2 ⟨Reported.each_report.2 ⟨rfl, rfl⟩,
      Reported.each_bind.2 ⟨ih, Reported.each_pure _⟩⟩
  | case3 l c cs s behind rest h ih => exact Reported.each_bind.2 ⟨ih, Reported.each_pure _⟩

include hR in
/-- What is read from a source has the forms for that. -/
theorem parse_satIf (source file : String) :
    (parse source file).SatIf Q (∀ n ∈ ·, n.OfForms F) (Diagnostic.OfReading file) := by
  have hs : (scan source file).SatIf Q (fun _ => True) (Diagnostic.OfReading file) :=
    .of_sat ⟨trivial, Reported.each_map.2 (steps_each _ _ _)⟩
  refine .bind hs fun lexemes _ => ?_
  have hstart : Progress.OfForms F .start :=
    ⟨List.forall_mem_nil _, List.forall_mem_nil _, nofun⟩
  refine .bind (.foldlM hstart fun p hp x _ => Progress.step_satIf hR file x hp) fun p hp => ?_
  have hp := Progress.OfForms.settle hR hp
  exact Progress.closeAll_satIf hR file hp.nodes hp.stack

end Markup

end PageCompiler
