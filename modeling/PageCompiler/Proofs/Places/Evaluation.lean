import PageCompiler.Proofs.Output
import PageCompiler.Proofs.Places.Template

/-!
Where the evaluation of a page reports. All is reported of the page, whichever document it was
written in.
-/

namespace PageCompiler

open Json (Object)

/-- The stages that work on a page with its layout and its components in it. -/
def Stage.IsEvaluation (s : Stage) : Prop := s = .controlFlow ∨ s = .interpolation ∨ s = .islands

/-- A diagnostic of the evaluation of the page in the file, at a place of `A`. -/
structure Diagnostic.OfEvaluation (file : String) (A : Location → Prop) (d : Diagnostic) :
    Prop where
  stage : d.stage.IsEvaluation
  place : d.StandsAt file A

variable {A : Location → Prop} {file : String}

theorem Resolver.allows_ofEvaluation {r : Resolver} (hs : r.stage.IsEvaluation) {l : Location}
    (hl : A l) : r.Allows (Diagnostic.OfEvaluation r.file A) l :=
  fun _ hstage hfile hd => ⟨hstage ▸ hs, fun _ h => ⟨hfile, Option.some.inj (hd.symm.trans h) ▸ hl⟩⟩

/-- Nodes stay at places of `A` when they are evaluated. -/
theorem Resolver.treats_allAt {r : Resolver} (hs : r.stage.IsEvaluation)
    (K : Node.Kind → Prop) :
    r.Treats K (·.At A) (·.AllAt A) (Diagnostic.OfEvaluation r.file A) where
  allows hn hk := allows_ofEvaluation hs (hn.location hk)
  given hn a ha := allows_ofEvaluation hs (hn.given a ha)
  error hn hk _ _ := Node.everywhere_error.2 (Node.at_of_no_given (hn.location hk) rfl)
  text hn _ := Node.everywhere_text.2 (Node.at_of_no_given (hn.location nofun) rfl)
  expression hn := Node.everywhere_expression.2 hn
  element {tag as children closing l new ns} hn hnew hns := by
    refine Node.everywhere_element.2 ⟨⟨fun _ => hn.location nofun, fun a ha => ?_⟩, hns⟩
    obtain ⟨b, hb, value, rfl⟩ := hnew a ha
    exact hn.given b hb
  rebuilt hn _ hm := hm.everywhere fun _ h => hn.trims (Node.trims_of_shell h)

theorem evaluateNodes_inFile {ns : List Node} (h : ∀ n ∈ ns, n.AllAt A) (mode : Mode)
    (data : Object) (file : String) :
    (evaluateNodes mode data file ns).Sat (∀ n ∈ ·, n.AllAt A)
      (Diagnostic.OfEvaluation file A) := by
  have hflow : (ControlFlow.expandNodes mode data file ns).Sat (∀ n ∈ ·, n.AllAt A)
      (Diagnostic.OfEvaluation file A) :=
    ControlFlow.expandAll_sat fun n hn =>
      ControlFlow.expand_treats
        (Resolver.treats_allAt (r := ⟨mode, .controlFlow, file⟩) (.inl rfl) _) (h n hn) _
  have hlast : (Interpolation.resolver mode file).stage.IsEvaluation := .inr (.inl rfl)
  exact .bind hflow fun ns hns => Interpolation.resolveAll_sat fun n hn =>
    Interpolation.resolve_treats (Resolver.treats_allAt hlast _) (hns n hn) _

namespace Island

namespace Content

/-- All errors so far are at places of `A`. -/
def ErrorsAt (A : Location → Prop) (c : Content) : Prop := ∀ e ∈ c.errors, A e.2

theorem fail_keeps (e : BindingError) {l : Location} (hl : A l) :
    Keeps (ErrorsAt A) (fun _ => True) (fail e l) :=
  fun _ hc => ⟨trivial, List.forall_mem_append.2 ⟨hc, List.forall_mem_singleton.2 hl⟩⟩

theorem act_keeps (event : String) (m : Mutation) :
    Keeps (ErrorsAt A) (fun _ => True) (act event m) :=
  fun _ hc => ⟨trivial, hc⟩

theorem get_keeps : Keeps (ErrorsAt A) (fun _ => True) (MonadState.get : Bind Content) :=
  fun _ hc => ⟨trivial, hc⟩

theorem bindAttribute_keeps {a : Attribute} (ha : A a.location) :
    Keeps (ErrorsAt A) (fun _ => True) (bindAttribute a) := by
  unfold bindAttribute
  split
  · split
    · exact .pure trivial
    · exact .pure trivial
    · exact .bind (fail_keeps _ ha) fun _ _ => .pure trivial
  · refine .bind get_keeps fun c _ => ?_
    split
    · exact .bind (act_keeps _ _) fun _ _ => .pure trivial
    · exact .bind (fail_keeps _ ha) fun _ _ => .pure trivial

theorem bindAttributes_keeps {as : List Attribute} (h : ∀ a ∈ as, A a.location) :
    Keeps (ErrorsAt A) (fun _ => True) (bindAttributes as) := by
  induction as with
  | nil => exact .pure trivial
  | cons a as ih =>
    rw [List.forall_mem_cons] at h
    rw [bindAttributes]
    exact .bind (bindAttribute_keeps h.1) fun _ _ => .bind (ih h.2) fun _ _ => .pure trivial

theorem bindAll_keeps {ns : List Node}
    (h : ∀ n ∈ ns, Keeps (ErrorsAt A) (fun _ => True) (bindNode n)) :
    Keeps (ErrorsAt A) (fun _ => True) (bindAll ns) := by
  rw [bindAll_eq]
  exact (Keeps.mapM h).imp fun _ _ => trivial

theorem bindNode_keeps {n : Node} (hn : n.AllAt A) :
    Keeps (ErrorsAt A) (fun _ => True) (bindNode n) := by
  induction n using Node.induct_children with
  | node n ih =>
    obtain ⟨hat, hn⟩ := Node.everywhere_iff.1 hn
    have hchild (ns) (hns : ns ∈ n.childLists) : Keeps (ErrorsAt A) (fun _ => True) (bindAll ns) :=
      bindAll_keeps fun m hm => ih ns hns m hm (hn ns hns m hm)
    cases n with
    | expression code raw l =>
      rw [bindNode]
      refine .bind get_keeps fun c _ => ?_
      split
      · exact .pure trivial
      · exact .bind (fail_keeps _ (hat.location (by simp))) fun _ _ => .pure trivial
    | element tag as children closing l =>
      rw [bindNode]
      exact .bind (bindAttributes_keeps hat.given) fun _ _ =>
        .bind (hchild children (List.mem_singleton_self _)) fun _ _ => .pure trivial
    | island strategy script children l =>
      rw [bindNode]
      exact .bind (fail_keeps _ (hat.location (by simp))) fun _ _ => .pure trivial
    | _ =>
      rw [bindNode_of_ne (by simp) (by simp) (by simp)]
      exact (Keeps.traverse hchild).imp fun _ _ => trivial

end Content

/-- The errors of an island are of the island or of what is in it. -/
theorem bind_errorsAt {id : String} {strategy : Strategy} {script : String} {children : List Node}
    {l : Location} {errors : List (BindingError × Location)} (hl : A l)
    (hc : ∀ n ∈ children, n.AllAt A) (h : bind id strategy script children l = .error errors) :
    ∀ e ∈ errors, A e.2 := by
  rw [bind] at h
  split at h
  · cases h
    exact List.forall_mem_map.2 fun _ _ => hl
  · next s _ =>
    have hb := Content.bindAll_keeps (fun n hn => Content.bindNode_keeps (hc n hn))
      ⟨id, s, [], []⟩ (List.forall_mem_nil _)
    split at h
    next bound c hrun =>
    split at h
    · cases h
    · cases h
      rw [hrun] at hb
      exact hb.2

namespace Extraction

/-- All that has been reported so far is of the page. -/
abbrev InFile (file : String) (A : Location → Prop) (e : Extraction) : Prop :=
  ∀ d ∈ e.diagnostics, d.OfEvaluation file A

theorem extract_inFile (file : String) {n : Node} (hn : n.AllAt A) :
    Keeps (InFile file A) (fun _ => True) (extract file n) := by
  induction n using Node.induct_children with
  | node n ih =>
    obtain ⟨hat, hn⟩ := Node.everywhere_iff.1 hn
    cases n with
    | island strategy script children l =>
      have hl := hat.location nofun
      rw [extract]
      refine @Keeps.bind _ _ _ _ (fun _ => True) _ _ _ (fun _ he => ⟨trivial, he⟩) fun id _ => ?_
      split
      · exact fun e he => ⟨trivial, he⟩
      · next errors h =>
        have herrors := bind_errorsAt hl (hn children (List.mem_singleton_self _)) h
        refine fun e he => ⟨trivial, List.forall_mem_append.2 ⟨he, List.forall_mem_map.2 ?_⟩⟩
        exact fun p hp => ⟨.inr (.inr rfl), Diagnostic.standsAt_placed (herrors p hp) _⟩
    | _ =>
      rw [extract_of_ne (by simp)]
      refine (Keeps.traverse (V := fun _ => True) fun ns hns => ?_).imp fun _ _ => trivial
      rw [extractAll_eq]
      exact (Keeps.mapM fun m hm => ih ns hns m hm (hn ns hns m hm)).imp fun _ _ => trivial

end Extraction

theorem extractIslands_inFile (file : String) {ns : List Node} (h : ∀ n ∈ ns, n.AllAt A) :
    ∀ d ∈ (extractIslands file ns).diagnostics, d.OfEvaluation file A := by
  have hall : Keeps (Extraction.InFile file A) (fun _ => True) (Extraction.extractAll file ns) := by
    rw [Extraction.extractAll_eq]
    exact (Keeps.mapM fun n hn => Extraction.extract_inFile file (h n hn)).imp fun _ _ => trivial
  exact (hall ⟨0, [], []⟩ (List.forall_mem_nil _)).2

end Island

/-- Where no component and no slot is left, the rest of a page's way is reported of the page. -/
theorem finishNodes_inFile {ns : List Node} (hk : ∀ n ∈ ns, n.OfKinds Node.Kind.IsExpanded)
    (h : ∀ n ∈ ns, n.AllAt A) (mode : Mode) (data : Object) (file : String) :
    (finishNodes mode data file ns).Each (Diagnostic.OfEvaluation file A) := by
  have hevaluated := evaluateNodes_inFile h mode data file
  refine Reported.each_bind.2 ⟨hevaluated.each, Reported.each_bind.2 ⟨?_, ?_⟩⟩
  · exact (Reported.sat_reports (Island.extractIslands_inFile file hevaluated.value)).each
  · have hawaits := (evaluateNodes_sat hk mode data file).value
    have hfinal := (Island.extractIslands_isFinal file hawaits).1
    rw [verify_of_isFinal file hfinal]
    exact Reported.each_bind.2 ⟨Reported.each_pure _, Reported.each_pure _⟩

end PageCompiler
