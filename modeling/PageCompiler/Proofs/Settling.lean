import PageCompiler.Proofs.Evaluation

/-!
What becomes of an attribute when control flow has evaluated it and then interpolation. Texts are
joined after the first of the two; the second reads the joined parts, and the result is that of the
parts one by one.
-/

namespace PageCompiler

open Json (Object)

namespace Resolver

theorem joinTexts_cons_congr (p : Part) {ps qs : List Part} (h : joinTexts ps = joinTexts qs) :
    joinTexts (p :: ps) = joinTexts (p :: qs) := by
  cases p <;> simp [joinTexts, h]

theorem joinTexts_text_text (t u : String) (ps : List Part) :
    joinTexts (.text t :: .text u :: ps) = joinTexts (.text (t ++ u) :: ps) := by
  rw [joinTexts, joinTexts, joinTexts]
  cases joinTexts ps with
  | nil => rfl
  | cons p joined => cases p <;> simp [String.append_assoc]

theorem joinTexts_map_joinTexts {f : Part → Part} (hf : ∀ t, f (.text t) = .text t)
    (ps : List Part) : joinTexts ((joinTexts ps).map f) = joinTexts (ps.map f) := by
  fun_induction joinTexts ps with
  | case1 => rfl
  | case2 t ps u rest h ih =>
    rw [h, List.map_cons, hf] at ih
    rw [List.map_cons, List.map_cons, hf, hf, ← joinTexts_text_text]
    exact joinTexts_cons_congr _ ih
  | case3 t ps h ih => exact joinTexts_cons_congr _ ih
  | case4 p ps h ih => exact joinTexts_cons_congr _ ih

theorem ofParts_map_joinTexts {f : Part → Part} (hf : ∀ t, f (.text t) = .text t)
    (ps : List Part) : ofParts ((joinTexts ps).map f) = ofParts (ps.map f) := by
  rw [ofParts, ofParts, joinTexts_map_joinTexts hf]

theorem expression_mem_joinTexts {code : String} {ps : List Part} (h : .expression code ∈ ps) :
    .expression code ∈ joinTexts ps := by
  fun_induction joinTexts ps with
  | case1 => cases h
  | case2 t ps u rest hj ih =>
    have hrest := ih (by simpa using h)
    rw [hj] at hrest
    simpa using hrest
  | case3 t ps hj ih => simpa using ih (by simpa using h)
  | case4 p ps hj ih =>
    obtain rfl | h := List.mem_cons.1 h
    · exact List.mem_cons_self
    · exact List.mem_cons_of_mem _ (ih h)

theorem exists_texts {ps : List Part} (h : ∀ code, .expression code ∉ ps) :
    ∃ ts : List String, ps = ts.map Part.text := by
  induction ps with
  | nil => exact ⟨[], rfl⟩
  | cons p ps ih =>
    obtain ⟨ts, rfl⟩ := ih fun code hmem => h code (List.mem_cons_of_mem _ hmem)
    cases p with
    | text t => exact ⟨t :: ts, rfl⟩
    | expression code => exact absurd List.mem_cons_self (h code)

/-- Parts that have become one text are all texts. -/
theorem exists_texts_of_ofParts {ps : List Part} {t : String} (h : ofParts ps = .static t) :
    ∃ ts : List String, ps = ts.map Part.text ∧ t = String.join ts := by
  have hnone (code : String) : .expression code ∉ ps := by
    intro hmem
    have hjoined := expression_mem_joinTexts hmem
    unfold ofParts at h
    split at h
    · next hnil => simp [hnil] at hjoined
    · next hone => simp [hone] at hjoined
    · cases h
  obtain ⟨ts, rfl⟩ := exists_texts hnone
  exact ⟨ts, rfl, by simpa [Evaluation.ofParts_texts] using h.symm⟩

theorem ofParts_concat {ps : List Part} {t : String} (h : ofParts ps = .static t) (u : String) :
    ofParts (ps ++ [.text u]) = .static (t ++ u) := by
  obtain ⟨ts, rfl, rfl⟩ := exists_texts_of_ofParts h
  rw [← List.map_singleton, ← List.map_append, Evaluation.ofParts_texts]
  simp

/-- Texts that were joined are resolved as the parts that they were joined from. -/
theorem value_attributeValue?_ofParts (r : Resolver) (b : Bindings) (l : Location)
    (ps : List Part) :
    (r.attributeValue? b l (ofParts ps)).value =
      some (ofParts (ps.map fun p => (r.part b l p).value)) := by
  rw [← ofParts_map_joinTexts (fun _ => rfl)]
  nth_rewrite 1 [ofParts]
  split
  · next h =>
    rw [h]
    rfl
  · next t h =>
    rw [h]
    rfl
  · simp [attributeValue?, Function.comp_def]

end Resolver

namespace ControlFlow

open Interpolation (IslandNames isEvent isIslandExpression resolver)

section Settled

variable (mode : Mode) (file : String) (s : Scope) (data : Object) (own : IslandNames)

/-- What interpolation leaves of an attribute, in an island that has the names `own`. -/
def interpolated? (a : Attribute) : Option Attribute :=
  if isEvent own a then some a
  else
    ((resolver mode file).attributeValue? ⟨data.get?, fun e => !isIslandExpression own e⟩ a.location
      a.value).value.map fun value => { a with value }

/-- What is left of an attribute when control flow has evaluated it in the scope `s`, and then
interpolation over the data of the page. -/
def settled? (a : Attribute) : Option Attribute :=
  (((Resolver.mk mode .controlFlow file).attributeValue? (bindingsIn s) a.location
    a.value).value.map fun value => { a with value }).bind (interpolated? mode file data own)

theorem value_resolveAttributes_own (as : List Attribute) :
    (Interpolation.resolveAttributes (resolver mode file) data own as).value =
      as.filterMap (interpolated? mode file data own) := by
  induction as with
  | nil => rfl
  | cons a as ih =>
    rw [List.filterMap_cons, ← ih, interpolated?, Interpolation.resolveAttributes,
      Interpolation.resolveAttributes, Reported.value_concat, Reported.value_concat, List.map_cons,
      List.flatMap_cons]
    split
    · rfl
    · rw [Evaluation.value_attributes, List.filterMap_cons, List.filterMap_nil]
      split <;> rfl

theorem value_settled (as : List Attribute) :
    (Interpolation.resolveAttributes (resolver mode file) data own
        ((Resolver.mk mode .controlFlow file).attributes (bindingsIn s) as).value).value =
      as.filterMap (settled? mode file s data own) := by
  rw [value_resolveAttributes_own, Evaluation.value_attributes, List.filterMap_filterMap]
  rfl

variable {mode file s data own} {a b : Attribute}

theorem settled?_name (h : settled? mode file s data own a = some b) : b.name = a.name := by
  obtain ⟨c, hc, h⟩ := Option.bind_eq_some_iff.1 h
  obtain ⟨value, -, rfl⟩ := Option.map_eq_some_iff.1 hc
  unfold interpolated? at h
  split at h
  · cases h
    rfl
  · obtain ⟨value, -, rfl⟩ := Option.map_eq_some_iff.1 h
    rfl

theorem interpolated?_static (t : String) :
    interpolated? mode file data own { a with value := .static t } =
      some { a with value := .static t } := by
  unfold interpolated?
  split <;> rfl

theorem settled?_static (t : String) :
    settled? mode file s data own { a with value := .static t } =
      some { a with value := .static t } :=
  interpolated?_static t

/-- The parts of an attribute as they are in the end. -/
def settledPart (mode : Mode) (file : String) (s : Scope) (data : Object) (own : IslandNames)
    (a : Attribute) (p : Part) : Part :=
  let first := ((Resolver.mk mode .controlFlow file).part (bindingsIn s) a.location p).value
  if isEvent own a then first
  else ((resolver mode file).part ⟨data.get?, fun e => !isIslandExpression own e⟩ a.location
    first).value

theorem settled?_interpolated (a : Attribute) (parts : List Part) :
    settled? mode file s data own { a with value := .interpolated parts } =
      some { a with
        value := Resolver.ofParts (parts.map (settledPart mode file s data own a)) } := by
  have hfirst : ((Resolver.mk mode .controlFlow file).attributeValue? (bindingsIn s) a.location
      (.interpolated parts)).value = some (Resolver.ofParts (parts.map fun p =>
        ((Resolver.mk mode .controlFlow file).part (bindingsIn s) a.location p).value)) := by
    simp [Resolver.attributeValue?, Function.comp_def]
  have hevent (value : AttributeValue) : isEvent own { a with value } = isEvent own a := rfl
  unfold settled? settledPart interpolated?
  dsimp only
  simp only [hfirst, Option.map_some, Option.bind_some, hevent]
  split
  · rfl
  · rw [Resolver.value_attributeValue?_ofParts, List.map_map]
    rfl

/-- Text that is put behind parts is behind the text that they become. -/
theorem settled?_concat {parts : List Part} {t : String}
    (h : settled? mode file s data own { a with value := .interpolated parts } =
      some { a with value := .static t }) (u : String) :
    settled? mode file s data own { a with value := .interpolated (parts ++ [.text u]) } =
      some { a with value := .static (t ++ u) } := by
  have htext : settledPart mode file s data own a (.text u) = .text u := by
    unfold settledPart
    split <;> rfl
  rw [settled?_interpolated] at h ⊢
  have ht := (Attribute.mk.inj (Option.some.inj h)).2.1
  rw [List.map_append, List.map_singleton, htext, Resolver.ofParts_concat ht]

end Settled

end ControlFlow

end PageCompiler
