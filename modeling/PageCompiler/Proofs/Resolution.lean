import PageCompiler.Proofs.Markup
import PageCompiler.Resolution

/-!
What resolving expressions reports, and the nodes that it makes. All is reported in the file and the
stage of the resolver, at the place that is asked for.
-/

namespace PageCompiler.Resolver

open Json (Value)

/-- All that the resolver may report of a place has the property. -/
def Allows (r : Resolver) (P : Diagnostic → Prop) (l : Location) : Prop :=
  ∀ d, d.stage = r.stage → d.file = r.file → d.location = some l → P d

theorem allows_isEarly {r : Resolver} (hr : r.stage ≠ .assembly) (l : Location) :
    r.Allows Diagnostic.IsEarly l := by
  intro d hs _ _
  rw [Diagnostic.IsEarly, hs]
  exact hr

variable {r : Resolver} {P : Diagnostic → Prop} {l : Location} (hr : r.Allows P l)

include hr

theorem fail_sat {problem : Problem} {message : String} :
    (r.fail problem message l).Sat (fun _ => True) P := Reported.sat_report (hr _ rfl rfl rfl)

theorem failHere_sat {V : Node → Prop} {problem : Problem} {message : String}
    (h : V (.error problem message l)) : (r.failHere problem message l).Sat V P :=
  .bind (fail_sat hr) fun _ _ => .pure h

theorem reportUnresolved_sat (u : Unresolved) :
    (r.reportUnresolved u l).Sat (fun _ => True) P := by
  unfold reportUnresolved
  split
  · exact fail_sat hr
  · exact Reported.sat_report (hr _ rfl rfl rfl)

theorem expression_sat {V : Node → Prop} (ht : ∀ s, V (.text s l))
    (he : ∀ problem message, V (.error problem message l)) (lookup : String → Option Value)
    (e : Expr) (code raw : String) :
    (r.expression lookup e code raw l).Sat V P := by
  unfold expression
  split
  · split
    · exact .pure (ht _)
    · exact failHere_sat hr (he _ _)
  · split
    · exact failHere_sat hr (he _ _)
    · exact .bind (reportUnresolved_sat hr _) fun _ _ => .pure (ht _)

theorem valueText_sat (code : String) (v : Value) :
    (r.valueText code v l).Sat (fun _ => True) P := by
  unfold valueText
  split
  · exact .pure trivial
  · exact .bind (fail_sat hr) fun _ _ => .pure trivial

theorem unresolvedText_sat (code : String) (u : Unresolved) :
    (r.unresolvedText code u l).Sat (fun _ => True) P := by
  unfold unresolvedText
  refine .bind (reportUnresolved_sat hr u) fun _ _ => ?_
  split
  · exact .pure trivial
  · exact .pure trivial

theorem part_sat (b : Bindings) (p : Part) : (r.part b l p).Sat (fun _ => True) P := by
  unfold part
  split
  · exact .pure trivial
  · split
    · exact .pure trivial
    · exact .bind (fail_sat hr) fun _ _ => .pure trivial
    · exact .bind (unresolvedText_sat hr _ _) fun _ _ => .pure trivial
    · exact .bind (valueText_sat hr _ _) fun _ _ => .pure trivial

theorem attributeValue?_sat (b : Bindings) (v : AttributeValue) :
    (r.attributeValue? b l v).Sat (fun _ => True) P := by
  unfold attributeValue?
  split
  · next parts =>
    have hparts : ∀ p ∈ parts.map (r.part b l), p.Each P :=
      List.forall_mem_map.2 fun p _ => (part_sat hr b p).each
    exact .bind (Reported.sat_all hparts) fun _ _ => .pure trivial
  · split
    · exact .pure trivial
    · exact .bind (fail_sat hr) fun _ _ => .pure trivial
    · exact .bind (unresolvedText_sat hr _ _) fun _ _ => .pure trivial
    · exact .pure trivial
    · exact .pure trivial
    · exact .pure trivial
    · exact .bind (valueText_sat hr _ _) fun _ _ => .pure trivial
  · exact .pure trivial

omit hr in
/-- What is left of the attributes stands where it stood. -/
theorem attributes_sat {V : Attribute → Prop} (b : Bindings) {as : List Attribute}
    (ha : ∀ a ∈ as, r.Allows P a.location) (hV : ∀ a ∈ as, ∀ value, V { a with value }) :
    (r.attributes b as).Sat (∀ a ∈ ·, V a) P := by
  refine Reported.sat_concat (List.forall_mem_map.2 fun a h => ?_)
  exact .bind (attributeValue?_sat (ha a h) b a.value) fun value _ =>
    .pure (List.forall_mem_map.2 fun value _ => hV a h value)

end PageCompiler.Resolver
