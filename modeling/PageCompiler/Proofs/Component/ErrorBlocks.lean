import PageCompiler.Proofs.Component.Walk

/-!
Error blocks show problems that are reported. Here for the expansion of components: whatever
problems `E` there are reports of, the blocks of the expanded tree show no others, if those of the
definitions and of the tree in front of it show no others.
-/

namespace PageCompiler

/-- The error blocks in a tree are of problems of `E`. -/
abbrev Node.ShowsOnly (E : Problem → Prop) : Node → Prop :=
  Node.OfForms fun f => ∀ problem ∈ f.problem?, E problem

/-- What is an error is of a problem of `E`. -/
def Diagnostic.Within (E : Problem → Prop) (d : Diagnostic) : Prop := d.isError → E d.problem

variable {E : Problem → Prop}

theorem Node.showsOnly_error {problem : Problem} {message : String} {l : Location}
    (h : E problem) : (Node.error problem message l).ShowsOnly E :=
  everywhere_error.2 fun _ hp => Option.some.inj hp ▸ h

theorem Node.showsOnly_of_lists {n : Node} (hn : n.problem? = none)
    (h : ∀ ns ∈ n.childLists, ∀ m ∈ ns, m.ShowsOnly E) : n.ShowsOnly E := by
  refine everywhere_iff.2 ⟨fun problem hp => ?_, h⟩
  rw [form, hn] at hp
  cases hp

theorem Node.showsOnly_list {n : Node} {children : List Node} (hl : n.childLists = [children])
    (hn : n.problem? = none) (h : ∀ m ∈ children, m.ShowsOnly E) : n.ShowsOnly E := by
  refine showsOnly_of_lists hn ?_
  rw [hl]
  exact List.forall_mem_singleton.2 h

theorem Node.showsOnly_text {s : String} {l : Location} : (Node.text s l).ShowsOnly E :=
  showsOnly_of_lists rfl (List.forall_mem_nil _)

theorem Node.showsOnly_conditional {branches : List (String × List Node)}
    {alternate : Option (List Node)} {d : Dialect} {l : Location}
    (hb : ∀ b ∈ branches, ∀ n ∈ b.2, n.ShowsOnly E)
    (ha : ∀ ns ∈ alternate, ∀ n ∈ ns, n.ShowsOnly E) :
    (Node.conditional branches alternate d l).ShowsOnly E := by
  refine showsOnly_of_lists rfl (List.forall_mem_append.2 ⟨List.forall_mem_map.2 hb, ?_⟩)
  simpa using ha

namespace Expanded

universe u

variable {α β : Type u} {V : α → Prop} {W : β → Prop} {Q : Diagnostic → Prop}

/-- Where all diagnostics have `Q` the result has `V`. -/
def Under (Q : Diagnostic → Prop) (V : α → Prop) (r : Expanded α) : Prop :=
  (∀ d ∈ r.diagnostics, Q d) → V r.value

namespace Under

theorem any (r : Expanded α) : r.Under Q fun _ => True := fun _ => trivial

theorem pure {a : α} (h : V a) : Under Q V (Pure.pure a) := fun _ => h

theorem bind {r : Expanded α} {f : α → Expanded β} (hr : r.Under Q V)
    (hf : ∀ a, V a → (f a).Under Q W) : (r >>= f).Under Q W := by
  intro hq
  obtain ⟨hqr, hqf⟩ := List.forall_mem_append.1 hq
  exact hf _ (hr hqr) hqf

theorem report {d : Diagnostic} : (report d).Under Q fun _ => Q d :=
  fun hq => hq d (List.mem_singleton_self d)

theorem forM {γ : Type u} {f : γ → Expanded PUnit} {U : γ → Prop} {xs : List γ}
    (h : ∀ x ∈ xs, (f x).Under Q fun _ => U x) : (xs.forM f).Under Q fun _ => ∀ x ∈ xs, U x := by
  induction xs with
  | nil => exact pure (List.forall_mem_nil _)
  | cons x xs ih =>
    rw [List.forall_mem_cons] at h
    intro hq
    obtain ⟨hqx, hqs⟩ := List.forall_mem_append.1 hq
    exact List.forall_mem_cons.2 ⟨h.1 hqx, ih h.2 hqs⟩

end Under

end Expanded

namespace Component

/-- Where all that is reported has `Q`. -/
def granting (Q : Diagnostic → Prop) : Judgement Expanded where
  Holds V := Expanded.Under Q V
  pure := .pure
  bind := .bind

section Usage

variable {site : Site} {d : Definition} {l : Location}

theorem fail_under (problem : Problem) (message : String) :
    (fail site problem message l).Under (·.Within E) (Node.ShowsOnly E) :=
  .bind .report fun _ h => .pure (Node.showsOnly_error (h rfl))

theorem givenBy_under (as : List Attribute) :
    (givenBy site d as).Under (·.Within E) fun g => ∀ m, g = .error m → E .invalidPropType := by
  induction as with
  | nil => exact .pure nofun
  | cons a as ih =>
    have hmap (f : Given → Given) : (do return (← givenBy site d as).map f : Expanded _).Under
        (·.Within E) fun g => ∀ m, g = .error m → E .invalidPropType := by
      refine .bind ih fun g hg => .pure fun m hm => ?_
      cases g with
      | error m => exact hg m rfl
      | ok g => cases hm
    rw [givenBy]
    split
    · exact ih
    · split
      · exact hmap _
      · split
        · exact hmap _
        · dsimp only
          split
          · exact .bind .report fun _ h => .pure fun _ _ => h rfl
          · exact .bind (.any _) fun _ _ => ih

theorem mergeInto?_showsOnly {as : List Attribute} {n m : Node} (h : mergeInto? as n = some m)
    (hn : n.ShowsOnly E) : m.ShowsOnly E := by
  obtain ⟨hf, -, hl⟩ := mergeInto?_eq h
  obtain ⟨hn, hc⟩ := Node.everywhere_iff.1 hn
  exact Node.everywhere_iff.2 ⟨hf.symm ▸ hn, hl.symm ▸ hc⟩

theorem forward_under {others : List Attribute} {body : List Node}
    (hb : ∀ n ∈ body, n.ShowsOnly E) :
    (forward site d l others body).Under (·.Within E) (∀ n ∈ ·, n.ShowsOnly E) :=
  forward_holds (granting _) (fun _ => .any _) (fun _ _ _ _ => .any _)
    (fun _ _ => mergeInto?_showsOnly) hb

theorem fillBody_showsOnly {body : List Node} {content : SlotContent}
    (hb : ∀ n ∈ body, n.ShowsOnly E) (hc : content.Each (·.ShowsOnly E)) :
    ∀ n ∈ Slots.fillBody body content, n.ShowsOnly E :=
  (Slots.keeps_fillAll (fun n hn => Slots.fill_ofForms nofun (fun _ _ h => h) (hb n hn))
    content hc).1

/-- Expanding a body shows no problem outside of `E` that the body does not show. -/
def Shows (E : Problem → Prop) (inside : ExpandBody) : Prop :=
  ∀ site body, (∀ n ∈ body, n.ShowsOnly E) →
    (inside site body).Under (·.Within E) (∀ n ∈ ·, n.ShowsOnly E)

theorem useDefinition_under {inside : ExpandBody} (hi : Shows E inside) (as : List Attribute)
    {content : Expanded SlotContent} (hd : ∀ n ∈ d.nodes, n.ShowsOnly E)
    (hc : content.Under (·.Within E) (SlotContent.Each (·.ShowsOnly E))) :
    (useDefinition inside site d as content l).Under (·.Within E) (Node.ShowsOnly E) := by
  rw [useDefinition]
  refine .bind (.any _) fun _ _ => .bind (givenBy_under as) fun g hg => ?_
  split
  · exact .pure (Node.showsOnly_error (hg _ rfl))
  · dsimp only
    split
    · rw [instantiate]
      refine .bind hc fun content hc => .bind (.any _) fun _ _ => ?_
      refine .bind (forward_under (fillBody_showsOnly hd hc)) fun body hb => ?_
      refine .bind (hi _ body hb) fun children hch => .pure ?_
      exact Node.showsOnly_list rfl rfl hch
    · next names hne =>
      refine .bind (.forM fun n _ => .report) fun _ h => .pure ?_
      obtain ⟨name, hn⟩ := List.exists_mem_of_ne_nil _ (mt List.isEmpty_iff.2 hne)
      exact Node.showsOnly_error (h name hn rfl)

theorem useName_under {setting : Setting} {inside : Option ExpandBody}
    (hi : ∀ i ∈ inside, Shows E i)
    (hr : ∀ d ∈ setting.registry.components, ∀ n ∈ d.nodes, n.ShowsOnly E) (name : String)
    (as : List Attribute) {content : Expanded SlotContent}
    (hc : content.Under (·.Within E) (SlotContent.Each (·.ShowsOnly E))) :
    (useName setting inside site name as content l).Under (·.Within E) (Node.ShowsOnly E) := by
  rw [useName]
  split
  · exact fail_under _ _
  · next d hd =>
    dsimp only
    split
    · exact fail_under _ _
    · split
      · exact fail_under _ _
      · exact useDefinition_under (hi _ rfl) as (hr d (Registry.component?_mem hd)) hc

end Usage

section Expansion

variable {setting : Setting} {inside : Option ExpandBody} {site : Site}

theorem walk_showsOnly (hi : ∀ i ∈ inside, Shows E i)
    (hr : ∀ d ∈ setting.registry.components, ∀ n ∈ d.nodes, n.ShowsOnly E) :
    Walk (granting (·.Within E)) setting inside site (Node.ShowsOnly E) (Node.ShowsOnly E)
      (SlotContent.Each (·.ShowsOnly E)) where
  use _ given _ _ hc := useName_under hi hr _ given hc
  below hn _ := (Node.everywhere_iff.1 hn).2
  rebuilt hn _ _ ht hm := Node.everywhere_iff.2 ⟨ht.form.symm ▸ (Node.everywhere_iff.1 hn).1, hm⟩
  callerScope hn := hn
  content hd hp := SlotContent.ofPieces_each hd hp

variable (hr : ∀ d ∈ setting.registry.components, ∀ n ∈ d.nodes, n.ShowsOnly E)

include hr in
theorem insideBody_shows (levels : Nat) : ∀ i ∈ insideBody setting levels, Shows E i := by
  induction levels with
  | zero => nofun
  | succ levels ih =>
    intro i hi site body hb
    cases hi
    exact ((walk_showsOnly ih hr).walked hb).all

include hr in
/-- The blocks that are made where components are expanded show what is reported there. -/
theorem expandNodes_under (file : String) {ns : List Node} (h : ∀ n ∈ ns, n.ShowsOnly E) :
    (expandNodes setting file ns).Under (·.Within E) (∀ n ∈ ·, n.ShowsOnly E) :=
  ((walk_showsOnly (insideBody_shows hr setting.maxDepth) hr).walked h).all

end Expansion

end Component

end PageCompiler
