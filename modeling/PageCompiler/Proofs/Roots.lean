import PageCompiler.Expr.Basic

/-!
The value of an expression depends on its roots only. Main statement: it is the same under bindings
that agree on the roots, and it exists if these are bound. What a failure reports is a root without
a value, and the failure stays as long as that root has none.
-/

namespace PageCompiler.Expr

open Json (Value)

theorem evaluate_congr_idents {f g : String → Option Value} {e : Expr}
    (h : ∀ name ∈ e.idents, f name = g name) : e.evaluate f = e.evaluate g := by
  induction e with
  | literal value => rfl
  | ident name => simp [evaluate, h name (by simp [idents])]
  | field base name ih => simp [evaluate, ih h]
  | call base method ih => simp [evaluate, ih h]
  | not operand ih => simp [evaluate, ih h]
  | index base position ihb ihp | compare op base position ihb ihp | and base position ihb ihp
  | or base position ihb ihp =>
    rw [idents, List.forall_mem_append] at h
    simp [evaluate, ihb h.1, ihp h.2]

theorem evaluate_congr {f g : String → Option Value} {e : Expr}
    (h : ∀ name ∈ e.roots, f name = g name) : e.evaluate f = e.evaluate g :=
  evaluate_congr_idents fun name hn => h name (List.mem_eraseDups.2 hn)

theorem exists_evaluate_of_idents {f : String → Option Value} {e : Expr}
    (h : ∀ name ∈ e.idents, (f name).isSome) : ∃ v, e.evaluate f = .ok v := by
  induction e with
  | literal value => exact ⟨value, rfl⟩
  | ident name =>
    obtain ⟨v, hv⟩ := Option.isSome_iff_exists.1 (h name (by simp [idents]))
    exact ⟨v, by rw [evaluate, hv]⟩
  | field base name ih | call base method ih | not operand ih =>
    obtain ⟨v, hv⟩ := ih h
    exact ⟨_, by rw [evaluate, hv]; rfl⟩
  | index left right ihl ihr | compare op left right ihl ihr =>
    rw [idents, List.forall_mem_append] at h
    obtain ⟨v, hv⟩ := ihl h.1
    obtain ⟨w, hw⟩ := ihr h.2
    exact ⟨_, by rw [evaluate, hv, hw]; rfl⟩
  | and left right ihl ihr | or left right ihl ihr =>
    rw [idents, List.forall_mem_append] at h
    obtain ⟨v, hv⟩ := ihl h.1
    obtain ⟨w, hw⟩ := ihr h.2
    rw [evaluate, hv, hw]
    cases hb : v.isTruthy <;> exact ⟨_, by simp [bind, Except.bind, hb]; rfl⟩

/-- An expression has a value where its roots are bound. -/
theorem exists_evaluate {f : String → Option Value} {e : Expr}
    (h : ∀ name ∈ e.roots, (f name).isSome) : ∃ v, e.evaluate f = .ok v :=
  exists_evaluate_of_idents fun name hn => h name (List.mem_eraseDups.2 hn)

/-! ### Failures -/

section Sequence

variable {α β : Type} {x y : Except Unresolved α} {k l : α → Except Unresolved β} {u : Unresolved}

/-- Two steps fail because one of them does. -/
theorem of_bind_eq_error {p : Prop} (h : x >>= k = .error u) (hx : x = .error u → p)
    (hk : ∀ a, k a = .error u → p) : p := by
  cases x with
  | error w =>
    cases h
    exact hx rfl
  | ok a => exact hk a h

/-- Two steps give the same again if each of them does, as far as it is taken and `p` holds of its
failures. -/
theorem bind_eq_of {p : Unresolved → Prop} (h : ∀ u, x >>= k = .error u → p u)
    (hx : (∀ u, x = .error u → p u) → y = x)
    (hk : ∀ a, (∀ u, k a = .error u → p u) → l a = k a) : y >>= l = x >>= k := by
  cases x with
  | error w =>
    have hw : ∀ u, Except.error (α := α) w = .error u → p u := by
      rintro u ⟨⟩
      exact h w rfl
    rw [hx hw]
    rfl
  | ok a =>
    rw [hx nofun]
    exact hk a h

end Sequence

/-- What is bound in `f` is bound in `g`, and to the same value. -/
def Extends (g f : String → Option Value) : Prop := ∀ name v, f name = some v → g name = some v

variable {f g : String → Option Value} {u : Unresolved} {e : Expr}

theorem unbound_of_evaluate_idents (h : e.evaluate f = .error u) :
    u.name ∈ e.idents ∧ f u.name = none := by
  have inLeft {as bs : List String} (h : u.name ∈ as ∧ f u.name = none) :
      u.name ∈ as ++ bs ∧ f u.name = none := ⟨List.mem_append_left bs h.1, h.2⟩
  have inRight {as bs : List String} (h : u.name ∈ bs ∧ f u.name = none) :
      u.name ∈ as ++ bs ∧ f u.name = none := ⟨List.mem_append_right as h.1, h.2⟩
  induction e with
  | literal value => cases h
  | ident name =>
    rw [evaluate] at h
    split at h
    · cases h
    · next hn =>
      cases h
      exact ⟨List.mem_singleton_self _, hn⟩
  | field base name ih | call base method ih | not operand ih =>
    exact of_bind_eq_error h ih fun _ => nofun
  | index left right ihl ihr | compare op left right ihl ihr =>
    apply of_bind_eq_error h fun hl => inLeft (ihl hl)
    intro v hv
    exact of_bind_eq_error hv (fun hr => inRight (ihr hr)) fun _ => nofun
  | and left right ihl ihr =>
    apply of_bind_eq_error h fun hl => inLeft (ihl hl)
    intro v hv
    split at hv
    · exact of_bind_eq_error hv (fun hr => inRight (ihr hr)) fun _ => nofun
    · cases hv
  | or left right ihl ihr =>
    apply of_bind_eq_error h fun hl => inLeft (ihl hl)
    intro v hv
    split at hv
    · cases hv
    · exact of_bind_eq_error hv (fun hr => inRight (ihr hr)) fun _ => nofun

/-- The name that a failure reports is a root without a value. -/
theorem unbound_of_evaluate (h : e.evaluate f = .error u) : u.name ∈ e.roots ∧ f u.name = none :=
  ⟨List.mem_eraseDups.2 (unbound_of_evaluate_idents h).1, (unbound_of_evaluate_idents h).2⟩

/-- More bindings change nothing, unless there is one of the name whose value was missing. -/
theorem evaluate_of_extends (hg : Extends g f)
    (h : ∀ u, e.evaluate f = .error u → g u.name = none) : e.evaluate g = e.evaluate f := by
  induction e with
  | literal value => rfl
  | ident name =>
    cases hf : f name with
    | some v => rw [evaluate, evaluate, hf, hg name v hf]
    | none =>
      have hn : g name = none := h ⟨name⟩ (by rw [evaluate, hf])
      rw [evaluate, evaluate, hf, hn]
  | field base name ih | call base method ih | not operand ih =>
    exact bind_eq_of h ih fun _ _ => rfl
  | index left right ihl ihr | compare op left right ihl ihr =>
    apply bind_eq_of h ihl
    intro v hv
    exact bind_eq_of hv ihr fun _ _ => rfl
  -- the right operand is evaluated under both bindings or under none
  | and left right ihl ihr =>
    apply bind_eq_of h ihl
    intro v hv
    split
    · next hb =>
      rw [if_pos hb] at hv
      exact bind_eq_of hv ihr fun _ _ => rfl
    · rfl
  | or left right ihl ihr =>
    apply bind_eq_of h ihl
    intro v hv
    split
    · rfl
    · next hb =>
      rw [if_neg hb] at hv
      exact bind_eq_of hv ihr fun _ _ => rfl

/-- An expression has the same value under bindings that agree on its roots, and it has one if all
of its roots are bound. What a failure reports is a root without a value, and other bindings besides
those that there are do not change it. -/
theorem evaluate_depends_on_roots (e : Expr) (f : String → Option Value) :
    (∀ g, (∀ name ∈ e.roots, f name = g name) → e.evaluate f = e.evaluate g) ∧
    ((∀ name ∈ e.roots, (f name).isSome) → ∃ v, e.evaluate f = .ok v) ∧
    ∀ u, e.evaluate f = .error u → u.name ∈ e.roots ∧ f u.name = none ∧
      ∀ g, Extends g f → g u.name = none → e.evaluate g = .error u := by
  refine ⟨fun g => evaluate_congr, exists_evaluate, ?_⟩
  intro u h
  obtain ⟨hroot, hnone⟩ := unbound_of_evaluate h
  refine ⟨hroot, hnone, ?_⟩
  intro g hg hu
  have hkept : ∀ w, e.evaluate f = .error w → g w.name = none := by
    intro w hw
    cases h.symm.trans hw
    exact hu
  rw [evaluate_of_extends hg hkept, h]

/-- One root is left out of the evaluation, and the next one fails: with a value for the first one
it fails as before, and with values for both it does not. -/
theorem evaluate_depends_on_roots_skipped :
    let e : Expr := .or (.and (.ident "user") (.ident "ghost")) (.ident "page")
    let f := Json.Object.get? [("user", .null)]
    let g := Json.Object.get? [("ghost", .bool true), ("user", .null)]
    let all := Json.Object.get? [("ghost", .bool true), ("page", .number 1), ("user", .null)]
    let more := Json.Object.get? [("ghost", .bool true), ("page", .number 1), ("title", .null),
      ("user", .null)]
    Extends g f ∧ e.evaluate f = .error ⟨"page"⟩ ∧ e.evaluate g = .error ⟨"page"⟩ ∧
      e.evaluate all = e.evaluate more ∧ ∃ v, e.evaluate all = .ok v := by
  intro e f g all more
  have hroots : e.roots = ["user", "ghost", "page"] := by decide
  have hextends : Extends g f := by
    intro name v h
    by_cases hn : name = "user"
    · subst hn
      exact h
    · have hf : f name = none := by
        simp [f, Json.Object.get?, List.lookup_cons, beq_false_of_ne hn]
      cases hf.symm.trans h
  have hagree : ∀ name ∈ e.roots, all name = more name := by
    rw [hroots]
    simp [all, more, Json.Object.get?, List.lookup_cons]
  have hbound : ∀ name ∈ e.roots, (all name).isSome := by
    rw [hroots]
    simp [all, Json.Object.get?, List.lookup_cons]
  obtain ⟨-, -, hfails⟩ := evaluate_depends_on_roots e f
  obtain ⟨hcongr, hexists, -⟩ := evaluate_depends_on_roots e all
  exact ⟨hextends, rfl, (hfails ⟨"page"⟩ rfl).2.2 g hextends rfl, hcongr more hagree,
    hexists hbound⟩

end PageCompiler.Expr
