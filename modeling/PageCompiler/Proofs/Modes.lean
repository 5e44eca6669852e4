import PageCompiler.Proofs.Pass
import PageCompiler.Proofs.Tree

/-!
One page compiled in two modes. The runs can differ only behind a report that both of them make.
Main statement: strict mode accepts what lenient mode compiles without a report, and makes the same
of it.
-/

namespace PageCompiler

open Json (Value Object)

namespace Reported

universe u

variable {α β γ : Type u} {r s : Reported α}

/-- Two runs are the same, or something is reported in both. -/
def Agrees (r s : Reported α) : Prop := r = s ∨ r.diagnostics ≠ [] ∧ s.diagnostics ≠ []

namespace Agrees

@[refl] theorem refl (r : Reported α) : r.Agrees r := .inl rfl

theorem bind {f g : α → Reported β} (h : r.Agrees s) (hf : ∀ a, (f a).Agrees (g a)) :
    (r >>= f).Agrees (s >>= g) := by
  obtain rfl | ⟨hr, hs⟩ := h
  · obtain he | ⟨hf, hg⟩ := hf r.value
    · left
      apply ext
      · simp [he]
      · simp [he]
    · right
      simp [hf, hg]
  · right
    simp [hr, hs]

theorem map {f : α → β} (h : r.Agrees s) : (f <$> r).Agrees (f <$> s) := by
  obtain rfl | ⟨hr, hs⟩ := h
  · rfl
  · right
    simp [hr, hs]

theorem all {xs : List γ} {f g : γ → Reported α} (h : ∀ x ∈ xs, (f x).Agrees (g x)) :
    (Reported.all (xs.map f)).Agrees (Reported.all (xs.map g)) := by
  by_cases he : ∀ x ∈ xs, f x = g x
  · left
    rw [List.map_congr_left he]
  · obtain ⟨x, hx, hne⟩ : ∃ x ∈ xs, f x ≠ g x := by simpa using he
    obtain ⟨hf, hg⟩ := (h x hx).resolve_left hne
    right
    simp only [Reported.all, ne_eq, List.flatMap_eq_nil_iff, List.forall_mem_map]
    exact ⟨fun hn => hf (hn x hx), fun hn => hg (hn x hx)⟩

theorem concat {xs : List γ} {f g : γ → Reported (List α)} (h : ∀ x ∈ xs, (f x).Agrees (g x)) :
    (Reported.concat (xs.map f)).Agrees (Reported.concat (xs.map g)) := by
  simp only [concat_eq]
  exact map (all h)

theorem diagnostics_eq_nil (h : r.Agrees s) : r.diagnostics = [] ↔ s.diagnostics = [] := by
  obtain rfl | ⟨hr, hs⟩ := h
  · rfl
  · simp [hr, hs]

theorem eq_of_nil (h : r.Agrees s) (hr : r.diagnostics = []) : r = s :=
  h.resolve_right fun hn => hn.1 hr

end Agrees

end Reported

section Resolver

variable {m m' : Mode} {stage : Stage} {file : String} {l : Location}

namespace Resolver

/-- A name that is bound nowhere is reported in every mode. -/
theorem reportUnresolved_ne (r : Resolver) (u : Unresolved) (l : Location) :
    (r.reportUnresolved u l).diagnostics ≠ [] := by
  unfold reportUnresolved
  split <;> exact List.cons_ne_nil _ _

theorem reportUnresolved_agrees (u : Unresolved) :
    ((mk m stage file).reportUnresolved u l).Agrees ((mk m' stage file).reportUnresolved u l) :=
  .inr ⟨reportUnresolved_ne _ u l, reportUnresolved_ne _ u l⟩

theorem expression_agrees (lookup : String → Option Value) (e : Expr) (code raw : String) :
    ((mk m stage file).expression lookup e code raw l).Agrees
      ((mk m' stage file).expression lookup e code raw l) := by
  unfold expression
  cases e.evaluate lookup with
  | ok v => rfl
  | error u =>
    right
    constructor
    · cases m <;> simp [failHere, fail, report, reportUnresolved]
    · cases m' <;> simp [failHere, fail, report, reportUnresolved]

theorem unresolvedText_agrees (code : String) (u : Unresolved) :
    ((mk m stage file).unresolvedText code u l).Agrees
      ((mk m' stage file).unresolvedText code u l) := by
  right
  simp [unresolvedText, reportUnresolved_ne]

theorem part_agrees (b : Bindings) (p : Part) :
    ((mk m stage file).part b l p).Agrees ((mk m' stage file).part b l p) := by
  cases p with
  | text t => rfl
  | expression code =>
    have hr : (mk m' stage file).resolve b code = (mk m stage file).resolve b code := rfl
    simp only [part, hr]
    cases (mk m stage file).resolve b code with
    | kept | invalid e | value v => rfl
    | unresolved u => exact (unresolvedText_agrees code u).bind fun _ => .refl _

theorem attributeValue?_agrees (b : Bindings) (v : AttributeValue) :
    ((mk m stage file).attributeValue? b l v).Agrees
      ((mk m' stage file).attributeValue? b l v) := by
  cases v with
  | static t | bare => rfl
  | interpolated parts =>
    exact (Reported.Agrees.all fun p _ => part_agrees b p).bind fun _ => .refl _
  | expression code =>
    have hr : (mk m' stage file).resolve b code = (mk m stage file).resolve b code := rfl
    simp only [attributeValue?, hr]
    cases (mk m stage file).resolve b code with
    | kept | invalid e => rfl
    | value v =>
      cases v with
      | bool b => cases b <;> rfl
      | null | number n | string s | array items | object members => rfl
    | unresolved u => exact (unresolvedText_agrees code u).bind fun _ => .refl _

theorem attributes_agrees (b : Bindings) (as : List Attribute) :
    ((mk m stage file).attributes b as).Agrees ((mk m' stage file).attributes b as) :=
  .concat fun a _ => (attributeValue?_agrees b a.value).bind fun _ => .refl _

end Resolver

end Resolver

namespace ControlFlow

variable {m m' : Mode} {stage : Stage} {file : String} {s : Scope} {l : Location}

theorem writtenValue_agrees (prop : String) (v : AttributeValue) :
    (writtenValue ⟨m, stage, file⟩ s prop l v).Agrees
      (writtenValue ⟨m', stage, file⟩ s prop l v) := by
  cases v with
  | static t | bare => rfl
  | interpolated parts =>
    exact (Resolver.attributeValue?_agrees _ _).bind fun _ => .refl _
  | expression code =>
    rw [writtenValue, writtenValue]
    cases Expr.parse code with
    | error e => rfl
    | ok e =>
      dsimp only
      cases e.evaluate s.get? with
      | ok v => rfl
      | error u => exact (Resolver.reportUnresolved_agrees u).bind fun _ => .refl _

theorem boundProp_agrees (component : String) (b : PropBinding) :
    (boundProp ⟨m, stage, file⟩ s component l b).Agrees
      (boundProp ⟨m', stage, file⟩ s component l b) := by
  unfold boundProp
  split
  · rfl
  · exact (writtenValue_agrees b.name _).bind fun _ => .refl _

theorem expandAll_agrees {ns : List Node}
    (h : ∀ n ∈ ns, (expand ⟨m, stage, file⟩ s n).Agrees (expand ⟨m', stage, file⟩ s n)) :
    (expandAll ⟨m, stage, file⟩ s ns).Agrees (expandAll ⟨m', stage, file⟩ s ns) := by
  induction ns with
  | nil => rfl
  | cons n ns ih =>
    rw [List.forall_mem_cons] at h
    rw [expandAll, expandAll]
    exact h.1.bind fun _ => (ih h.2).bind fun _ => .refl _

theorem expandBranches_agrees {bs : List (String × List Node)}
    (h : ∀ b ∈ bs, ∀ n ∈ b.2,
      (expand ⟨m, stage, file⟩ s n).Agrees (expand ⟨m', stage, file⟩ s n)) :
    (expandBranches ⟨m, stage, file⟩ s l bs).Agrees (expandBranches ⟨m', stage, file⟩ s l bs) := by
  induction bs with
  | nil => rfl
  | cons b bs ih =>
    rw [List.forall_mem_cons] at h
    rw [expandBranches, expandBranches]
    -- whether a condition holds does not depend on the mode
    refine Reported.Agrees.bind (.refl _) fun c => ?_
    split
    · exact (expandAll_agrees h.1).bind fun _ => .refl _
    · exact ih h.2

theorem expand_agrees (s : Scope) (n : Node) :
    (expand ⟨m, stage, file⟩ s n).Agrees (expand ⟨m', stage, file⟩ s n) := by
  induction n generalizing s with
  | loop item source body d l ih =>
    rw [expand, expand]
    cases collection s source d with
    | ok items => exact .concat fun frame _ => expandAll_agrees fun n hn => ih n hn frame
    | error e => rfl
  | conditional branches alternate d l ihb iha =>
    have hbs := expandBranches_agrees (l := l) fun b hb n hn => ihb b hb n hn s
    cases alternate with
    | none =>
      rw [expand, expand]
      exact hbs.bind fun _ => .refl _
    | some alternate =>
      rw [expand, expand]
      refine hbs.bind fun taken => ?_
      cases taken with
      | some nodes => rfl
      | none => exact expandAll_agrees fun n hn => iha alternate rfl n hn s
  | isolated component bindings children l ih =>
    rw [expand, expand]
    refine (Reported.Agrees.all fun b _ => boundProp_agrees component b).bind fun props => ?_
    exact expandAll_agrees fun n hn => ih n hn _
  | callerScope children ih =>
    rw [expand, expand]
    exact expandAll_agrees fun n hn => ih n hn _
  | expression code raw l =>
    rw [expand, expand]
    cases Expr.parse code with
    | error e => rfl
    | ok e =>
      dsimp only
      split
      · exact (Resolver.expression_agrees _ e code raw).bind fun _ => .refl _
      · rfl
  | element tag as children closing l ih =>
    rw [expand, expand]
    refine (Resolver.attributes_agrees _ as).bind fun _ => ?_
    exact (expandAll_agrees fun n hn => ih n hn s).bind fun _ => .refl _
  | component name as children l ih =>
    rw [expand, expand]
    exact (expandAll_agrees fun n hn => ih n hn s).bind fun _ => .refl _
  | slot name fallback l ih =>
    rw [expand, expand]
    exact (expandAll_agrees fun n hn => ih n hn s).bind fun _ => .refl _
  | island strategy script children l ih =>
    rw [expand, expand]
    exact (expandAll_agrees fun n hn => ih n hn s).bind fun _ => .refl _
  | text | comment | doctype | error => rfl

end ControlFlow

namespace Interpolation

variable {m m' : Mode} {stage : Stage} {file : String} {data : Object}

theorem resolveAttributes_agrees (own : IslandNames) (as : List Attribute) :
    (resolveAttributes ⟨m, stage, file⟩ data own as).Agrees
      (resolveAttributes ⟨m', stage, file⟩ data own as) :=
  .concat fun a _ => by
    split
    · rfl
    · exact Resolver.attributes_agrees _ _

theorem resolveAll_agrees {own : IslandNames} {ns : List Node}
    (h : ∀ n ∈ ns, (resolve ⟨m, stage, file⟩ data own n).Agrees
      (resolve ⟨m', stage, file⟩ data own n)) :
    (resolveAll ⟨m, stage, file⟩ data own ns).Agrees
      (resolveAll ⟨m', stage, file⟩ data own ns) := by
  induction ns with
  | nil => rfl
  | cons n ns ih =>
    rw [List.forall_mem_cons] at h
    rw [resolveAll, resolveAll]
    exact h.1.bind fun _ => (ih h.2).bind fun _ => .refl _

theorem resolveBranches_agrees {own : IslandNames} {bs : List (String × List Node)}
    (h : ∀ b ∈ bs, ∀ n ∈ b.2, (resolve ⟨m, stage, file⟩ data own n).Agrees
      (resolve ⟨m', stage, file⟩ data own n)) :
    (resolveBranches ⟨m, stage, file⟩ data own bs).Agrees
      (resolveBranches ⟨m', stage, file⟩ data own bs) := by
  induction bs with
  | nil => rfl
  | cons b bs ih =>
    rw [List.forall_mem_cons] at h
    rw [resolveBranches, resolveBranches]
    exact (resolveAll_agrees h.1).bind fun _ => (ih h.2).bind fun _ => .refl _

theorem resolve_agrees (own : IslandNames) (n : Node) :
    (resolve ⟨m, stage, file⟩ data own n).Agrees (resolve ⟨m', stage, file⟩ data own n) := by
  induction n generalizing own with
  | expression code raw l =>
    rw [resolve, resolve]
    cases Expr.parse code with
    | error e => rfl
    | ok e =>
      dsimp only
      split
      · rfl
      · exact Resolver.expression_agrees _ e code raw
  | element tag as children closing l ih =>
    rw [resolve, resolve]
    refine (resolveAttributes_agrees own as).bind fun _ => ?_
    exact (resolveAll_agrees fun n hn => ih n hn own).bind fun _ => .refl _
  | island strategy script children l ih =>
    rw [resolve, resolve]
    exact (resolveAll_agrees fun n hn => ih n hn _).bind fun _ => .refl _
  | conditional branches alternate d l ihb iha =>
    rw [resolve, resolve]
    refine (resolveBranches_agrees fun b hb n hn => ihb b hb n hn own).bind fun _ => ?_
    cases alternate with
    | none => rfl
    | some nodes =>
      exact (resolveAll_agrees fun n hn => iha nodes rfl n hn own).bind fun _ => .refl _
  | component _ _ _ _ ih | slot _ _ _ ih | loop _ _ _ _ _ ih | isolated _ _ _ _ ih
  | callerScope _ ih =>
    rw [resolve, resolve]
    exact (resolveAll_agrees fun n hn => ih n hn own).bind fun _ => .refl _
  | text | comment | doctype | error => rfl

theorem metadata_agrees (value : AttributeValue) :
    (metadata m data file value).Agrees (metadata m' data file value) :=
  (Resolver.attributeValue?_agrees _ value).bind fun _ => .refl _

end Interpolation

section Page

variable {m m' : Mode} {data : Object} {file : String}

theorem evaluateNodes_agrees (ns : List Node) :
    (evaluateNodes m data file ns).Agrees (evaluateNodes m' data file ns) :=
  (ControlFlow.expandAll_agrees fun n _ => ControlFlow.expand_agrees _ n).bind fun _ =>
    Interpolation.resolveAll_agrees fun n _ => Interpolation.resolve_agrees none n

theorem finishNodes_agrees (ns : List Node) :
    (finishNodes m data file ns).Agrees (finishNodes m' data file ns) :=
  (evaluateNodes_agrees ns).bind fun _ => .refl _

theorem titleOf_agrees (o : Options) (t : Template) :
    (titleOf { o with mode := m } data file t).Agrees
      (titleOf { o with mode := m' } data file t) := by
  unfold titleOf
  split
  · exact Interpolation.metadata_agrees _
  · rfl

theorem descriptionOf_agrees (o : Options) (t : Template) :
    (descriptionOf { o with mode := m } data file t).Agrees
      (descriptionOf { o with mode := m' } data file t) := by
  unfold descriptionOf
  split
  · exact (Interpolation.metadata_agrees _).bind fun _ => .refl _
  · rfl

theorem compilePage_agrees (o : Options) (registry : Registry) (page : Page) :
    (compilePage { o with mode := m } data registry page).Agrees
      (compilePage { o with mode := m' } data registry page) := by
  unfold compilePage
  refine Reported.Agrees.bind (.refl _) fun _ => .bind (.refl _) fun arranged => ?_
  refine .bind (finishNodes_agrees _) fun _ => ?_
  refine .bind (titleOf_agrees o _) fun title => ?_
  exact .bind (descriptionOf_agrees o _) fun _ => .refl _

namespace Compiler

variable {documents : List Document}

/-- The compiler with the mode `m` in place of its own. -/
def inMode (c : Compiler) (m : Mode) : Compiler := { c with options := { c.options with mode := m } }

@[simp] theorem inMode_mode (c : Compiler) (m : Mode) : (c.inMode m).options.mode = m := rfl

@[simp] theorem inMode_cache (c : Compiler) (m : Mode) : (c.inMode m).cache = c.cache := rfl

theorem pageReport_agrees (c : Compiler) (d : Reported Discovery) (selected : Option Page) :
    (pageReport (c.inMode m).options data d selected).Agrees
      (pageReport (c.inMode m').options data d selected) := by
  unfold pageReport
  refine .bind (.refl _) fun d => .bind (.refl _) fun page => ?_
  exact compilePage_agrees c.options d.registry page

theorem judge_strict {r page : Reported Compiled} :
    judge .strict r = .ok page ↔ r = page ∧ r.diagnostics = [] := by
  unfold judge
  by_cases hn : r.diagnostics = []
  · simp [hn]
  · simp [hn]

theorem judge_lenient (r : Reported Compiled) : judge .lenient r = .ok r := rfl

/-- Strict mode has a page exactly where lenient mode has it without a report, and it is the same
page then, whatever is remembered of earlier passes. -/
theorem compile_strict_iff (c : Compiler) (documents : List Document) (data : Object)
    (page : Reported Compiled) :
    ((c.inMode .strict).compile documents data).1 = .ok page ↔
      ((c.inMode .lenient).compile documents data).1 = .ok page ∧ page.diagnostics = [] := by
  cases hs : selectPage c.options (discover c.cache documents).value with
  | error e =>
    rw [compile_of_error (c := c.inMode .strict) hs, compile_of_error (c := c.inMode .lenient) hs]
    simp
  | ok selected =>
    rw [compile_of_ok (c := c.inMode .strict) hs, compile_of_ok (c := c.inMode .lenient) hs]
    dsimp only [inMode_mode, inMode_cache]
    have h := @pageReport_agrees .strict .lenient data c (discover c.cache documents) selected
    rw [judge_strict, judge_lenient, Except.ok.injEq]
    constructor
    · rintro ⟨rfl, hn⟩
      exact ⟨(h.eq_of_nil hn).symm, hn⟩
    · rintro ⟨rfl, hn⟩
      have hn' := h.diagnostics_eq_nil.2 hn
      exact ⟨h.eq_of_nil hn', hn'⟩

end Compiler

end Page

end PageCompiler
