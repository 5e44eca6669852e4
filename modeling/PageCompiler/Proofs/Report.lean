import PageCompiler.Component.Expanded
import PageCompiler.Diagnostic

/-!
Laws of results with reports, and what holds of every diagnostic of a report.
-/

namespace PageCompiler

namespace Diagnostic

@[simp] theorem stage_error (s : Stage) (p : Problem) (m : String) : (error s p m).stage = s := rfl

@[simp] theorem stage_warning (s : Stage) (p : Problem) (m : String) :
    (warning s p m).stage = s := rfl

@[simp] theorem stage_new (s : Stage) (p : Problem) (v : Severity) (m : String) :
    (new s p v m).stage = s := rfl

@[simp] theorem stage_placed (d : Diagnostic) (file : String) (l : Location) :
    (d.placed file l).stage = d.stage := rfl

@[simp] theorem stage_inFile (d : Diagnostic) (file : String) :
    (d.inFile file).stage = d.stage := rfl

@[simp] theorem stage_withHint (d : Diagnostic) (hint : String) :
    (d.withHint hint).stage = d.stage := rfl

end Diagnostic

namespace Reported

universe u

variable {α β : Type u} {P Q : Diagnostic → Prop}

theorem ext {r s : Reported α} (hv : r.value = s.value) (hd : r.diagnostics = s.diagnostics) :
    r = s := by
  cases r
  cases s
  simp_all

@[simp] theorem value_pure (a : α) : (pure a : Reported α).value = a := rfl

@[simp] theorem diagnostics_pure (a : α) : (pure a : Reported α).diagnostics = [] := rfl

@[simp] theorem value_bind (r : Reported α) (f : α → Reported β) :
    (r >>= f).value = (f r.value).value := rfl

@[simp] theorem diagnostics_bind (r : Reported α) (f : α → Reported β) :
    (r >>= f).diagnostics = r.diagnostics ++ (f r.value).diagnostics := rfl

@[simp] theorem value_map (f : α → β) (r : Reported α) : (f <$> r).value = f r.value := rfl

@[simp] theorem diagnostics_map (f : α → β) (r : Reported α) :
    (f <$> r).diagnostics = r.diagnostics := by
  show r.diagnostics ++ [] = r.diagnostics
  simp

@[simp] theorem value_all (rs : List (Reported α)) : (all rs).value = rs.map value := rfl

@[simp] theorem value_concat (rs : List (Reported (List α))) :
    (concat rs).value = rs.flatMap value := rfl

instance : LawfulMonad Reported :=
  .mk' _ (fun _ => ext rfl (by simp)) (fun _ _ => ext rfl (by simp))
    (fun _ _ _ => ext rfl (by simp))

theorem concat_eq (rs : List (Reported (List α))) : concat rs = List.flatten <$> all rs :=
  ext List.flatMap_def (by simp [concat, all])

/-- The value, if nothing is reported. -/
def clean? (r : Reported α) : Option α := if r.diagnostics = [] then some r.value else none

theorem clean?_eq_some {r : Reported α} {a : α} :
    r.clean? = some a ↔ r.diagnostics = [] ∧ r.value = a := by
  simp [clean?]

theorem isSome_clean? {r : Reported α} : r.clean?.isSome ↔ r.diagnostics = [] := by
  simp [clean?]

@[simp] theorem clean?_pure (a : α) : (pure a : Reported α).clean? = some a := rfl

@[simp] theorem clean?_report (d : Diagnostic) : (report d).clean? = none := rfl

@[simp] theorem clean?_bind (r : Reported α) (f : α → Reported β) :
    (r >>= f).clean? = r.clean?.bind fun a => (f a).clean? := by
  by_cases h : r.diagnostics = [] <;> simp [clean?, h]

@[simp] theorem clean?_map (f : α → β) (r : Reported α) : (f <$> r).clean? = r.clean?.map f := by
  by_cases h : r.diagnostics = [] <;> simp [clean?, h]

def Each (P : Diagnostic → Prop) (r : Reported α) : Prop := ∀ d ∈ r.diagnostics, P d

@[simp] theorem each_pure (a : α) : (pure a : Reported α).Each P := by simp [Each]

@[simp] theorem each_bind {r : Reported α} {f : α → Reported β} :
    (r >>= f).Each P ↔ r.Each P ∧ (f r.value).Each P := by
  simp only [Each, diagnostics_bind, List.forall_mem_append]

@[simp] theorem each_map {f : α → β} {r : Reported α} : (f <$> r).Each P ↔ r.Each P := by
  simp only [Each, diagnostics_map]

@[simp] theorem each_report {d : Diagnostic} : (report d).Each P ↔ P d := by simp [Each, report]

@[simp] theorem each_all {rs : List (Reported α)} : (all rs).Each P ↔ ∀ r ∈ rs, r.Each P := by
  simp only [Each, all, List.forall_mem_flatMap]

@[simp] theorem each_concat {rs : List (Reported (List α))} :
    (concat rs).Each P ↔ ∀ r ∈ rs, r.Each P := by
  simp only [Each, concat, List.forall_mem_flatMap]

/-- The result has the property `V`, and all diagnostics have `P`. -/
structure Sat (V : α → Prop) (P : Diagnostic → Prop) (r : Reported α) : Prop where
  value : V r.value
  each : r.Each P

variable {V : α → Prop} {W : β → Prop}

theorem Sat.pure {a : α} (h : V a) : Sat V P (Pure.pure a) := ⟨h, each_pure a⟩

theorem Sat.bind {r : Reported α} {f : α → Reported β} (hr : r.Sat V P)
    (hf : ∀ a, V a → (f a).Sat W P) : (r >>= f).Sat W P :=
  ⟨(hf _ hr.value).value, each_bind.2 ⟨hr.each, (hf _ hr.value).each⟩⟩

theorem sat_report {d : Diagnostic} (h : P d) : (report d).Sat (fun _ => True) P :=
  ⟨trivial, each_report.2 h⟩

theorem sat_all {rs : List (Reported α)} (h : ∀ r ∈ rs, r.Each P) :
    (all rs).Sat (fun _ => True) P := ⟨trivial, each_all.2 h⟩

theorem sat_concat {p : α → Prop} {rs : List (Reported (List α))}
    (h : ∀ r ∈ rs, r.Sat (∀ a ∈ ·, p a) P) : (concat rs).Sat (∀ a ∈ ·, p a) P where
  value := List.forall_mem_flatMap.2 fun r hr => (h r hr).value
  each := each_concat.2 fun r hr => (h r hr).each

/-- Where all diagnostics have `Q`, the result has `V` and the diagnostics have `P`. What is
reported may be taken for granted then in the rest of a run. -/
def SatIf (Q : Diagnostic → Prop) (V : α → Prop) (P : Diagnostic → Prop) (r : Reported α) : Prop :=
  r.Each Q → r.Sat V P

namespace SatIf

theorem of_sat {r : Reported α} (h : r.Sat V P) : r.SatIf Q V P := fun _ => h

theorem imp {P' : Diagnostic → Prop} {r : Reported α} (h : r.SatIf Q V P) (hP : ∀ d, P d → P' d) :
    r.SatIf Q V P' :=
  fun hq => ⟨(h hq).value, fun d hd => hP d ((h hq).each d hd)⟩

theorem imp_value {V' : α → Prop} {r : Reported α} (h : r.SatIf Q V P) (hV : ∀ a, V a → V' a) :
    r.SatIf Q V' P :=
  fun hq => ⟨hV _ (h hq).value, (h hq).each⟩

theorem any (r : Reported α) : r.SatIf Q (fun _ => True) fun _ => True :=
  of_sat ⟨trivial, fun _ _ => trivial⟩

theorem sat {r : Reported α} (h : r.SatIf (fun _ => True) V P) : r.Sat V P := h fun _ _ => trivial

theorem pure {a : α} (h : V a) : SatIf Q V P (Pure.pure a) := of_sat (.pure h)

theorem bind {r : Reported α} {f : α → Reported β} (hr : r.SatIf Q V P)
    (hf : ∀ a, V a → (f a).SatIf Q W P) : (r >>= f).SatIf Q W P := by
  intro hq
  obtain ⟨hqr, hqf⟩ := each_bind.1 hq
  obtain ⟨hv, hp⟩ := hr hqr
  obtain ⟨hw, hp'⟩ := hf _ hv hqf
  exact ⟨hw, each_bind.2 ⟨hp, hp'⟩⟩

theorem report {d : Diagnostic} (h : P d) : (report d).SatIf Q (fun _ => Q d) P :=
  fun hq => ⟨each_report.1 hq, each_report.2 h⟩

theorem reports {ds : List Diagnostic} (h : ∀ d ∈ ds, P d) :
    (ds.forM PageCompiler.report).SatIf Q (fun _ => ∀ d ∈ ds, Q d) P := by
  induction ds with
  | nil => exact pure (List.forall_mem_nil _)
  | cons d ds ih =>
    rw [List.forall_mem_cons] at h
    refine bind (report h.1) fun _ hd hq => ?_
    obtain ⟨hds, hp⟩ := ih h.2 hq
    exact ⟨List.forall_mem_cons.2 ⟨hd, hds⟩, hp⟩

theorem foldlM {γ : Type u} {f : α → γ → Reported α} {xs : List γ} {a : α} (ha : V a)
    (hf : ∀ a, V a → ∀ x ∈ xs, (f a x).SatIf Q V P) : (xs.foldlM f a).SatIf Q V P := by
  induction xs generalizing a with
  | nil => exact pure ha
  | cons x xs ih =>
    rw [List.foldlM_cons]
    exact bind (hf a ha x List.mem_cons_self) fun b hb =>
      ih hb fun a ha y hy => hf a ha y (List.mem_cons_of_mem x hy)

theorem concat {p : α → Prop} {rs : List (Reported (List α))}
    (h : ∀ r ∈ rs, r.SatIf Q (∀ a ∈ ·, p a) P) : (concat rs).SatIf Q (∀ a ∈ ·, p a) P :=
  fun hq => sat_concat fun r hr => h r hr (each_concat.1 hq r hr)

end SatIf

theorem sat_reports {ds : List Diagnostic} (h : ∀ d ∈ ds, P d) :
    (ds.forM report).Sat (fun _ => True) P :=
  ⟨trivial, (SatIf.reports h).sat.each⟩

/-- Where all diagnostics have `Q` the result has `V`. -/
abbrev Under (Q : Diagnostic → Prop) (V : α → Prop) : Reported α → Prop := SatIf Q V fun _ => True

theorem SatIf.under {r : Reported α} (h : r.SatIf Q V P) : r.Under Q V :=
  fun hq => ⟨(h hq).value, fun _ _ => trivial⟩

/-- Where nothing is reported the result has `V`. -/
abbrev Quiet (V : α → Prop) : Reported α → Prop := Under (fun _ => False) V

theorem Quiet.of_clean? {r : Reported α} {a : α} (h : r.Quiet V) (hr : r.clean? = some a) :
    V a := by
  obtain ⟨hd, rfl⟩ := clean?_eq_some.1 hr
  exact (h fun d hmem => by simp [hd] at hmem).value

theorem quiet_report_bind (d : Diagnostic) (f : PUnit → Reported α) :
    (report d >>= f).Quiet V :=
  .bind (.report trivial) fun _ h => h.elim

end Reported

namespace Expanded

universe u

variable {α β : Type u} {V : α → Prop} {W : β → Prop} {P : Diagnostic → Prop}

theorem value_bind (r : Expanded α) (f : α → Expanded β) : (r >>= f).value = (f r.value).value :=
  rfl

theorem diagnostics_bind (r : Expanded α) (f : α → Expanded β) :
    (r >>= f).diagnostics = r.diagnostics ++ (f r.value).diagnostics :=
  rfl

structure Sat (V : α → Prop) (P : Diagnostic → Prop) (r : Expanded α) : Prop where
  value : V r.value
  each : ∀ d ∈ r.diagnostics, P d

theorem Sat.pure {a : α} (h : V a) : Sat V P (Pure.pure a) := ⟨h, List.forall_mem_nil _⟩

theorem Sat.bind {r : Expanded α} {f : α → Expanded β} (hr : r.Sat V P)
    (hf : ∀ a, V a → (f a).Sat W P) : (r >>= f).Sat W P where
  value := (hf _ hr.value).value
  each := List.forall_mem_append.2 ⟨hr.each, (hf _ hr.value).each⟩

theorem sat_use {name : String} : (use name).Sat (fun _ => True) P :=
  ⟨trivial, List.forall_mem_nil _⟩

theorem sat_report {d : Diagnostic} (h : P d) : (report d).Sat (fun _ => True) P :=
  ⟨trivial, List.forall_mem_singleton.2 h⟩

theorem sat_forM {γ : Type u} {f : γ → Expanded PUnit} {xs : List γ}
    (h : ∀ x ∈ xs, (f x).Sat (fun _ => True) P) : (xs.forM f).Sat (fun _ => True) P := by
  induction xs with
  | nil => exact .pure trivial
  | cons x xs ih =>
    rw [List.forall_mem_cons] at h
    exact .bind h.1 fun _ _ => ih h.2

end Expanded

end PageCompiler
