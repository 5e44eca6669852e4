import Mathlib
import PageCompiler.Live

/-!
What the steps of a live site change: starting a pass, publishing a page, compiling and processing
edits.
-/

namespace PageCompiler.Live

open Json (Object)

variable {l m : Live} {b : EditBuffer} {now ticket : Nat} {data : Object} {page : Reported Compiled}

/-- A page is published for the newest pass only, and only where no page of it is published. -/
theorem publish?_eq_some : l.publish? ticket page = some m ↔
    l.passes = ticket ∧ (∀ p ∈ l.published, p.ticket < ticket) ∧
      m = { l with published := some ⟨ticket, page⟩ } := by
  have hdone : (l.published.any fun p => decide (ticket ≤ p.ticket)) = false ↔
      ∀ p ∈ l.published, p.ticket < ticket := by
    simp [Option.any_eq_false]
  unfold publish? isCurrent
  dsimp only
  split
  · next h =>
    rw [Bool.and_eq_true, decide_eq_true_eq, Bool.not_eq_true', hdone] at h
    rw [Option.some_inj, eq_comm (a := m)]
    exact ⟨fun he => ⟨h.1, h.2, he⟩, fun he => he.2.2⟩
  · next h =>
    rw [Bool.and_eq_true, decide_eq_true_eq, Bool.not_eq_true', hdone] at h
    exact iff_of_false (Option.some_ne_none m).symm fun he => h ⟨he.1, he.2.1⟩

theorem publish?_eq_none : l.publish? ticket page = none ↔
    (l.passes = ticket → ∃ p ∈ l.published, ticket ≤ p.ticket) := by
  have hsome : l.publish? ticket page ≠ none ↔
      l.passes = ticket ∧ ∀ p ∈ l.published, p.ticket < ticket := by
    simp [Option.ne_none_iff_exists', publish?_eq_some]
  rw [← not_iff_not, ← ne_eq, hsome]
  push Not
  rfl

/-- A site when its documents have been compiled in a new pass. -/
def compiled (l : Live) (data : Object) : Live :=
  { l with
    passes := l.passes + 1
    compiler := (l.compiler.compile l.store.documents data).2 }

theorem recompile_of_error {e : CompileError}
    (h : (l.compiler.compile l.store.documents data).1 = .error e) :
    l.recompile data = (.error e, l.compiled data) := by
  simp only [recompile, begin, h, compiled]

theorem recompile_of_ok (h : (l.compiler.compile l.store.documents data).1 = .ok page) :
    l.recompile data =
      if ((l.compiled data).publish? (l.passes + 1) page).isSome then
        (.ok (some page), { l.compiled data with published := some ⟨l.passes + 1, page⟩ })
      else (.ok none, l.compiled data) := by
  simp only [recompile, begin, h]
  cases hp : (l.compiled data).publish? (l.passes + 1) page with
  | none =>
    unfold compiled at hp
    rw [hp]
    rfl
  | some m =>
    obtain ⟨-, -, rfl⟩ := publish?_eq_some.1 hp
    unfold compiled at hp
    rw [hp]
    rfl

@[simp] theorem recompile_store : (l.recompile data).2.store = l.store := by
  cases hr : (l.compiler.compile l.store.documents data).1 with
  | error e =>
    rw [recompile_of_error hr]
    rfl
  | ok page =>
    rw [recompile_of_ok hr]
    split <;> rfl

theorem processEdits_eq : l.processEdits now data b =
    if (b.drain now).1.isEmpty then (.ok none, (b.drain now).2, l)
    else
      let r := recompile data { l with store := l.store.applyEdits (b.drain now).1 }
      (r.1, (b.drain now).2, r.2) := rfl

theorem processEdits_buffer : (l.processEdits now data b).2.1 = (b.drain now).2 := by
  rw [processEdits_eq]
  split <;> rfl

theorem processEdits_store : (l.processEdits now data b).2.2.store =
    if (b.drain now).1.isEmpty then l.store else l.store.applyEdits (b.drain now).1 := by
  rw [processEdits_eq]
  split
  · rfl
  · exact recompile_store

end PageCompiler.Live
