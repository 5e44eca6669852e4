import PageCompiler.Proofs.Traversal

/-!
Runs that add something to a state, and what their results tell of what they add. What a run over a
list adds is put together from what its steps add, and so for the lists of a tree.
-/

namespace PageCompiler

universe u

variable {σ α β γ δ : Type u}

/-- A list that is put together from what each of `as` gives along with its result. -/
inductive Gather (V : α → β → List γ → Prop) : List α → List β → List γ → Prop
  | nil : Gather V [] [] []
  | cons : V a b new → Gather V as bs more → Gather V (a :: as) (b :: bs) (new ++ more)

/-- What can be read off each result can be read off all of them. -/
theorem Gather.flatMap {V : α → β → List γ → Prop} {as : List α} {bs : List β} {new : List γ}
    {f : β → List δ} {g : γ → List δ} (h : Gather V as bs new)
    (hv : ∀ a ∈ as, ∀ b new, V a b new → f b = new.flatMap g) : bs.flatMap f = new.flatMap g := by
  induction h with
  | nil => rfl
  | cons hab _ ih =>
    rw [List.forall_mem_cons] at hv
    rw [List.flatMap_cons, List.flatMap_append, hv.1 _ _ hab, ih hv.2]

/-- Additions to a state that follow one another are one addition. -/
class Accumulates (R : σ → List γ → σ → Prop) : Prop where
  nil (s : σ) : R s [] s
  append {s t u : σ} {new more : List γ} : R s new t → R t more u → R s (new ++ more) u

variable {R : σ → List γ → σ → Prop} {V : α → List γ → Prop} {W : β → List γ → Prop}

/-- The run adds something to the state, and `V` holds of its result and of what it adds. -/
def Emits (R : σ → List γ → σ → Prop) (V : α → List γ → Prop) (x : StateM σ α) : Prop :=
  ∀ s, ∃ new, R s new (x.run s).2 ∧ V (x.run s).1 new

theorem Emits.imp {U : α → List γ → Prop} {x : StateM σ α} (hx : Emits R U x)
    (h : ∀ a new, U a new → V a new) : Emits R V x := by
  intro s
  obtain ⟨new, hr, hu⟩ := hx s
  exact ⟨new, hr, h _ _ hu⟩

/-- It is enough to know the run behind `x` for each state. -/
theorem Emits.run_bind {x : StateM σ α} {f : α → StateM σ β}
    (h : ∀ s, ∃ new, R s new ((f (x.run s).1).run (x.run s).2).2 ∧
      W ((f (x.run s).1).run (x.run s).2).1 new) : Emits R W (x >>= f) := h

variable [Accumulates R]

theorem Emits.pure {a : α} (h : V a []) : Emits R V (Pure.pure a) :=
  fun s => ⟨[], Accumulates.nil s, h⟩

theorem Emits.bind {x : StateM σ α} {f : α → StateM σ β} (hx : Emits R V x)
    (hf : ∀ a new, V a new → Emits R (fun b more => W b (new ++ more)) (f a)) :
    Emits R W (x >>= f) := by
  intro s
  obtain ⟨new, hr, hv⟩ := hx s
  obtain ⟨more, hr', hw⟩ := hf _ _ hv _
  exact ⟨new ++ more, Accumulates.append hr hr', hw⟩

theorem Steps.emits {V : α → β → List γ → Prop} {f : α → StateM σ β} {as : List α} {bs : List β}
    {s t : σ} (h : Steps (Runs f) as s bs t) (hf : ∀ a ∈ as, Emits R (V a) (f a)) :
    ∃ new, R s new t ∧ Gather V as bs new := by
  induction h with
  | nil => exact ⟨[], Accumulates.nil _, .nil⟩
  | @cons a s b t as bs u hrun _ ih =>
    rw [List.forall_mem_cons] at hf
    obtain ⟨new, ht, hv⟩ := hf.1 s
    obtain ⟨more, hu, hg⟩ := ih hf.2
    rw [Runs] at hrun
    rw [hrun] at ht hv
    exact ⟨new ++ more, Accumulates.append ht hu, .cons hv hg⟩

theorem Emits.mapM {V : α → β → List γ → Prop} {f : α → StateM σ β} {as : List α}
    (h : ∀ a ∈ as, Emits R (V a) (f a)) : Emits R (Gather V as) (as.mapM f) :=
  fun s => (Steps.mapM f as s).emits h

theorem Emits.traverse {σ γ : Type} {R : σ → List γ → σ → Prop} [Accumulates R]
    {V : List Node → List Node → List γ → Prop} {f : List Node → StateM σ (List Node)} {n : Node}
    (h : ∀ ns ∈ n.childLists, Emits R (V ns) (f ns)) :
    Emits R (fun m new => m.shell = n.shell ∧ Gather V n.childLists m.childLists new)
      (n.traverse f) := by
  intro s
  obtain ⟨hshell, hsteps⟩ := Node.traverse_steps f n s
  obtain ⟨new, hr, hg⟩ := hsteps.emits h
  exact ⟨new, hr, hshell, hg⟩

end PageCompiler
