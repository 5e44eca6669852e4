import PageCompiler.Diagnostic

/-!
Runs with a state: what they keep true of the state, what its end tells of its beginning, and what
they make true of their result. A run over a list is a sequence of steps.
-/

namespace PageCompiler

universe u

variable {σ α β : Type u} {I : σ → Prop} {V : α → Prop} {W : β → Prop}

/-- Where `I` holds of the state it still holds behind the run, and `V` holds of the result. -/
def Keeps (I : σ → Prop) (V : α → Prop) (x : StateM σ α) : Prop :=
  ∀ s, I s → V (x.run s).1 ∧ I (x.run s).2

namespace Keeps

theorem pure {a : α} (h : V a) : Keeps I V (Pure.pure a) := fun _ hs => ⟨h, hs⟩

theorem bind {x : StateM σ α} {f : α → StateM σ β} (hx : Keeps I V x)
    (hf : ∀ a, V a → Keeps I W (f a)) : Keeps I W (x >>= f) := by
  intro s hs
  obtain ⟨ha, hs⟩ := hx s hs
  exact hf _ ha _ hs

theorem imp {x : StateM σ α} {U : α → Prop} (hx : Keeps I U x) (h : ∀ a, U a → V a) :
    Keeps I V x := fun s hs => ⟨h _ (hx s hs).1, (hx s hs).2⟩

theorem any (x : StateM σ α) : Keeps (fun _ => True) (fun _ => True) x :=
  fun _ _ => ⟨trivial, trivial⟩

end Keeps

/-- Where `I` holds of the state behind the run it has always held, and `V` holds of the result. -/
def Reveals (I : σ → Prop) (V : α → Prop) (x : StateM σ α) : Prop :=
  ∀ s, I (x.run s).2 → I s ∧ V (x.run s).1

namespace Reveals

theorem pure {a : α} (h : V a) : Reveals I V (Pure.pure a) := fun _ hs => ⟨hs, h⟩

/-- The first result is known to be well only from the end. -/
theorem bind {x : StateM σ α} {f : α → StateM σ β} (hx : Reveals I V x)
    (hf : ∀ a, Reveals I (fun b => V a → W b) (f a)) : Reveals I W (x >>= f) := by
  intro s hs
  obtain ⟨hs, hw⟩ := hf _ _ hs
  obtain ⟨hs, ha⟩ := hx s hs
  exact ⟨hs, hw ha⟩

theorem imp {x : StateM σ α} {U : α → Prop} (hx : Reveals I U x) (h : ∀ a, U a → V a) :
    Reveals I V x := fun s ht => ⟨(hx s ht).1, h _ (hx s ht).2⟩

theorem get : Reveals I I (MonadState.get : StateM σ σ) := fun _ hs => ⟨hs, hs⟩

end Reveals

/-- From the state `s` to the state `t` by steps of `R`, one for each of `as` and its result. -/
inductive Steps (R : α → σ → β → σ → Prop) : List α → σ → List β → σ → Prop
  | nil : Steps R [] s [] s
  | cons : R a s b t → Steps R as t bs u → Steps R (a :: as) s (b :: bs) u

/-- A run of `f` as one step. -/
def Runs (f : α → StateM σ β) (a : α) (s : σ) (b : β) (t : σ) : Prop := (f a).run s = (b, t)

theorem Reveals.of_runs {f : α → StateM σ β} {a : α} {s t : σ} {b : β}
    (h : Reveals I W (f a)) (hr : Runs f a s b t) (ht : I t) : I s ∧ W b := by
  have hs := h s
  rw [Runs] at hr
  rw [hr] at hs
  exact hs ht

namespace Steps

theorem append {R : α → σ → β → σ → Prop} {as cs : List α} {bs ds : List β} {s t u : σ}
    (h : Steps R as s bs t) (h' : Steps R cs t ds u) : Steps R (as ++ cs) s (bs ++ ds) u := by
  induction h with
  | nil => exact h'
  | cons hr _ ih => exact .cons hr (ih h')

variable {f : α → StateM σ β} {as : List α} {bs : List β} {s t : σ}

theorem mapM (f : α → StateM σ β) (as : List α) (s : σ) :
    Steps (Runs f) as s ((as.mapM f).run s).1 ((as.mapM f).run s).2 := by
  induction as generalizing s with
  | nil => exact .nil
  | cons a as ih =>
    rw [List.mapM_cons]
    exact .cons rfl (ih _)

theorem reveals {V : β → Prop} (h : Steps (Runs f) as s bs t) (hf : ∀ a ∈ as, Reveals I V (f a))
    (ht : I t) : I s ∧ ∀ b ∈ bs, V b := by
  induction h with
  | nil => exact ⟨ht, List.forall_mem_nil _⟩
  | @cons a s b t as bs u hr _ ih =>
    rw [List.forall_mem_cons] at hf
    obtain ⟨ht, hbs⟩ := ih hf.2 ht
    obtain ⟨hs, hb⟩ := hf.1.of_runs hr ht
    exact ⟨hs, List.forall_mem_cons.2 ⟨hb, hbs⟩⟩

end Steps

theorem Reveals.mapM {V : β → Prop} {f : α → StateM σ β} {as : List α}
    (h : ∀ a ∈ as, Reveals I V (f a)) : Reveals I (∀ b ∈ ·, V b) (as.mapM f) :=
  fun s hs => (Steps.mapM f as s).reveals h hs

end PageCompiler
