import PageCompiler.Proofs.Report
import PageCompiler.Proofs.State
import PageCompiler.Proofs.Tree

/-!
Trees that are rebuilt from the lists below their nodes, one after the other, in a monad. Only the
lists are new, whatever the monad does on the way.
-/

namespace PageCompiler

namespace Node

variable {m : Type → Type} [Monad m]

/-- A node with the lists right below it rebuilt, in the order of the source. -/
def traverse (f : List Node → m (List Node)) : Node → m Node
  | .element tag as children closing l => do return .element tag as (← f children) closing l
  | .component name as children l => do return .component name as (← f children) l
  | .slot name fallback l => do return .slot name (← f fallback) l
  | .loop item source body d l => do return .loop item source (← f body) d l
  | .conditional branches alternate d l => do
    let branches ← branches.mapM fun b => do return (b.1, ← f b.2)
    match alternate with
    | some nodes => return .conditional branches (some (← f nodes)) d l
    | none => return .conditional branches none d l
  | .island strategy script children l => do return .island strategy script (← f children) l
  | .isolated name bindings children l => do return .isolated name bindings (← f children) l
  | .callerScope children => do return .callerScope (← f children)
  | n => return n

/-- The node is `n` with lists that have `V` right below it. -/
structure Rebuilds (V : List Node → Prop) (n m : Node) : Prop where
  shell : m.shell = n.shell
  lists : ∀ ns ∈ m.childLists, V ns

namespace Rebuilds

variable {V : List Node → Prop} {n m : Node}

theorem name (h : Rebuilds V n m) : m.usedName? = n.usedName? := usedName?_of_shell h.shell

theorem kind (h : Rebuilds V n m) : m.kind = n.kind := congrArg Form.kind (form_of_shell h.shell)

theorem everywhere {q : Node → Prop} (h : Rebuilds (∀ n ∈ ·, n.Everywhere q) n m)
    (hq : ∀ m, m.shell = n.shell → q m) : m.Everywhere q :=
  everywhere_iff.2 ⟨hq m h.shell, h.lists⟩

theorem ofForms {F : Form → Prop} (h : Rebuilds (∀ n ∈ ·, n.OfForms F) n m) (hf : F n.form) :
    m.OfForms F :=
  h.everywhere fun _ hs => (form_of_shell hs).symm ▸ hf

end Rebuilds

theorem traverse_congr [LawfulMonad m] {f g : List Node → m (List Node)} {n : Node}
    (h : ∀ ns ∈ n.childLists, f ns = g ns) : n.traverse f = n.traverse g := by
  cases n with
  | conditional branches alternate d l =>
    obtain ⟨hb, ha⟩ := List.forall_mem_append.1 h
    have hbs : branches.mapM (fun b => do return (b.1, ← f b.2)) =
        branches.mapM (fun b => do return (b.1, ← g b.2)) := by
      clear ha h
      induction branches with
      | nil => rfl
      | cons b bs ih =>
        rw [List.map_cons, List.forall_mem_cons] at hb
        rw [List.mapM_cons, List.mapM_cons, hb.1, ih hb.2]
    cases alternate with
    | none => rw [traverse, traverse, hbs]
    | some nodes =>
      simp only [traverse, hbs, ha nodes (List.mem_singleton_self _)]
  | text | expression | comment | doctype | error => rfl
  | _ => simp only [traverse, h _ (List.mem_singleton_self _)]

variable {σ : Type} {f : List Node → StateM σ (List Node)}

theorem traverse_branches (f : List Node → StateM σ (List Node)) (bs : List (String × List Node))
    (s : σ) :
    let rebuild (b : String × List Node) : StateM σ (String × List Node) :=
      do return (b.1, ← f b.2)
    let empty (b : String × List Node) : String × List Node := (b.1, [])
    let r := (bs.mapM rebuild).run s
    r.1.map empty = bs.map empty ∧ Steps (Runs f) (bs.map Prod.snd) s (r.1.map Prod.snd) r.2 := by
  intro rebuild empty
  induction bs generalizing s with
  | nil => exact ⟨rfl, .nil⟩
  | cons b bs ih =>
    obtain ⟨hb, hs⟩ := ih ((f b.2).run s).2
    rw [List.mapM_cons]
    exact ⟨congrArg (empty b :: ·) hb, .cons rfl hs⟩

/-- Nothing changes but the lists, each of which is a step of the run. -/
theorem traverse_steps (f : List Node → StateM σ (List Node)) (n : Node) (s : σ) :
    let r := (n.traverse f).run s
    r.1.shell = n.shell ∧ Steps (Runs f) n.childLists s r.1.childLists r.2 := by
  cases n with
  | conditional branches alternate d l =>
    obtain ⟨hb, hs⟩ := traverse_branches f branches s
    cases alternate with
    | none => exact ⟨congrArg (conditional · none d l) hb, hs.append .nil⟩
    | some nodes => exact ⟨congrArg (conditional · (some []) d l) hb, hs.append (.cons rfl .nil)⟩
  | text | expression | comment | doctype | error => exact ⟨rfl, .nil⟩
  | _ => exact ⟨rfl, .cons rfl .nil⟩

end Node

theorem Reveals.traverse {σ : Type} {I : σ → Prop} {V : List Node → Prop}
    {f : List Node → StateM σ (List Node)} {n : Node}
    (h : ∀ ns ∈ n.childLists, Reveals I V (f ns)) :
    Reveals I (Node.Rebuilds V n) (n.traverse f) := by
  intro s ht
  obtain ⟨hshell, hsteps⟩ := Node.traverse_steps f n s
  obtain ⟨hs, hv⟩ := hsteps.reveals h ht
  exact ⟨hs, hshell, hv⟩

/-- A way to speak of runs by the properties of their results: it carries over from the parts of a
run to the run. -/
structure Judgement (m : Type → Type) [Monad m] where
  Holds : {α : Type} → (α → Prop) → m α → Prop
  pure {α : Type} {V : α → Prop} {a : α} : V a → Holds V (Pure.pure a)
  bind {α β : Type} {V : α → Prop} {W : β → Prop} {x : m α} {f : α → m β} :
    Holds V x → (∀ a, V a → Holds W (f a)) → Holds W (x >>= f)

namespace Judgement

variable {m : Type → Type} [Monad m] (J : Judgement m)

theorem forM {α : Type} {f : α → m PUnit} {as : List α}
    (h : ∀ a ∈ as, J.Holds (fun _ => True) (f a)) : J.Holds (fun _ => True) (as.forM f) := by
  induction as with
  | nil => exact J.pure trivial
  | cons a as ih =>
    rw [List.forall_mem_cons] at h
    exact J.bind h.1 fun _ _ => ih h.2

variable [LawfulMonad m]

theorem mapM {α β : Type} {V : β → Prop} {f : α → m β} {as : List α}
    (h : ∀ a ∈ as, J.Holds V (f a)) : J.Holds (∀ b ∈ ·, V b) (as.mapM f) := by
  induction as with
  | nil => exact J.pure (List.forall_mem_nil _)
  | cons a as ih =>
    rw [List.forall_mem_cons] at h
    rw [List.mapM_cons]
    exact J.bind h.1 fun b hb => J.bind (ih h.2) fun bs hbs =>
      J.pure (List.forall_mem_cons.2 ⟨hb, hbs⟩)

theorem traverse_branches {V : List Node → Prop} {f : List Node → m (List Node)}
    {bs : List (String × List Node)} (h : ∀ b ∈ bs, J.Holds V (f b.2)) :
    let empty (b : String × List Node) : String × List Node := (b.1, [])
    J.Holds (fun cs => cs.map empty = bs.map empty ∧ ∀ ns ∈ cs.map Prod.snd, V ns)
      (bs.mapM fun b => do return (b.1, ← f b.2)) := by
  intro empty
  induction bs with
  | nil => exact J.pure ⟨rfl, List.forall_mem_nil _⟩
  | cons b bs ih =>
    rw [List.forall_mem_cons] at h
    rw [List.mapM_cons, bind_assoc]
    refine J.bind h.1 fun ns hns => ?_
    rw [pure_bind]
    refine J.bind (ih h.2) fun cs ⟨hcs, hv⟩ => J.pure ⟨congrArg (empty b :: ·) hcs, ?_⟩
    exact List.forall_mem_cons.2 ⟨hns, hv⟩

theorem traverse {V : List Node → Prop} {f : List Node → m (List Node)} {n : Node}
    (h : ∀ ns ∈ n.childLists, J.Holds V (f ns)) : J.Holds (Node.Rebuilds V n) (n.traverse f) := by
  cases n with
  | conditional branches alternate d l =>
    obtain ⟨hb, ha⟩ := List.forall_mem_append.1 h
    have hbs := J.traverse_branches (fun b h => hb b.2 (List.mem_map_of_mem h))
    refine J.bind hbs fun cs ⟨hcs, hv⟩ => ?_
    cases alternate with
    | none =>
      exact J.pure ⟨congrArg (Node.conditional · none d l) hcs,
        List.forall_mem_append.2 ⟨hv, List.forall_mem_nil _⟩⟩
    | some nodes =>
      refine J.bind (ha nodes (List.mem_singleton_self _)) fun ns hns => J.pure ?_
      exact ⟨congrArg (Node.conditional · (some []) d l) hcs,
        List.forall_mem_append.2 ⟨hv, List.forall_mem_singleton.2 hns⟩⟩
  | text | expression | comment | doctype | error => exact J.pure ⟨rfl, List.forall_mem_nil _⟩
  | _ =>
    exact J.bind (h _ (List.mem_singleton_self _)) fun ns hns =>
      J.pure ⟨rfl, List.forall_mem_singleton.2 hns⟩

end Judgement

/-- Results that are reported, with reports that have `P`. -/
def Reported.satisfying (P : Diagnostic → Prop) : Judgement Reported where
  Holds V := Reported.Sat V P
  pure := .pure
  bind := .bind

namespace Keeps

variable {σ : Type} {I : σ → Prop}

def judgement (I : σ → Prop) : Judgement (StateM σ) where
  Holds V := Keeps I V
  pure := .pure
  bind := .bind

theorem mapM {α β : Type} {V : β → Prop} {f : α → StateM σ β} {as : List α}
    (h : ∀ a ∈ as, Keeps I V (f a)) : Keeps I (∀ b ∈ ·, V b) (as.mapM f) :=
  (judgement I).mapM h

theorem traverse {V : List Node → Prop} {f : List Node → StateM σ (List Node)} {n : Node}
    (h : ∀ ns ∈ n.childLists, Keeps I V (f ns)) : Keeps I (Node.Rebuilds V n) (n.traverse f) :=
  (judgement I).traverse h

end Keeps

end PageCompiler
