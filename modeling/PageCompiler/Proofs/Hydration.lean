import PageCompiler.Island.Hydration
import PageCompiler.Proofs.Objects
import PageCompiler.Proofs.Script

/-!
Running islands. An action can be dispatched once the island is attached, and what has been
dispatched decides the values of the states.
-/

namespace PageCompiler.Island

open Json (Value Object)

/-- What an island relies on: a script that can be followed in order, and actions with ids of their
own that change states. -/
structure Module.IsSound (m : Module) : Prop where
  ordered : m.script.IsOrdered
  distinct : (m.actions.map Action.id).Nodup
  targets : ∀ a ∈ m.actions, a.mutation.target ∈ m.script.states.map State.name

namespace Module

def mutation? (m : Module) (id : String) : Option Mutation :=
  (m.actions.find? fun a => a.id = id).map Action.mutation

/-- What is left of the value of a state when the actions with these ids have changed it, one after
the other. -/
def replay (m : Module) (name : String) (ids : List String) (v : Value) : Value :=
  ((ids.filterMap m.mutation?).filter fun u => u.target = name).foldl (fun v u => u.apply v) v

theorem replay_append (m : Module) (name : String) (ids more : List String) (v : Value) :
    m.replay name (ids ++ more) v = m.replay name more (m.replay name ids v) := by
  rw [replay, replay, replay, List.filterMap_append, List.filter_append, List.foldl_append]

end Module

inductive Call
  | attach
  | dispatch (id : String)
  deriving DecidableEq, Repr

namespace Hydrated

/-- A dispatch that is refused changes nothing. -/
def call (h : Hydrated) : Call → Hydrated
  | .attach => h.attach
  | .dispatch id => (h.dispatch? id).getD h

def after (h : Hydrated) (calls : List Call) : Hydrated := calls.foldl call h

/-- The id of an action, if the call is a dispatch of it that succeeds. -/
def dispatched (h : Hydrated) : Call → List String
  | .attach => []
  | .dispatch id => if (h.dispatch? id).isSome then [id] else []

/-- The ids of the actions that are dispatched with success, in order. -/
def successes (h : Hydrated) : List Call → List String
  | [] => []
  | c :: calls => h.dispatched c ++ (h.call c).successes calls

/-- The island runs the module: its states have values and nothing else has, and all actions listen
as soon as it is attached. -/
structure Follows (m : Module) (attached : Bool) (h : Hydrated) : Prop where
  module : h.module = m
  listeners : h.listeners = if attached then m.actions else []
  states : ∀ name, (h.states.get? name).isSome ↔ name ∈ m.script.states.map State.name

variable {m : Module} {attached : Bool} {h : Hydrated}

theorem get?_ofModule (hm : m.IsSound) (name : String) :
    (ofModule m).states.get? name = (m.script.state? name).map State.initial :=
  Object.get?_ofList_map hm.ordered.distinct.of_append_left name

theorem ofModule_follows (hm : m.IsSound) : Follows m false (ofModule m) where
  module := rfl
  listeners := rfl
  states name := by
    rw [get?_ofModule hm, Option.isSome_map]
    simp [Script.state?]

/-- Of actions with ids of their own all are added to those that listen. -/
theorem foldl_listeners {as bs : List Action} (h : ((as ++ bs).map Action.id).Nodup) :
    bs.foldl (fun as a => if as.any fun b => b.id = a.id then as else as ++ [a]) as =
      as ++ bs := by
  induction bs generalizing as with
  | nil => exact (List.append_nil as).symm
  | cons b bs ih =>
    rw [List.append_cons] at h ⊢
    have hb : ¬as.any fun a => a.id = b.id := by
      rw [List.map_append, List.map_append, List.nodup_append, List.nodup_append] at h
      have hne := h.1.2.2
      simpa using fun (a : Action) (ha : a ∈ as) =>
        hne a.id (List.mem_map_of_mem ha) b.id (List.mem_singleton_self _)
    rw [List.foldl_cons, if_neg hb, ih h]

/-- Actions that listen already are not added again. -/
theorem foldl_listeners_of_subset {as bs : List Action} (h : bs ⊆ as) :
    bs.foldl (fun as a => if as.any fun b => b.id = a.id then as else as ++ [a]) as = as := by
  induction bs with
  | nil => rfl
  | cons b bs ih =>
    obtain ⟨hb, hbs⟩ := List.cons_subset.1 h
    have hany : as.any fun a => a.id = b.id := List.any_eq_true.2 ⟨b, hb, by simp⟩
    rw [List.foldl_cons, if_pos hany, ih hbs]

theorem Follows.attach_listeners (hm : m.IsSound) (hf : Follows m attached h) :
    h.attach.listeners = m.actions := by
  rw [attach, hf.module, hf.listeners]
  cases attached with
  | false => exact foldl_listeners hm.distinct
  | true => exact foldl_listeners_of_subset (List.Subset.refl _)

/-- The island with a state changed as the mutation says. -/
def changed (h : Hydrated) (u : Mutation) : Hydrated :=
  let current := (h.states.get? u.target).getD .null
  { h with states := h.states.insert u.target (u.apply current) }

theorem get?_changed (h : Hydrated) (u : Mutation) (name : String) :
    (h.changed u).states.get? name =
      if name = u.target then some (u.apply ((h.states.get? name).getD .null))
      else h.states.get? name := by
  rw [changed, Object.get?_insert]
  split_ifs with hn
  · rw [hn]
  · rfl

/-- A dispatch that succeeds is that of an action of the module. -/
theorem Follows.dispatch?_eq_some (hf : Follows m attached h) {id : String} {h' : Hydrated}
    (hd : h.dispatch? id = some h') : ∃ a ∈ m.actions,
      m.mutation? id = some a.mutation ∧ h' = h.changed a.mutation := by
  obtain ⟨a, ha, rfl⟩ := Option.map_eq_some_iff.1 hd
  rw [hf.listeners] at ha
  cases attached with
  | false => cases ha
  | true => exact ⟨a, List.mem_of_find?_eq_some ha, congrArg (Option.map Action.mutation) ha, rfl⟩

theorem Follows.call (hm : m.IsSound) (hf : Follows m attached h) (c : Call) :
    Follows m (attached || c == .attach) (h.call c) := by
  cases c with
  | attach =>
    refine ⟨hf.module, ?_, hf.states⟩
    rw [Hydrated.call, hf.attach_listeners hm]
    simp
  | dispatch id =>
    rw [show (Call.dispatch id == .attach) = false from rfl, Bool.or_false, Hydrated.call]
    cases hd : h.dispatch? id with
    | none => exact hf
    | some h' =>
      obtain ⟨a, ha, -, rfl⟩ := hf.dispatch?_eq_some hd
      refine ⟨hf.module, hf.listeners, fun name => ?_⟩
      rw [Option.getD_some, get?_changed]
      split_ifs with hn
      · exact iff_of_true rfl (hn ▸ hm.targets a ha)
      · exact hf.states name

theorem Follows.after (hm : m.IsSound) (hf : Follows m attached h) (calls : List Call) :
    Follows m (attached || calls.contains .attach) (h.after calls) := by
  induction calls generalizing attached h with
  | nil => simpa [Hydrated.after] using hf
  | cons c calls ih =>
    rw [List.contains_cons, BEq.comm, ← Bool.or_assoc]
    exact ih (hf.call hm c)

theorem Follows.dispatch?_isSome (hf : Follows m attached h) (id : String) :
    (h.dispatch? id).isSome ↔ attached ∧ id ∈ m.actions.map Action.id := by
  rw [dispatch?, Option.isSome_map, hf.listeners]
  cases attached <;> simp

/-- A call changes the value of a state as the action that it dispatches does. -/
theorem Follows.get?_call (hf : Follows m attached h) {name : String} {v : Value}
    (hv : h.states.get? name = some v) (c : Call) :
    (h.call c).states.get? name = some (m.replay name (h.dispatched c) v) := by
  cases c with
  | attach => exact hv
  | dispatch id =>
    rw [Hydrated.call, dispatched]
    cases hd : h.dispatch? id with
    | none => exact hv
    | some h' =>
      obtain ⟨a, -, hid, rfl⟩ := hf.dispatch?_eq_some hd
      rw [Option.getD_some, Option.isSome_some, if_pos rfl, get?_changed, hv]
      split_ifs with hn
      · simp [Module.replay, hid, hn]
      · simp [Module.replay, hid, Ne.symm hn]

theorem Follows.get?_after (hm : m.IsSound) (hf : Follows m attached h) {name : String} {v : Value}
    (hv : h.states.get? name = some v) (calls : List Call) :
    (h.after calls).states.get? name = some (m.replay name (h.successes calls) v) := by
  induction calls generalizing attached h v with
  | nil => exact hv
  | cons c calls ih =>
    rw [successes, Module.replay_append]
    exact ih (hf.call hm c) (hf.get?_call hv c)

end Hydrated

end PageCompiler.Island
