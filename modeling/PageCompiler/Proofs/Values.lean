import PageCompiler.Proofs.Hydration

/-!
The values of the names of an island. They can be followed from name to name, or be computed in one
pass over the computed values, in order; both give the same, since each depends on one in front.
-/

namespace PageCompiler.Island

open Json (Value Object)

def Computed.update (values : Object) (c : Computed) : Object :=
  values.insert c.name (c.formula.evaluate ((values.get? c.dependency).getD .null))

/-- The computed values, one after the other, each from the value that its dependency has by
then. -/
def Script.update (s : Script) (values : Object) : Object := s.computed.foldl Computed.update values

namespace Hydrated

/-- The value of a name on demand: that of a state is there, and that of a computed value follows
from the value of the name that it depends on. Other names have none. -/
inductive Answers (h : Hydrated) : String → Option Value → Prop
  | state : h.states.get? name = some v → Answers h name (some v)
  | computed : h.states.get? name = none → h.module.script.computed? name = some c →
    Answers h c.dependency r → Answers h name (r.map c.formula.evaluate)
  | unknown : h.states.get? name = none → h.module.script.computed? name = none →
    Answers h name none

theorem Answers.unique {h : Hydrated} {name : String} {r r' : Option Value}
    (ha : h.Answers name r) (ha' : h.Answers name r') : r = r' := by
  induction ha generalizing r' with
  | state hs =>
    cases ha' with
    | state hs' => exact hs.symm.trans hs'
    | computed hs' => simp [hs] at hs'
    | unknown hs' => simp [hs] at hs'
  | computed hs hc _ ih =>
    cases ha' with
    | state hs' => simp [hs] at hs'
    | computed _ hc' ha' =>
      obtain rfl := Option.some_inj.1 (hc.symm.trans hc')
      rw [ih ha']
    | unknown _ hc' => simp [hc] at hc'
  | unknown hs hc =>
    cases ha' with
    | state hs' => simp [hs] at hs'
    | computed _ hc' => simp [hc] at hc'
    | unknown => rfl

section Values

variable {states : Object} {computed : List Computed} {name : String}

theorem valueFrom_of_state {v : Value} (h : states.get? name = some v) :
    valueFrom states computed name = some v := by
  induction computed with
  | nil => exact h
  | cons c computed ih => simpa [valueFrom, h] using ih

theorem valueFrom_of_unknown (h : states.get? name = none)
    (hc : name ∉ computed.map Computed.name) : valueFrom states computed name = none := by
  induction computed with
  | nil => exact h
  | cons c computed ih =>
    rw [List.map_cons, List.mem_cons, not_or] at hc
    simpa [valueFrom, Ne.symm hc.1] using ih hc.2

variable {s : Script} (hk : ∀ name, (states.get? name).isSome ↔ name ∈ s.states.map State.name)

include hk

theorem get?_eq_none {before : List Computed} {c : Computed}
    (hc : c.name ∉ s.namesBefore before) : states.get? c.name = none := by
  rw [← Option.not_isSome_iff_eq_none, hk]
  exact fun h => hc (List.mem_append_left _ h)

/-- A computed value follows from the value of its dependency, and leaves all other names alone. -/
theorem valueFrom_append {before : List Computed} {c : Computed}
    (hc : c.name ∉ s.namesBefore before) (name : String) :
    valueFrom states (before ++ [c]).reverse name =
      if name = c.name then
        (valueFrom states before.reverse c.dependency).map fun v => c.formula.evaluate v
      else valueFrom states before.reverse name := by
  rw [List.reverse_append]
  show (if (states.get? name).isNone && c.name = name then _ else _) = _
  by_cases hn : name = c.name
  · subst hn
    simp [get?_eq_none hk hc]
  · simp [hn, Ne.symm hn]

variable (hs : s.IsOrdered)

include hs

theorem valueFrom_isSome {before : List Computed} (hb : before <+: s.computed) :
    ∀ name ∈ s.namesBefore before, (valueFrom states before.reverse name).isSome := by
  refine hs.induct (motive := fun before =>
      ∀ name ∈ s.namesBefore before, (valueFrom states before.reverse name).isSome)
    (fun name hn => ?_) (fun before c _ hnew hdep ih name hn => ?_) hb
  · rw [Script.namesBefore, List.map_nil, List.append_nil] at hn
    exact (hk name).2 hn
  · rw [valueFrom_append hk hnew]
    split_ifs with hname
    · rw [Option.isSome_map]
      exact ih _ hdep
    · refine ih name ?_
      simpa [Script.namesBefore, hname] using hn

/-- One pass in order gives each name the value that it has on demand. -/
theorem get?_update (name : String) :
    (s.update states).get? name = valueFrom states s.computed.reverse name := by
  refine hs.induct (motive := fun before => before <+: s.computed → ∀ name,
      (before.foldl Computed.update states).get? name = valueFrom states before.reverse name)
    (fun _ _ => rfl) (fun before c _ hnew hdep ih hb name => ?_) (List.prefix_refl _)
    (List.prefix_refl _) name
  replace hb := (List.prefix_append before [c]).trans hb
  obtain ⟨v, hv⟩ := Option.isSome_iff_exists.1 (valueFrom_isSome hk hs hb c.dependency hdep)
  rw [List.foldl_append, List.foldl_cons, List.foldl_nil, Computed.update, Object.get?_insert,
    valueFrom_append hk hnew, ih hb, ih hb, hv]
  rfl

/-- Where the initial values of the states are taken, all names have their initial values. -/
theorem valueFrom_initial (hv : ∀ name, states.get? name = (s.state? name).map State.initial)
    {before : List Computed} (hb : before <+: s.computed) :
    ∀ name ∈ s.namesBefore before, valueFrom states before.reverse name = s.initial? name := by
  refine hs.induct (motive := fun before =>
      ∀ name ∈ s.namesBefore before, valueFrom states before.reverse name = s.initial? name)
    (fun name hn => ?_) (fun before c hc hnew hdep ih name hn => ?_) hb
  · rw [Script.namesBefore, List.map_nil, List.append_nil, ← hk, hv] at hn
    show states.get? name = _
    rw [hv, Script.initial?, Option.or_of_isSome hn]
  · rw [valueFrom_append hk hnew]
    split_ifs with hname
    · subst hname
      have hnone : s.state? c.name = none := Option.map_eq_none_iff.1
        ((hv c.name).symm.trans (get?_eq_none hk hnew))
      rw [ih _ hdep, hs.initial c hc, Script.initial?, hnone, Script.computed?,
        find?_name hs.distinct.of_append_right hc]
      rfl
    · refine ih name ?_
      simpa [Script.namesBefore, hname] using hn

end Values

section Follows

variable {m : Module} {attached : Bool} {h : Hydrated} (hm : m.IsSound) (hf : Follows m attached h)

include hm hf

theorem Follows.answers_of_mem {before : List Computed} (hb : before <+: m.script.computed) :
    ∀ name ∈ m.script.namesBefore before,
      h.Answers name (valueFrom h.states before.reverse name) := by
  refine hm.ordered.induct (motive := fun before => ∀ name ∈ m.script.namesBefore before,
      h.Answers name (valueFrom h.states before.reverse name))
    (fun name hn => ?_) (fun before c hc hnew hdep ih name hn => ?_) hb
  · rw [Script.namesBefore, List.map_nil, List.append_nil, ← hf.states] at hn
    obtain ⟨v, hv⟩ := Option.isSome_iff_exists.1 hn
    rw [valueFrom_of_state hv]
    exact .state hv
  · rw [valueFrom_append hf.states hnew]
    split_ifs with hname
    · subst hname
      have hcomputed : m.script.computed? c.name = some c :=
        find?_name hm.ordered.distinct.of_append_right hc
      rw [← hf.module] at hcomputed
      exact .computed (get?_eq_none hf.states hnew) hcomputed (ih _ hdep)
    · refine ih name ?_
      simpa [Script.namesBefore, hname] using hn

/-- Following the names ends for every name, and gives the value that is computed. -/
theorem Follows.answers (name : String) : h.Answers name (h.value? name) := by
  rw [value?, hf.module]
  by_cases hn : name ∈ m.script.names
  · exact hf.answers_of_mem hm (List.prefix_refl _) name hn
  · rw [Script.names, List.mem_append, not_or] at hn
    have hnone : h.states.get? name = none := by
      rw [← Option.not_isSome_iff_eq_none, hf.states]
      exact hn.1
    have hcomputed : m.script.computed? name = none := by
      simpa [Script.computed?] using hn.2
    rw [valueFrom_of_unknown hnone (by simpa using hn.2)]
    exact .unknown hnone (hf.module ▸ hcomputed)

theorem Follows.value?_isSome : ∀ name ∈ m.script.names, (h.value? name).isSome := by
  intro name hn
  rw [value?, hf.module]
  exact valueFrom_isSome hf.states hm.ordered (List.prefix_refl _) name hn

theorem Follows.get?_update (name : String) :
    (m.script.update h.states).get? name = h.value? name := by
  rw [value?, hf.module]
  exact Hydrated.get?_update hf.states hm.ordered name

end Follows

theorem lookup_bindings (h : Hydrated) (name : String) :
    h.bindings.lookup name =
      if name ∈ h.module.script.names then (h.value? name).map displayText else none := by
  rw [bindings]
  induction h.module.script.names with
  | nil => rfl
  | cons n names ih =>
    rw [List.filterMap_cons]
    by_cases hn : name = n
    · subst hn
      cases hv : h.value? name with
      | none => simpa [hv] using ih
      | some v => simp
    · cases hv : h.value? n with
      | none => simpa [hv, hn] using ih
      | some v => simpa [hv, hn, List.lookup_cons, beq_false_of_ne hn] using ih

/-- At the start each name shows its initial value. -/
theorem lookup_bindings_ofModule (hm : m.IsSound) (name : String) :
    (ofModule m).bindings.lookup name = (m.script.initial? name).map displayText := by
  rw [lookup_bindings]
  show (if name ∈ m.script.names then _ else _) = _
  split_ifs with hn
  · exact congrArg (Option.map displayText) (valueFrom_initial (ofModule_follows hm).states
      hm.ordered (get?_ofModule hm) (List.prefix_refl _) name hn)
  · rw [← Script.initial?_isSome, Option.not_isSome_iff_eq_none] at hn
    rw [hn]
    rfl

end Hydrated

end PageCompiler.Island
