import Mathlib
import PageCompiler.Island.Script

/-!
What can be relied on in a script that has been read: no name is declared twice, and each computed
value follows from a state or from a computed value in front of it.
-/

namespace PageCompiler.Island

open Json (Value)

/-- Where names are not shared, the first with a name is the only one. -/
theorem find?_name {α : Type} {key : α → String} {as : List α} (h : (as.map key).Nodup) {a : α}
    (ha : a ∈ as) : (as.find? fun b => key b = key a) = some a := by
  have hsome : (as.find? fun b => key b = key a).isSome := List.find?_isSome.2 ⟨a, ha, by simp⟩
  obtain ⟨b, hb⟩ := Option.isSome_iff_exists.1 hsome
  have hk : key b = key a := by simpa using List.find?_some hb
  rw [hb, List.inj_on_of_nodup_map h (List.mem_of_find?_eq_some hb) ha hk]

namespace Script

variable {s t : Script} {name : String}

theorem initial?_isSome : (s.initial? name).isSome ↔ name ∈ s.names := by
  rw [initial?, Option.isSome_or, Option.isSome_map, Option.isSome_map, names, List.mem_append]
  simp [state?, computed?]

/-- The names of the states, and of computed values that stand in front of others. -/
def namesBefore (s : Script) (before : List Computed) : List String :=
  s.states.map State.name ++ before.map Computed.name

/-- Each name is declared once; a computed value depends on a name in front of it, and its initial
value follows from the initial value of that name. -/
structure IsOrdered (s : Script) : Prop where
  distinct : s.names.Nodup
  dependency : ∀ before c, before ++ [c] <+: s.computed → c.dependency ∈ s.namesBefore before
  initial : ∀ c ∈ s.computed, (s.initial? c.dependency).map c.formula.evaluate = some c.initial

theorem names_addState (s : Script) (e : State) :
    (names ⟨s.states ++ [e], s.computed⟩).Perm (e.name :: s.names) := by
  simp [names, List.perm_middle]

theorem names_addComputed (s : Script) (c : Computed) :
    (names ⟨s.states, s.computed ++ [c]⟩).Perm (c.name :: s.names) := by
  rw [names, List.map_append, ← List.append_assoc]
  exact List.perm_append_comm

theorem IsOrdered.empty : empty.IsOrdered where
  distinct := List.nodup_nil
  dependency before c h := by simp [Script.empty] at h
  initial := List.forall_mem_nil _

theorem dependency_mem_names {c : Computed} {v : Value}
    (h : (s.initial? c.dependency).map c.formula.evaluate = some v) : c.dependency ∈ s.names := by
  obtain ⟨start, hs, -⟩ := Option.map_eq_some_iff.1 h
  exact initial?_isSome.1 (Option.isSome_of_eq_some hs)

/-- Where known names keep their initial values, what follows from one of them still does. -/
theorem follows_of_extends (ht : ∀ name ∈ s.names, t.initial? name = s.initial? name)
    {c : Computed} (h : (s.initial? c.dependency).map c.formula.evaluate = some c.initial) :
    (t.initial? c.dependency).map c.formula.evaluate = some c.initial := by
  rw [ht _ (dependency_mem_names h), h]

theorem IsOrdered.addState (h : s.IsOrdered) {e : State} (he : e.name ∉ s.names) :
    IsOrdered ⟨s.states ++ [e], s.computed⟩ where
  distinct := (names_addState s e).nodup_iff.2 (List.nodup_cons.2 ⟨he, h.distinct⟩)
  dependency before c hc := by
    have hd := h.dependency before c hc
    simp only [namesBefore, List.map_append, List.mem_append] at hd ⊢
    exact hd.imp_left .inl
  initial c hc := by
    refine follows_of_extends (fun name hn => ?_) (h.initial c hc)
    have hne : e.name ≠ name := fun heq => he (heq ▸ hn)
    simp [initial?, state?, computed?, List.find?_append, hne]

theorem IsOrdered.addComputed (h : s.IsOrdered) {c : Computed} (hc : c.name ∉ s.names)
    (hi : (s.initial? c.dependency).map c.formula.evaluate = some c.initial) :
    IsOrdered ⟨s.states, s.computed ++ [c]⟩ where
  distinct := (names_addComputed s c).nodup_iff.2 (List.nodup_cons.2 ⟨hc, h.distinct⟩)
  dependency before d hd := by
    obtain heq | hd := List.prefix_concat_iff.1 hd
    · obtain ⟨rfl, hdc⟩ := List.append_inj' heq rfl
      obtain rfl := List.singleton_inj.1 hdc
      exact dependency_mem_names hi
    · exact h.dependency before d hd
  initial d hd := by
    have ht (name : String) (hn : name ∈ s.names) :
        initial? ⟨s.states, s.computed ++ [c]⟩ name = s.initial? name := by
      have hne : c.name ≠ name := fun heq => hc (heq ▸ hn)
      simp [initial?, state?, computed?, List.find?_append, hne]
    obtain hd | hd := List.mem_append.1 hd
    · exact follows_of_extends ht (h.initial d hd)
    · obtain rfl := List.mem_singleton.1 hd
      exact follows_of_extends ht hi

/-- Induction over the computed values in order: each has a new name, and depends on a name in
front of it. -/
theorem IsOrdered.induct (h : s.IsOrdered) {motive : List Computed → Prop} (nil : motive [])
    (append : ∀ before c, c ∈ s.computed → c.name ∉ s.namesBefore before →
      c.dependency ∈ s.namesBefore before → motive before → motive (before ++ [c]))
    {before : List Computed} (hp : before <+: s.computed) : motive before := by
  induction before using List.reverseRecOn with
  | nil => exact nil
  | append_singleton before c ih =>
    refine append before c (hp.subset (by simp)) ?_ (h.dependency before c hp)
      (ih ((List.prefix_append before [c]).trans hp))
    have hd : (s.namesBefore (before ++ [c])).Nodup :=
      h.distinct.sublist ((hp.sublist.map Computed.name).append_left _)
    rw [namesBefore, List.map_append, ← List.append_assoc, List.nodup_append] at hd
    exact fun hc => hd.2.2 _ hc _ (List.mem_singleton_self _) rfl

end Script

namespace Reading

open Script (addState addComputed)

/-- The names of the script count as declared. -/
structure IsSound (r : Reading) : Prop where
  ordered : r.script.IsOrdered
  declared : r.script.names ⊆ r.names

theorem addState_isSound {name initial : String} {s t : Script} (hs : s.IsOrdered)
    (hn : name ∉ s.names) (h : addState name initial s = .ok t) :
    t.IsOrdered ∧ t.names ⊆ name :: s.names := by
  unfold addState at h
  split at h
  · cases h
    exact ⟨hs.addState hn, (Script.names_addState s _).subset⟩
  · cases h

theorem addComputed_isSound {name dependency parameter body : String} {s t : Script}
    (hs : s.IsOrdered) (hn : name ∉ s.names)
    (h : addComputed name dependency parameter body s = .ok t) :
    t.IsOrdered ∧ t.names ⊆ name :: s.names := by
  unfold addComputed at h
  split at h
  · cases h
  · next start hstart =>
    split at h
    · cases h
    · cases h
      exact ⟨hs.addComputed hn (by simp [hstart]), (Script.names_addComputed s _).subset⟩

theorem declare_isSound {r : Reading} {name : String} {add : Script → Except ScriptError Script}
    (hr : r.IsSound) (ha : ∀ t, add r.script = .ok t → name ∉ r.script.names →
      t.IsOrdered ∧ t.names ⊆ name :: r.script.names) : (r.declare name add).IsSound := by
  unfold declare
  split
  · exact ⟨hr.ordered, hr.declared⟩
  · next hn =>
    rw [List.contains_iff_mem] at hn
    have hnames : r.script.names ⊆ r.names ++ [name] :=
      List.subset_append_of_subset_left _ hr.declared
    dsimp only
    split
    · next t ht =>
      obtain ⟨ho, hsub⟩ := ha t ht fun h => hn (hr.declared h)
      refine ⟨ho, List.Subset.trans hsub (List.cons_subset.2 ⟨?_, hnames⟩)⟩
      exact List.mem_append_right _ (List.mem_singleton_self _)
    · exact ⟨hr.ordered, hnames⟩

theorem step_isSound {r : Reading} (hr : r.IsSound) (statement : List Char) :
    (r.step statement).IsSound := by
  unfold step
  split
  · exact declare_isSound hr fun t ht hn => addState_isSound hr.ordered hn ht
  · exact declare_isSound hr fun t ht hn => addComputed_isSound hr.ordered hn ht
  · exact ⟨hr.ordered, hr.declared⟩

end Reading

theorem Script.parse_isOrdered {source : String} {s : Script} (h : parse source = .ok s) :
    s.IsOrdered := by
  have hr : ((statements source).foldl Reading.step ⟨.empty, [], []⟩).IsSound :=
    List.foldlRecOn _ _ ⟨.empty, List.nil_subset _⟩ fun r hr statement _ =>
      Reading.step_isSound hr statement
  unfold parse at h
  dsimp only at h
  split at h
  · cases h
    exact hr.ordered
  · cases h

end PageCompiler.Island
