import PageCompiler.Proofs.Extraction
import PageCompiler.Proofs.References
import PageCompiler.Proofs.Values

/-!
Islands in a page and what their modules do when they run, whatever else is written in the page.
Main statements: actions can be dispatched as soon as an island is attached, and change the states
that they name; and what a page shows of an island is what the island starts with.
-/

namespace PageCompiler

/-- What can be said of each result and its source at the end of a run. -/
theorem Steps.reveals_forall₂ {σ α β : Type} {I : σ → Prop} {V : α → β → Prop}
    {f : α → StateM σ β} {as : List α} {bs : List β} {s t : σ} (h : Steps (Runs f) as s bs t)
    (hf : ∀ a ∈ as, Reveals I (V a) (f a)) (ht : I t) : I s ∧ List.Forall₂ V as bs := by
  induction h with
  | nil => exact ⟨ht, .nil⟩
  | @cons a s b t as bs u hr _ ih =>
    rw [List.forall_mem_cons] at hf
    obtain ⟨ht, hbs⟩ := ih hf.2 ht
    obtain ⟨hs, hb⟩ := hf.1.of_runs hr ht
    exact ⟨hs, .cons hb hbs⟩

namespace Island

open Json (Value)

/-- The node `m` is `n` with an element in place of each expression: it has a marker with the name
that the expression holds, and shows the text of this name. -/
inductive Shows (texts : String → Option String) : Node → Node → Prop
  | marker : texts (Text.trimmed code) = some (Text.unescapeHtml text) →
    Shows texts (.expression code raw l) (.element "span"
      [.new "data-ncl-bind" (.static (Text.trimmed code))] [.text text l'] false l'')
  | node : n.kind ≠ .expression → m.kind = n.kind →
    List.Forall₂ (List.Forall₂ (Shows texts)) n.childLists m.childLists → Shows texts n m

/-- An island that is well: what is written in it, what its wrapper holds, and its module. -/
structure Placed where
  source : List Node
  page : List Node
  module : Module

/-- The node `m` is `n` with wrappers, or with error blocks, in place of the islands that are not
inside of others. -/
inductive Extracts : Node → Node → List Placed → Prop
  | wrapped : Extracts (.island strategy script p.source l) (wrapper p.module.id strategy p.page l)
    [p]
  | failed : n.kind = .island → m.kind = .error → Extracts n m []
  | node : n.kind ≠ .island → m.shell = n.shell →
    Gather (Gather Extracts) n.childLists m.childLists ps → Extracts n m ps

namespace Content

theorem bindNode_adds (n : Node) : Emits Adds (fun _ _ => True) (bindNode n) := by
  induction n using Node.induct_children with
  | node n ih =>
    have ih (ns : List Node) (hns : ns ∈ n.childLists) :
        Emits Adds (fun _ _ => True) (bindAll ns) := by
      rw [bindAll_eq]
      exact (Emits.mapM (ih ns hns)).imp fun _ _ _ => trivial
    cases n with
    | expression code raw l =>
      rw [bindNode]
      refine .run_bind fun c => ?_
      split
      · exact ⟨[], Accumulates.nil c, trivial⟩
      · obtain ⟨new, hadds, -⟩ := fail_emits _ l c
        exact ⟨new, hadds, trivial⟩
    | element tag as children closing l =>
      rw [bindNode]
      refine .bind (bindAttributes_emits as) fun _ _ _ => ?_
      exact .bind (ih children (List.mem_singleton_self _)) fun _ _ _ => .pure trivial
    | island strategy script children l =>
      rw [bindNode]
      exact .bind (fail_emits _ l) fun _ _ _ => .pure trivial
    | _ =>
      rw [bindNode_of_ne (by simp) (by simp) (by simp)]
      exact (Emits.traverse ih).imp fun _ _ _ => trivial

/-- Where every expression can be bound, each of them shows the initial value of its name. -/
theorem bindNode_shows {S : Script → Prop} {texts : String → Option String}
    (ht : ∀ s name v, S s → s.initial? name = some v → texts name = some (displayText v))
    (n : Node) : Binds S (Shows texts n) (bindNode n) := by
  induction n using Node.induct_children with
  | node n ih =>
    have ih (ns : List Node) (hns : ns ∈ n.childLists) :
        Binds S (List.Forall₂ (Shows texts) ns) (bindAll ns) := by
      intro c hc
      rw [bindAll_eq] at hc ⊢
      exact (Steps.mapM bindNode ns c).reveals_forall₂ (ih ns hns) hc
    cases n with
    | expression code raw l =>
      rw [bindNode]
      refine .bind Reveals.get fun c => ?_
      split
      · next initial hinitial =>
        refine .pure fun hs => .marker ?_
        rw [Text.unescapeHtml_escapeHtml]
        exact ht _ _ _ hs.1 hinitial
      · exact .bind Binds.fail fun _ => .pure False.elim
    | element tag as children closing l =>
      rw [bindNode]
      refine .bind (bindAttributes_binds as) fun _ => ?_
      refine .bind (ih children (List.mem_singleton_self _)) fun _ => .pure fun hb _ => ?_
      exact .node (by simp) rfl (.cons hb .nil)
    | island strategy script children l =>
      rw [bindNode]
      exact .bind Binds.fail fun _ => .pure False.elim
    | _ =>
      rw [bindNode_of_ne (by simp) (by simp) (by simp)]
      intro c hc
      obtain ⟨hshell, hsteps⟩ := Node.traverse_steps bindAll _ c
      obtain ⟨hc, hlists⟩ := hsteps.reveals_forall₂ ih hc
      exact ⟨hc, .node (by simp) (congrArg Node.Form.kind (Node.form_of_shell hshell)) hlists⟩

end Content

/-- The module can run, and the page shows the texts with which it starts. -/
structure Placed.IsSound (p : Placed) : Prop where
  module : p.module.IsSound
  shows : List.Forall₂ (Shows fun name => (Hydrated.ofModule p.module).bindings.lookup name)
    p.source p.page

theorem bind_placed {id : String} {strategy : Strategy} {script : String} {children : List Node}
    {l : Location} {w : Node} {m : Module} (h : bind id strategy script children l = .ok (w, m)) :
    ∃ p : Placed, p.IsSound ∧ p.source = children ∧ p.module = m ∧
      w = wrapper m.id strategy p.page l := by
  obtain ⟨s, bound, c, hs, hrun, he, rfl, rfl⟩ := bind_eq_ok h
  rw [Content.bindAll_eq] at hrun
  have hsteps := Steps.mapM Content.bindNode children ⟨id, s, [], []⟩
  obtain ⟨new, hadds, -⟩ := Emits.mapM (fun n (_ : n ∈ children) => Content.bindNode_adds n)
    ⟨id, s, [], []⟩
  rw [hrun] at hsteps hadds
  have hactions : c.actions = new := hadds.actions
  have hm : Module.IsSound ⟨id, strategy, s, c.actions⟩ := by
    rw [hactions]
    exact ⟨Script.parse_isOrdered hs, hadds.distinct, fun a ha =>
      Script.mem_states_of_state? (hadds.targets a ha)⟩
  have htexts (t : Script) (name : String) (v : Value) (ht : t = s)
      (hv : t.initial? name = some v) :
      (Hydrated.ofModule ⟨id, strategy, s, c.actions⟩).bindings.lookup name =
        some (displayText v) := by
    rw [Hydrated.lookup_bindings_ofModule hm, ← ht, hv]
    rfl
  have hshows := hsteps.reveals_forall₂ (I := fun c => c.script = s ∧ c.errors = [])
    (fun n _ => Content.bindNode_shows htexts n) ⟨hadds.script, he⟩
  exact ⟨⟨children, bound, _⟩, ⟨hm, hshows.2⟩, rfl, rfl, rfl⟩

namespace Extraction

/-- From `e` to `f` by the modules of further islands that are well. -/
structure Places (e : Extraction) (ps : List Placed) (f : Extraction) : Prop where
  modules : f.modules = e.modules ++ ps.map Placed.module
  sound : ∀ p ∈ ps, p.IsSound

instance : Accumulates Places where
  nil e := ⟨(List.append_nil _).symm, List.forall_mem_nil _⟩
  append h h' := by
    refine ⟨?_, List.forall_mem_append.2 ⟨h.sound, h'.sound⟩⟩
    rw [h'.modules, h.modules, List.map_append, List.append_assoc]

theorem extractIsland_places (file : String) (strategy : Strategy) (script : String)
    (children : List Node) (l : Location) :
    Emits Places (Extracts (.island strategy script children l))
      (extractIsland file strategy script children l) := by
  refine .run_bind fun e => ?_
  split
  · next node m h =>
    obtain ⟨p, hp, rfl, rfl, rfl⟩ := bind_placed h
    exact ⟨[p], ⟨rfl, List.forall_mem_singleton.2 hp⟩, .wrapped⟩
  · exact ⟨[], ⟨(List.append_nil _).symm, List.forall_mem_nil _⟩, .failed rfl rfl⟩

theorem extract_places (file : String) (n : Node) :
    Emits Places (Extracts n) (extract file n) := by
  induction n using Node.induct_children with
  | node n ih =>
    have ih (ns : List Node) (hns : ns ∈ n.childLists) :
        Emits Places (Gather Extracts ns) (extractAll file ns) := by
      rw [extractAll_eq]
      exact .mapM (ih ns hns)
    by_cases hi : n.kind = .island
    · cases n with
      | island strategy script children l =>
        rw [extract]
        exact extractIsland_places file strategy script children l
      | _ => cases hi
    · rw [extract_of_ne hi]
      exact (Emits.traverse ih).imp fun m ps h => .node hi h.1 h.2

end Extraction

theorem extractIslands_places (file : String) (ns : List Node) :
    let x := extractIslands file ns
    ∃ ps : List Placed, Gather Extracts ns x.nodes ps ∧ x.modules = ps.map Placed.module ∧
      ∀ p ∈ ps, p.IsSound := by
  have h : Emits Extraction.Places (Gather Extracts ns) (Extraction.extractAll file ns) := by
    rw [Extraction.extractAll_eq]
    exact .mapM fun n _ => Extraction.extract_places file n
  obtain ⟨ps, hp, hg⟩ := h ⟨0, [], []⟩
  exact ⟨ps, hg, hp.modules, hp.sound⟩

/-- What can be said of the values of an island after calls, however many: on demand each name has
the value that one pass over the computed values gives it, and all names of the script have one.
At the start they show what the page shows. -/
theorem extractIslands_values (file : String) (ns : List Node) :
    let x := extractIslands file ns
    ∃ ps : List Placed, Gather Extracts ns x.nodes ps ∧ x.modules = ps.map Placed.module ∧
      ∀ p ∈ ps,
        let start := Hydrated.ofModule p.module
        (∀ calls : List Call,
          let h := start.after calls
          (∀ name r, h.Answers name r ↔ h.value? name = r) ∧
          (∀ name ∈ p.module.script.names, (h.value? name).isSome) ∧
          ∀ name, h.value? name = (p.module.script.update h.states).get? name) ∧
        List.Forall₂ (Shows fun name => start.bindings.lookup name) p.source p.page := by
  obtain ⟨ps, hg, hmodules, hsound⟩ := extractIslands_places file ns
  refine ⟨ps, hg, hmodules, fun p hp => ⟨fun calls => ?_, (hsound p hp).shows⟩⟩
  have hm := (hsound p hp).module
  have hf := (Hydrated.ofModule_follows hm).after hm calls
  refine ⟨fun name r => ⟨fun hr => ?_, fun hr => ?_⟩, hf.value?_isSome hm, fun name => ?_⟩
  · exact (hf.answers hm name).unique hr
  · exact hr ▸ hf.answers hm name
  · exact (hf.get?_update hm name).symm

/-- What calls make of an island: an action is dispatched if it is one of the module and the island
has been attached before, and else nothing changes. The states have values and nothing else has:
those that they have at first, changed by the actions that have been dispatched, in order. -/
theorem extractIslands_runs {file : String} {ns : List Node} {m : Module}
    (hm : m ∈ (extractIslands file ns).modules) (calls : List Call) :
    let start := Hydrated.ofModule m
    let h := start.after calls
    (∀ id, (h.dispatch? id).isSome ↔ Call.attach ∈ calls ∧ id ∈ m.actions.map Action.id) ∧
    (∀ id, (h.dispatch? id).isNone → h.call (.dispatch id) = h) ∧
    (∀ name, (h.states.get? name).isSome ↔ name ∈ m.script.states.map State.name) ∧
    ∀ s ∈ m.script.states,
      h.states.get? s.name = some (m.replay s.name (start.successes calls) s.initial) := by
  intro start h
  obtain ⟨ps, -, hmodules, hsound⟩ := extractIslands_places file ns
  rw [hmodules] at hm
  obtain ⟨p, hp, rfl⟩ := List.mem_map.1 hm
  have hs := (hsound p hp).module
  have hstart := Hydrated.ofModule_follows hs
  have hf : Hydrated.Follows p.module (calls.contains .attach) h := by
    simpa using hstart.after hs calls
  refine ⟨fun id => ?_, fun id hid => ?_, hf.states, fun s hstate => ?_⟩
  · rw [hf.dispatch?_isSome, List.contains_iff_mem]
  · rw [Hydrated.call, Option.isNone_iff_eq_none.1 hid]
    rfl
  · refine hstart.get?_after hs ?_ calls
    rw [Hydrated.get?_ofModule hs, Script.state?,
      find?_name hs.ordered.distinct.of_append_left hstate]
    rfl

theorem bind_ok {id : String} (strategy : Strategy) {script : String} {children : List Node}
    (l : Location) {s : Script} {c : Content} (hs : Script.parse script = .ok s)
    (hc : ((Content.bindAll children).run ⟨id, s, [], []⟩).2 = c) (he : c.errors = []) :
    ∃ w, bind id strategy script children l = .ok (w, ⟨id, strategy, s, c.actions⟩) := by
  subst hc
  rw [bind, hs]
  exact ⟨_, if_pos (List.isEmpty_iff.2 he)⟩

theorem modules_extractIsland {e : Extraction} {strategy : Strategy} {script : String}
    {children : List Node} {l : Location} {w : Node} {m : Module}
    (h : bind (islandId e.count) strategy script children l = .ok (w, m)) (file : String) :
    ((Extraction.extractIsland file strategy script children l).run e).2.modules =
      e.modules ++ [m] := by
  have hrun (f : String → Extraction.Extract Node) : (Extraction.number >>= f).run e =
      (f (islandId e.count)).run { e with count := e.count + 1 } := rfl
  rw [Extraction.extractIsland, hrun, h]
  rfl

/-- Before it is attached an island refuses, and attached twice it still carries out an action
once for each dispatch. -/
theorem extractIslands_runs_twice_attached :
    let click := Attribute.new "onclick" (.static "name.set('b')")
    let name := Node.expression "name" "name" .unknown
    let button := Node.element "button" [click] [name] false .unknown
    let ns := [Node.island .load "let name = Signal('a')" [button] .unknown]
    let m : Module := ⟨"i0", .load, ⟨[⟨"name", .string "a"⟩], []⟩,
      [⟨"i0a0", "click", ⟨"name", .assign, .string "b"⟩⟩]⟩
    let start := Hydrated.ofModule m
    let calls := [Call.dispatch "i0a0", .attach, .dispatch "i0a0", .attach, .dispatch "i0a1"]
    m ∈ (extractIslands "a.html" ns).modules ∧ start.successes calls = ["i0a0"] ∧
      (start.after calls).states.get? "name" = some (.string "b") := by
  intro click name button ns m start calls
  have hscript : Script.parse "let name = Signal('a')" = .ok m.script := by cbv
  have hrun : ((Content.bindAll [button]).run ⟨"i0", m.script, [], []⟩).2 =
      ⟨"i0", m.script, m.actions, []⟩ := by cbv
  obtain ⟨w, hbind⟩ := bind_ok .load .unknown hscript hrun rfl
  have hmodules : (extractIslands "a.html" ns).modules = [m] :=
    modules_extractIsland (e := ⟨0, [], []⟩) hbind "a.html"
  have hm : m ∈ (extractIslands "a.html" ns).modules := hmodules ▸ List.mem_singleton_self m
  have hsuccesses : start.successes calls = ["i0a0"] := by cbv
  obtain ⟨-, -, -, hvalues⟩ := extractIslands_runs hm calls
  refine ⟨hm, hsuccesses, ?_⟩
  have hname := hvalues ⟨"name", .string "a"⟩ (List.mem_singleton_self _)
  rw [hsuccesses] at hname
  exact hname

end Island

end PageCompiler
