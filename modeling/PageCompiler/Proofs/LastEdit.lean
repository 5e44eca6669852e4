import PageCompiler.Proofs.Edits
import PageCompiler.Proofs.Overlap

/-!
Which of several edits of a path stays, if calls that process edits overlap. Main statements: it is
one that has been recorded, and the last one if the calls apply their edits in turn. Between taking
edits out of the buffer and applying them a call may be overtaken, and then an older edit replaces
a newer one.
-/

namespace PageCompiler

namespace Store

def markup? (s : Store) (path : String) : Option String := (s.document? path).map Document.markup

theorem markup?_applyEdits (s : Store) (es : List Edit) (path : String) :
    (s.applyEdits es).markup? path = (lastMarkup? path es).or (s.markup? path) := by
  rw [markup?, document?_applyEdits]
  cases lastMarkup? path es with
  | none => rfl
  | some m => cases s.document? path <;> rfl

end Store

namespace Overlap

variable {c c' : Call} {l l' : Live}

/-- The store has the edits of a call behind its first step. -/
theorem Call.Step.edits (h : c.Step l c' l') :
    c'.edits = [] ∧
      ∀ path, l'.store.markup? path = (lastMarkup? path c.edits).or (l.store.markup? path) := by
  cases h with
  | apply data edits => exact ⟨rfl, Store.markup?_applyEdits l.store edits⟩
  | _ => exact ⟨rfl, fun _ => rfl⟩

namespace State

variable {s t : State} {e : Event} {events : List Event} {es : List Edit} {path : String}

def unapplied (s : State) : List Edit := s.calls.flatMap Call.edits ++ s.buffer.pending

/-- What the store comes to have for a path if all that waits is applied in its order. -/
def settled? (s : State) (path : String) : Option String :=
  (lastMarkup? path s.unapplied).or (s.live.store.markup? path)

/-- No call applies an edit while an earlier call still has one of that path. -/
def IsInTurn (s : State) : Event → Prop
  | .advance index =>
    ∀ c ∈ s.calls[index]?, ∀ earlier ∈ s.calls.take index, ∀ e ∈ c.edits,
      e.path ∉ earlier.edits.map Edit.path
  | _ => True

def RunsInTurn (s : State) : List Event → Prop
  | [] => True
  | e :: events => s.IsInTurn e ∧ ∀ t ∈ s.step? e, t.RunsInTurn events

instance (s : State) : (e : Event) → Decidable (s.IsInTurn e)
  | .advance index =>
    inferInstanceAs (Decidable (∀ c ∈ s.calls[index]?, ∀ earlier ∈ s.calls.take index,
      ∀ e ∈ c.edits, e.path ∉ earlier.edits.map Edit.path))
  | .record .. => isTrue trivial
  | .process .. => isTrue trivial
  | .recompile _ => isTrue trivial

instance : (s : State) → (events : List Event) → Decidable (s.RunsInTurn events)
  | _, [] => isTrue trivial
  | s, e :: events =>
    have (t : State) : Decidable (t.RunsInTurn events) := instDecidableRunsInTurn t events
    inferInstanceAs (Decidable (s.IsInTurn e ∧ ∀ t ∈ s.step? e, t.RunsInTurn events))

theorem Step.isCoalesced (h : s.Step e t) (hb : EditBuffer.IsCoalesced s.buffer.pending) :
    EditBuffer.IsCoalesced t.buffer.pending := by
  cases h with
  | record e now => exact EditBuffer.record_isCoalesced hb
  | idle now data h => exact EditBuffer.drain_isCoalesced hb
  | process now data h => exact EditBuffer.drain_isCoalesced hb
  | recompile data => exact hb
  | advance before after hc h => exact hb

theorem Step.unapplied_process {now : Nat} {data : Json.Object} (h : s.Step (.process now data) t) :
    t.unapplied = s.unapplied ∧ t.live = s.live := by
  have hd := s.buffer.drain_append now
  cases h with
  | idle now data h =>
    rw [h, List.nil_append] at hd
    rw [unapplied, hd]
    exact ⟨rfl, rfl⟩
  | process now data h =>
    refine ⟨?_, rfl⟩
    rw [unapplied, List.flatMap_append, List.append_assoc]
    exact congrArg _ ((congrArg (· ++ _) (List.append_nil _)).trans hd)

theorem Step.unapplied_recompile {data : Json.Object} (h : s.Step (.recompile data) t) :
    t.unapplied = s.unapplied ∧ t.live = s.live := by
  cases h
  simp [unapplied, Call.edits]

theorem Step.unapplied_subset (h : s.Step e t) : t.unapplied ⊆ s.unapplied ++ recorded [e] := by
  cases e with
  | record e now =>
    cases h
    intro f hf
    obtain hc | hf := List.mem_append.1 hf
    · exact List.mem_append_left _ (List.mem_append_left _ hc)
    · obtain rfl | hf := EditBuffer.mem_of_mem_insert hf
      · exact List.mem_append_right _ (List.mem_singleton_self f)
      · exact List.mem_append_left _ (List.mem_append_right _ hf)
  | process now data =>
    rw [h.unapplied_process.1]
    exact List.subset_append_left _ _
  | recompile data =>
    rw [h.unapplied_recompile.1]
    exact List.subset_append_left _ _
  | advance index =>
    cases h with
    | advance before after hc h =>
      intro f hf
      simp only [unapplied, hc, List.flatMap_append, List.flatMap_cons, h.edits.1, List.nil_append,
        List.mem_append] at hf ⊢
      tauto

/-- With a step the last edits stay the last ones, unless edits are applied out of their turn: then
one that an earlier call still has comes to be the last one. -/
theorem Step.settled? (h : s.Step e t) (hb : EditBuffer.IsCoalesced s.buffer.pending)
    (path : String) :
    t.settled? path = (lastMarkup? path (recorded [e])).or (s.settled? path) ∨
      ¬s.IsInTurn e ∧ ∃ f ∈ s.unapplied, f.path = path ∧ t.settled? path = some f.markup := by
  cases e with
  | record e now =>
    cases h
    left
    simp [State.settled?, unapplied, recorded, EditBuffer.lastMarkup?_record hb, Option.or_assoc]
  | process now data =>
    left
    rw [State.settled?, h.unapplied_process.1, h.unapplied_process.2]
    rfl
  | recompile data =>
    left
    rw [State.settled?, h.unapplied_recompile.1, h.unapplied_recompile.2]
    rfl
  | advance index =>
    cases h with
    | @advance before after c c' live hc h =>
      -- the edits of this call come to stand before those of the calls in front of it
      let others := after.flatMap Call.edits ++ s.buffer.pending
      have hs : s.settled? path =
          (lastMarkup? path (before.flatMap Call.edits ++ c.edits ++ others)).or
            (s.live.store.markup? path) := by
        simp [State.settled?, unapplied, others, hc]
      have ht : State.settled? ⟨s.buffer, live, before ++ c' :: after⟩ path =
          (lastMarkup? path (c.edits ++ before.flatMap Call.edits ++ others)).or
            (s.live.store.markup? path) := by
        simp [State.settled?, unapplied, others, h.edits.1, h.edits.2, Option.or_assoc]
      rw [hs, ht]
      obtain heq | ⟨f, hf, g, hg, hfp, hgp, hlast⟩ :=
        lastMarkup?_swap (before.flatMap Call.edits) c.edits others path
      · rw [heq]
        exact .inl rfl
      · obtain ⟨earlier, hearlier, hfe⟩ := List.mem_flatMap.1 hf
        refine .inr ⟨fun hturn => ?_, f, ?_, hfp, by rw [hlast]; rfl⟩
        · refine hturn c (by simp [hc]) earlier (by simpa [hc] using hearlier) g hg ?_
          exact List.mem_map.2 ⟨f, hfe, hfp.trans hgp.symm⟩
        · simp only [unapplied, hc, List.flatMap_append, List.mem_append]
          exact .inl (.inl hf)

/-- Where a run from a site has come to that recorded these edits. -/
structure Accounts (l : Live) (es : List Edit) (s : State) : Prop where
  isCoalesced : EditBuffer.IsCoalesced s.buffer.pending
  unapplied_subset : s.unapplied ⊆ es
  edited : ∀ path ∈ es.map Edit.path, ∃ e ∈ es, e.path = path ∧ s.settled? path = some e.markup
  unedited : ∀ path ∉ es.map Edit.path, s.settled? path = l.store.markup? path

theorem Accounts.start (window : Nat) (l : Live) : Accounts l [] ⟨.new window, l, []⟩ where
  isCoalesced := List.Pairwise.nil
  unapplied_subset := List.nil_subset _
  edited := nofun
  unedited _ _ := rfl

theorem Accounts.step {l : Live} (h : Accounts l es s) (hs : s.Step e t) :
    Accounts l (es ++ recorded [e]) t where
  isCoalesced := hs.isCoalesced h.isCoalesced
  unapplied_subset f hf := by
    obtain hf | hf := List.mem_append.1 (hs.unapplied_subset hf)
    · exact List.mem_append_left _ (h.unapplied_subset hf)
    · exact List.mem_append_right _ hf
  edited path hp := by
    obtain ht | ⟨-, f, hf, hfp, ht⟩ := hs.settled? h.isCoalesced path
    · rw [ht]
      cases hm : lastMarkup? path (recorded [e]) with
      | some m =>
        obtain ⟨f, hf, hfp, rfl⟩ := exists_mem_of_lastMarkup? hm
        exact ⟨f, List.mem_append_right _ hf, hfp, rfl⟩
      | none =>
        rw [List.map_append, List.mem_append, or_iff_left (lastMarkup?_eq_none.1 hm)] at hp
        obtain ⟨f, hf, hfp, hs⟩ := h.edited path hp
        exact ⟨f, List.mem_append_left _ hf, hfp, hs⟩
    · exact ⟨f, List.mem_append_left _ (h.unapplied_subset hf), hfp, ht⟩
  unedited path hp := by
    rw [List.map_append, List.mem_append, not_or] at hp
    obtain ht | ⟨-, f, hf, hfp, -⟩ := hs.settled? h.isCoalesced path
    · rw [ht, lastMarkup?_eq_none.2 hp.2, Option.none_or, h.unedited path hp.1]
    · exact absurd (List.mem_map.2 ⟨f, h.unapplied_subset hf, hfp⟩) hp.1

theorem run?_accounts {window : Nat} {l : Live}
    (h : run? ⟨.new window, l, []⟩ events = some s) : Accounts l (recorded events) s :=
  run?_induct (motive := fun events s => Accounts l (recorded events) s) h
    (.start window l) fun hs he => recorded_append _ _ ▸ hs.step he

/-- Where edits are applied in turn, the last one of a path is the last one that was recorded. -/
theorem run?_settled (h : s.run? events = some t) (hb : EditBuffer.IsCoalesced s.buffer.pending)
    (hturn : s.RunsInTurn events) (path : String) :
    t.settled? path = (lastMarkup? path (recorded events)).or (s.settled? path) := by
  induction events generalizing s with
  | nil =>
    obtain rfl := Option.some.inj h
    rfl
  | cons e events ih =>
    obtain ⟨m, he, hm⟩ := run?_cons.1 h
    have hs := step_of_step? he
    rw [ih hm (hs.isCoalesced hb) (hturn.2 m he),
      (hs.settled? hb path).resolve_right fun hn => hn.1 hturn.1, recorded_cons e events,
      lastMarkup?_append, Option.or_assoc]

theorem settled?_of_isFinished (hf : ∀ c ∈ s.calls, c.isFinished) (hp : s.buffer.pending = [])
    (path : String) : s.settled? path = s.live.store.markup? path := by
  have hn : s.calls.flatMap Call.edits = [] := by
    refine List.flatMap_eq_nil_iff.2 fun c hc => ?_
    cases c with
    | drained data edits => cases hf _ hc
    | _ => rfl
  rw [settled?, unapplied, hn, hp]
  rfl

/-- Once all calls have come to their ends and no edit waits, the store has for each edited path
markup that was recorded for it, and it has the markup that was recorded last if no call applied
edits before an earlier one that had edits of the same paths. Other paths are as they were. -/
theorem run?_lastEdit (window : Nat) (l : Live) (h : run? ⟨.new window, l, []⟩ events = some s)
    (hf : ∀ c ∈ s.calls, c.isFinished) (hp : s.buffer.pending = []) (path : String) :
    (path ∈ (recorded events).map Edit.path →
      ∃ e ∈ recorded events, e.path = path ∧ s.live.store.markup? path = some e.markup) ∧
    (path ∈ (recorded events).map Edit.path → RunsInTurn ⟨.new window, l, []⟩ events →
      s.live.store.markup? path = lastMarkup? path (recorded events)) ∧
    (path ∉ (recorded events).map Edit.path →
      s.live.store.markup? path = l.store.markup? path) := by
  have ha := run?_accounts h
  rw [← settled?_of_isFinished hf hp]
  refine ⟨ha.edited path, fun hr hturn => ?_, ha.unedited path⟩
  rw [run?_settled h (Accounts.start window l).isCoalesced hturn]
  refine Option.or_of_isSome ?_
  rwa [Option.isSome_iff_ne_none, ne_eq, lastMarkup?_eq_none, not_not]

/-- Two calls that overlap. The one that began first is the first one to apply its edits. -/
theorem run?_lastEdit_overlap :
    let l : Live := .new default ⟨[]⟩
    let events : List Event :=
      [.record ⟨"a.html", "1"⟩ 0, .process 0 [], .record ⟨"a.html", "2"⟩ 0, .process 0 []] ++
        [0, 1, 0, 0, 1, 1, 1, 1, 0, 0, 0, 1, 1].map .advance
    RunsInTurn ⟨.new 0, l, []⟩ events ∧
      ∃ s, run? ⟨.new 0, l, []⟩ events = some s ∧ (∀ c ∈ s.calls, c.isFinished) ∧
        s.buffer.pending = [] ∧
        s.live.store.markup? "a.html" = lastMarkup? "a.html" (recorded events) := by
  intro l events
  have hturn : RunsInTurn ⟨.new 0, l, []⟩ events := by decide +kernel
  have hrun : ∃ s ∈ run? ⟨.new 0, l, []⟩ events,
      (∀ c ∈ s.calls, c.isFinished) ∧ s.buffer.pending = [] := by
    decide +kernel
  obtain ⟨s, hs, hf, hp⟩ := hrun
  exact ⟨hturn, s, hs, hf, hp,
    (run?_lastEdit 0 l hs hf hp "a.html").2.1 (by decide) hturn⟩

/-- Out of turn, an older edit may replace a newer one. -/
theorem run?_lastEdit_overtaken :
    ¬∀ (window : Nat) (l : Live) (events : List Event) (s : State),
      run? ⟨.new window, l, []⟩ events = some s → (∀ c ∈ s.calls, c.isFinished) →
        s.buffer.pending = [] → ∀ path ∈ (recorded events).map Edit.path,
          s.live.store.markup? path = lastMarkup? path (recorded events) := by
  intro hlast
  let l : Live := .new default ⟨[]⟩
  let events : List Event :=
    [.record ⟨"a.html", "1"⟩ 0, .process 0 [], .record ⟨"a.html", "2"⟩ 0, .process 0 []] ++
      [1, 1, 1, 1, 1, 1, 1, 0, 0, 0, 0, 0, 0, 0].map .advance
  have hrun : ∃ s ∈ run? ⟨.new 0, l, []⟩ events,
      (∀ c ∈ s.calls, c.isFinished) ∧ s.buffer.pending = [] ∧
        s.live.store.markup? "a.html" = some "1" := by
    decide +kernel
  obtain ⟨s, hs, hf, hp, hm⟩ := hrun
  have h2 := hlast 0 l events s hs hf hp "a.html" (by decide)
  rw [hm] at h2
  revert h2
  decide

end State

end Overlap

end PageCompiler
