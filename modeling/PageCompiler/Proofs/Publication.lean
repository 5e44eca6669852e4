import PageCompiler.Proofs.Cache
import PageCompiler.Proofs.Edits
import PageCompiler.Proofs.Tickets

/-!
What is published when calls overlap. Main statement: once all calls have come to their ends without
errors, the latest page is what the documents of the store compile to. What the calls let the
compiler remember shows in no page, in whatever order they do so.
-/

namespace PageCompiler

open Json (Object)

variable {o : Options} {all documents : List Document} {d e : Document}

/-- A document has the path and the markup of one of these. -/
def Document.IsKnown (all : List Document) (d : Document) : Prop :=
  ∃ e ∈ all, d.path = e.path ∧ d.markup = e.markup

theorem Document.hash_congr (hp : d.path = e.path) (hm : d.markup = e.markup) :
    d.hash = e.hash := by
  rw [hash, hash, identity, identity, hp, hm]

theorem Document.parsed_congr (hp : d.path = e.path) (hm : d.markup = e.markup) :
    d.parsed = e.parsed := by
  rw [parsed, parsed, hp, hm]

theorem HashesTell.of_isKnown (h : HashesTell all) (hd : ∀ d ∈ documents, d.IsKnown all) :
    HashesTell documents := by
  intro d hdm e hem hk
  obtain ⟨d', hd', hdp, hdm'⟩ := hd d hdm
  obtain ⟨e', he', hep, hem'⟩ := hd e hem
  rw [Document.hash_congr hdp hdm', Document.hash_congr hep hem'] at hk
  rw [hdp, hdm', hep, hem']
  exact h d' hd' e' he' hk

theorem ParseTable.IsRightFor.of_isKnown {t : ParseTable} (h : t.IsRightFor all)
    (hd : ∀ d ∈ documents, d.IsKnown all) : t.IsRightFor documents := by
  intro d hdm r hr
  obtain ⟨e, he, hp, hm⟩ := hd d hdm
  rw [Document.parsed_congr hp hm]
  exact h e he r (Document.hash_congr hp hm ▸ hr)

/-- A compiler with these options that remembers nothing wrong about the documents. -/
structure Compiler.IsRight (o : Options) (all : List Document) (c : Compiler) : Prop where
  options : c.options = o
  cache : c.cache.IsRightFor all

theorem Compiler.IsRight.compile {c : Compiler} (h : c.IsRight o all) (ha : HashesTell all)
    (hd : ∀ d ∈ documents, d.IsKnown all) (data : Object) :
    (c.compile documents data).1 = PageCompiler.compile o documents data ∧
      (c.compile documents data).2.IsRight o all := by
  have hk := @Compiler.compile_known c documents data (h.cache.of_isKnown hd)
  rw [h.options] at hk
  refine ⟨hk.1, Compiler.compile_options.trans h.options, ?_⟩
  rw [hk.2]
  split
  · -- documents of the pass may have other style sheets than the known ones, so both are taken
    have hb : ∀ d ∈ documents ++ all, d.IsKnown all := fun d hm =>
      (List.mem_append.1 hm).elim (hd d) fun hm => ⟨d, hm, rfl, rfl⟩
    have ht := ParseTable.isRightFor_ofDocuments (ha.of_isKnown hb) (List.subset_append_left _ _)
    exact ht.subset (List.subset_append_right _ _)
  · exact h.cache

def Edit.document (e : Edit) : Document := .ofMarkup e.path e.markup

/-- All documents of a site are known ones, and its compiler remembers nothing wrong about them. -/
structure Live.IsRight (o : Options) (all : List Document) (l : Live) : Prop where
  compiler : l.compiler.IsRight o all
  documents : ∀ d ∈ l.store.documents, d.IsKnown all

theorem Store.isKnown_applyEdits {s : Store} {es : List Edit}
    (hs : ∀ d ∈ s.documents, d.IsKnown all) (he : ∀ e ∈ es, e.document.IsKnown all) :
    ∀ d ∈ (s.applyEdits es).documents, d.IsKnown all := by
  intro d hd
  obtain hd | ⟨e, hem, hp, hm⟩ := Store.mem_applyEdits hd
  · exact hs d hd
  · obtain ⟨f, hf, hfp, hfm⟩ := he e hem
    exact ⟨f, hf, hp.trans hfp, hm.trans hfm⟩

namespace Overlap

variable {l l' : Live} {c c' : Call}

def Call.IsRight (o : Options) (all : List Document) : Call → Prop
  | drained _ edits => ∀ e ∈ edits, e.document.IsKnown all
  | reading _ _ documents => ∀ d ∈ documents, d.IsKnown all
  | compiled _ _ _ compiler => compiler.IsRight o all
  | _ => True

theorem Call.Step.isRight (h : c.Step l c' l') (ha : HashesTell all) (hl : l.IsRight o all)
    (hc : c.IsRight o all) : l'.IsRight o all ∧ c'.IsRight o all := by
  cases h with
  | apply data edits => exact ⟨⟨hl.compiler, Store.isKnown_applyEdits hl.documents hc⟩, trivial⟩
  | begin data => exact ⟨⟨hl.compiler, hl.documents⟩, trivial⟩
  | read data ticket => exact ⟨hl, hl.documents⟩
  | compile data ticket documents => exact ⟨hl, (hl.compiler.compile ha hc data).2⟩
  | remember data ticket result compiler hk =>
    obtain rfl | rfl := hk
    · exact ⟨⟨hc, hl.documents⟩, trivial⟩
    · exact ⟨⟨hl.compiler, hl.documents⟩, trivial⟩
  | publish data page hn => exact ⟨⟨hl.compiler, hl.documents⟩, trivial⟩
  | _ => exact ⟨hl, trivial⟩

namespace State

variable {s t : State} {e : Event} {events : List Event}

structure IsRight (o : Options) (all : List Document) (s : State) : Prop where
  live : s.live.IsRight o all
  pending : ∀ e ∈ s.buffer.pending, e.document.IsKnown all
  calls : ∀ c ∈ s.calls, c.IsRight o all

theorem IsRight.start (window : Nat) {store : Store}
    (hs : ∀ d ∈ store.documents, d.IsKnown all) :
    IsRight o all ⟨.new window, .new o store, []⟩ where
  live := ⟨⟨rfl, ParseTable.isRightFor_nil all⟩, hs⟩
  pending := nofun
  calls := nofun

theorem Step.isRight (h : s.Step e t) (ha : HashesTell all) (hs : s.IsRight o all)
    (he : ∀ f ∈ recorded [e], f.document.IsKnown all) : t.IsRight o all := by
  have hdrain (now : Nat) (f : Edit) (hf : f ∈ (s.buffer.drain now).1 ∨
      f ∈ (s.buffer.drain now).2.pending) : f.document.IsKnown all :=
    hs.pending f (EditBuffer.drain_append s.buffer now ▸ List.mem_append.2 hf)
  cases h with
  | record e now =>
    refine ⟨hs.live, fun f hf => ?_, hs.calls⟩
    obtain rfl | hf := EditBuffer.mem_of_mem_insert hf
    · exact he f List.mem_cons_self
    · exact hs.pending f hf
  | idle now data h => exact ⟨hs.live, fun f hf => hdrain now f (.inr hf), hs.calls⟩
  | process now data h =>
    refine ⟨hs.live, fun f hf => hdrain now f (.inr hf), ?_⟩
    rw [List.forall_mem_append, List.forall_mem_singleton]
    exact ⟨hs.calls, fun f hf => hdrain now f (.inl hf)⟩
  | recompile data =>
    refine ⟨hs.live, hs.pending, ?_⟩
    rw [List.forall_mem_append, List.forall_mem_singleton]
    exact ⟨hs.calls, trivial⟩
  | @advance before after c c' live hc h =>
    have hcalls := hs.calls
    rw [hc, List.forall_mem_append, List.forall_mem_cons] at hcalls
    obtain ⟨hlive, hc'⟩ := h.isRight ha hs.live hcalls.2.1
    refine ⟨hlive, hs.pending, ?_⟩
    rw [List.forall_mem_append, List.forall_mem_cons]
    exact ⟨hcalls.1, hc', hcalls.2.2⟩

/-- Whatever calls do in between, the memory that they share stays right. -/
theorem run?_isRight (h : s.run? events = some t) (ha : HashesTell all) (hs : s.IsRight o all)
    (he : ∀ f ∈ recorded events, f.document.IsKnown all) : t.IsRight o all := by
  induction events generalizing s with
  | nil =>
    obtain rfl := Option.some.inj h
    exact hs
  | cons e events ih =>
    obtain ⟨m, hm, ht⟩ := run?_cons.1 h
    rw [recorded_cons, List.forall_mem_append] at he
    exact ih ht ((step_of_step? hm).isRight ha hs he.1) he.2

/-- All passes of calls that overlap have different numbers, and a page is never replaced by one of
an earlier pass. Once calls have come to their ends without errors, the page of the newest pass is
the latest one, and what the documents of the store compile to. -/
theorem run?_latest (window : Nat) (o : Options) (store : Store)
    (h : run? ⟨.new window, .new o store, []⟩ events = some s) :
    let start : State := ⟨.new window, .new o store, []⟩
    (s.calls.filterMap Call.ticket?).Perm (List.range' 1 s.live.passes) ∧
    (∀ before m, before <+: events → start.run? before = some m →
      Advances m.live.published s.live.published) ∧
    (s.calls ≠ [] → (∀ c ∈ s.calls, c.isOk) → ∃ data page,
      .finished data s.live.passes (.ok (some page)) ∈ s.calls ∧
      s.live.latest? = some page ∧
      (∃ before m, before <+: events ∧ start.run? before = some m ∧
        (m.live.compiler.compile s.live.store.documents data).1 = .ok page) ∧
      (HashesTell (store.documents ++ (recorded events).map Edit.document) →
        PageCompiler.compile o s.live.store.documents data = .ok page)) := by
  intro start
  let made (documents : List Document) (data : Object) (result : Compiler.Result) : Prop :=
    ∃ before m, before <+: events ∧ start.run? before = some m ∧
      (m.live.compiler.compile documents data).1 = result
  have hi : Inv made s.live s.calls :=
    run?_inv h (.new o store) fun before m hb hm _ _ => ⟨before, m, hb, hm, rfl⟩
  refine ⟨hi.tickets, fun before m hb hm => ?_, fun hne hok => ?_⟩
  · obtain ⟨after, rfl⟩ := hb
    obtain ⟨m', hm', hs⟩ := run?_append.1 h
    obtain rfl := Option.some.inj (hm.symm.trans hm')
    exact run?_advances hs
  obtain ⟨c, hc, ht⟩ := hi.exists_newest hne hok
  obtain ⟨data, ticket, answer, rfl⟩ := Call.isOk_iff.1 (hok c hc)
  obtain rfl := Option.some.inj ht
  obtain ⟨data', hr⟩ | ⟨page, rfl, hp, hmade⟩ := hi.current _ hc rfl
  · cases hok _ hr
  refine ⟨data, page, hc, congrArg (Option.map Publication.page) hp, hmade, fun ha => ?_⟩
  obtain ⟨before, m, hb, hm, hcompile⟩ := hmade
  have hknown : ∀ d ∈ store.documents ++ (recorded events).map Edit.document,
      d.IsKnown (store.documents ++ (recorded events).map Edit.document) :=
    fun d hd => ⟨d, hd, rfl, rfl⟩
  rw [List.forall_mem_append, List.forall_mem_map] at hknown
  have hstart := IsRight.start (o := o) window hknown.1
  have hs := run?_isRight h ha hstart hknown.2
  have hmr := run?_isRight hm ha hstart fun f hf => hknown.2 f ?_
  · rw [← hcompile]
    exact ((hmr.live.compiler.compile ha hs.live.documents data).1).symm
  · obtain ⟨after, rfl⟩ := hb
    rw [recorded_append]
    exact List.mem_append_left _ hf

/-- A call that is overtaken by another one. -/
theorem run?_latest_overtaken :
    let page : Document := .ofMarkup "a.html" "<p></p>"
    let start : State := ⟨.new 0, .new default ⟨[page]⟩, []⟩
    let events : List Event := [.record ⟨"a.html", "1"⟩ 0, .process 0 [], .recompile []] ++
      [0, 0, 0, 1, 1, 1, 1, 1, 1, 0, 0, 0].map .advance
    HashesTell ([page] ++ (recorded events).map Edit.document) ∧
      ∃ s, start.run? events = some s ∧ s.calls ≠ [] ∧ (∀ c ∈ s.calls, c.isOk) ∧
        ∃ data page, s.live.latest? = some page ∧
          PageCompiler.compile default s.live.store.documents data = .ok page := by
  intro page start events
  have ha : HashesTell ([page] ++ (recorded events).map Edit.document) := by decide +kernel
  have hrun : ∃ s ∈ start.run? events, s.calls ≠ [] ∧ ∀ c ∈ s.calls, c.isOk := by
    decide +kernel
  obtain ⟨s, hs, hne, hok⟩ := hrun
  obtain ⟨data, latest, -, hl, -, hc⟩ := (run?_latest 0 default ⟨[page]⟩ hs).2.2 hne hok
  exact ⟨ha, s, hs, hne, hok, data, latest, hl, hc ha⟩

end State

end Overlap

end PageCompiler
