import PageCompiler.Proofs.Overlap

/-!
Numbers of passes when calls overlap. Main statements: each number belongs to one call, later pages
have greater numbers, and the call with the newest one works on the documents that are in the store,
unless another call is about to begin.
-/

namespace PageCompiler.Overlap

open Json (Object)

variable {c c' d : Call} {l l' : Live} {calls rest : List Call}

namespace Call

/-- Its page has had its turn to be published. -/
def isPast : Call → Bool
  | published .. => true
  | finished .. => true
  | _ => false

end Call

/-- What comes of documents and data. -/
abbrev Making := List Document → Object → Compiler.Result → Prop

namespace Call

/-- A call is in step with the documents of the store: if it has read them, they are the same, and
what it has made of them is the latest page once it has been published. -/
def IsCurrent (made : Making) (l : Live) : Call → Prop
  | reading _ _ documents => documents = l.store.documents
  | compiled data _ result _ => made l.store.documents data result
  | remembered data _ result => made l.store.documents data result
  | published data ticket =>
    ∃ page, l.published = some ⟨ticket, page⟩ ∧ made l.store.documents data (.ok page)
  | finished data ticket (.ok answer) =>
    ∃ page, answer = some page ∧ l.published = some ⟨ticket, page⟩ ∧
      made l.store.documents data (.ok page)
  | _ => True

variable {made : Making}

theorem IsCurrent.congr (h : d.IsCurrent made l) (hs : l'.store = l.store)
    (hp : l'.published = l.published) : d.IsCurrent made l' := by
  unfold IsCurrent at *
  rwa [hs, hp]

/-- A call takes a new number when it begins, and keeps it. -/
theorem Step.ticket (h : c.Step l c' l') :
    (∃ data, c = .ready data ∧ c' = .begun data (l.passes + 1) ∧
      l' = { l with passes := l.passes + 1 }) ∨
    c'.ticket? = c.ticket? ∧ l'.passes = l.passes := by
  cases h with
  | begin data => exact .inl ⟨data, rfl, rfl, rfl⟩
  | _ => exact .inr ⟨rfl, rfl⟩

theorem Step.isPast (h : c.Step l c' l') (hc : c.isPast) : c'.isPast ∧ c'.ticket? = c.ticket? := by
  cases h with
  | finish data ticket => exact ⟨rfl, rfl⟩
  | _ => cases hc

/-- The page that is published changes only to one of the newest pass, by the call that has made
it. -/
theorem Step.published (h : c.Step l c' l') :
    l'.published = l.published ∨
    (∀ p ∈ l.published, p.ticket < l.passes) ∧ c.ticket? = some l.passes ∧
      c'.ticket? = some l.passes ∧ c'.isPast ∧
      ∃ page, l'.published = some ⟨l.passes, page⟩ := by
  cases h with
  | publish data page hn => exact .inr ⟨hn, rfl, rfl, rfl, page, rfl⟩
  | _ => exact .inl rfl

theorem Step.store (h : c.Step l c' l') :
    (∃ data, c' = .ready data) ∨ l'.store = l.store := by
  cases h with
  | apply data edits => exact .inl ⟨data, rfl⟩
  | _ => exact .inr rfl

end Call

def Advances (p q : Option Publication) : Prop := ∀ a ∈ p, ∃ b ∈ q, a = b ∨ a.ticket < b.ticket

theorem Advances.refl (p : Option Publication) : Advances p p := fun a ha => ⟨a, ha, .inl rfl⟩

theorem Advances.trans {p q r : Option Publication} (h : Advances p q) (h' : Advances q r) :
    Advances p r := by
  intro a ha
  obtain ⟨b, hb, rfl | hab⟩ := h a ha
  · exact h' a hb
  · obtain ⟨c, hc, rfl | hbc⟩ := h' b hb
    · exact ⟨b, hc, .inr hab⟩
    · exact ⟨c, hc, .inr (hab.trans hbc)⟩

theorem Call.Step.advances (h : c.Step l c' l') : Advances l.published l'.published := by
  obtain hp | ⟨hn, -, -, -, page, hp⟩ := h.published
  · rw [hp]
    exact .refl _
  · rw [hp]
    exact fun a ha => ⟨_, rfl, .inr (hn a ha)⟩

def AnyReady (calls : List Call) : Prop := ∃ data, .ready data ∈ calls

theorem AnyReady.mono {calls' : List Call} (h : AnyReady calls) (hs : calls ⊆ calls') :
    AnyReady calls' := by
  obtain ⟨data, hr⟩ := h
  exact ⟨data, hs hr⟩

/-- The numbers are given to one call each, the page that is published is of a call that has had
its turn, and the newest call is in step with the documents if no other one is about to begin. -/
structure Inv (made : Making) (l : Live) (calls : List Call) : Prop where
  tickets : (calls.filterMap Call.ticket?).Perm (List.range' 1 l.passes)
  published : ∀ p ∈ l.published, ∃ c ∈ calls, c.ticket? = some p.ticket ∧ c.isPast
  current : ∀ c ∈ calls, c.ticket? = some l.passes → AnyReady calls ∨ c.IsCurrent made l

namespace Inv

variable {made : Making}

theorem new (o : Options) (store : Store) : Inv made (.new o store) [] where
  tickets := .refl _
  published := nofun
  current := nofun

theorem perm {calls' : List Call} (h : Inv made l calls) (hp : calls.Perm calls') :
    Inv made l calls' where
  tickets := (hp.filterMap _).symm.trans h.tickets
  published p hpub := by
    obtain ⟨c, hc, ht⟩ := h.published p hpub
    exact ⟨c, hp.mem_iff.1 hc, ht⟩
  current c hc ht := (h.current c (hp.mem_iff.2 hc) ht).imp_left fun hw => hw.mono hp.subset

theorem cons (h : Inv made l calls) (hc : c.ticket? = none) : Inv made l (c :: calls) where
  tickets := by
    rw [List.filterMap_cons_none hc]
    exact h.tickets
  published p hp := by
    obtain ⟨d, hd, ht⟩ := h.published p hp
    exact ⟨d, List.mem_cons_of_mem c hd, ht⟩
  current d hd ht := by
    obtain rfl | hd := List.mem_cons.1 hd
    · rw [hc] at ht
      cases ht
    · exact (h.current d hd ht).imp_left fun hw => hw.mono (List.subset_cons_self c calls)

theorem ticket_le (h : Inv made l calls) (hc : c ∈ calls) {ticket : Nat}
    (ht : c.ticket? = some ticket) : 0 < ticket ∧ ticket ≤ l.passes := by
  have hm := h.tickets.mem_iff.1 (List.mem_filterMap.2 ⟨c, hc, ht⟩)
  rw [List.mem_range'_1] at hm
  omega

theorem ticket_ne (h : Inv made l (c :: rest)) (hd : d ∈ rest) {ticket : Nat}
    (hc : c.ticket? = some ticket) : d.ticket? ≠ some ticket := by
  have hn : ((c :: rest).filterMap Call.ticket?).Nodup := h.tickets.nodup_iff.2 List.nodup_range'
  rw [List.filterMap_cons_some hc, List.nodup_cons] at hn
  exact fun ht => hn.1 (List.mem_filterMap.2 ⟨d, hd, ht⟩)

theorem exists_newest (h : Inv made l calls) (hne : calls ≠ []) (hok : ∀ c ∈ calls, c.isOk) :
    ∃ c ∈ calls, c.ticket? = some l.passes := by
  obtain ⟨c, hc⟩ := List.exists_mem_of_ne_nil calls hne
  obtain ⟨data, ticket, answer, rfl⟩ := Call.isOk_iff.1 (hok c hc)
  have hle := h.ticket_le hc rfl
  have hm : l.passes ∈ List.range' 1 l.passes := by
    rw [List.mem_range'_1]
    omega
  exact List.mem_filterMap.1 (h.tickets.mem_iff.2 hm)

/-- The newest pass has had no turn before the call that makes it. -/
theorem ticket_lt (h : Inv made l (c :: rest)) (hc : c.ticket? = some l.passes)
    (hn : c.isPast = false) : ∀ p ∈ l.published, p.ticket < l.passes := by
  intro p hp
  obtain ⟨d, hd, ht, hpast⟩ := h.published p hp
  refine lt_of_le_of_ne (h.ticket_le hd ht).2 fun heq => ?_
  obtain rfl | hd := List.mem_cons.1 hd
  · rw [hn] at hpast
    cases hpast
  · exact h.ticket_ne hd hc (heq ▸ ht)

theorem current_head (h : Inv made l (c :: rest)) (hc : c.ticket? = some l.passes) :
    AnyReady rest ∨ c.IsCurrent made l := by
  refine (h.current c List.mem_cons_self hc).imp_left fun hr => ?_
  obtain ⟨data, hr⟩ := hr
  obtain rfl | hr := List.mem_cons.1 hr
  · cases hc
  · exact ⟨data, hr⟩

/-- A call that has the newest number behind a step is in step with the documents. -/
theorem current_step (h : Inv made l (c :: rest)) (hs : c.Step l c' l')
    (hmade : ∀ documents data, made documents data (l.compiler.compile documents data).1)
    (ht : c'.ticket? = some l'.passes) : AnyReady rest ∨ c'.IsCurrent made l' := by
  cases hs with
  | apply data edits => cases ht
  | begin data => exact .inr trivial
  | read data ticket => exact .inr rfl
  | compile data ticket documents =>
    refine (h.current_head ht).imp_right fun hc => ?_
    obtain rfl : documents = l.store.documents := hc
    exact hmade _ data
  | remember data ticket result compiler hk => exact h.current_head ht
  | fail data ticket e => exact .inr trivial
  | publish data page hn => exact (h.current_head ht).imp_right fun hc => ⟨page, rfl, hc⟩
  | discard data ticket page hn =>
    -- the newest page is refused only where a page of its pass is out, which this call has not sent
    have hlt := h.ticket_lt ht rfl
    obtain rfl := Option.some.inj ht
    obtain ⟨p, hp, hle⟩ := hn rfl
    exact absurd hle (hlt p hp).not_ge
  | finish data ticket =>
    refine (h.current_head ht).imp_right fun hc => ?_
    obtain ⟨page, hp, hm⟩ := hc
    exact ⟨page, by rw [Live.latest?, hp]; rfl, hp, hm⟩

/-- Another call stays in step with the documents, unless this one has changed them. -/
theorem current_other (h : Inv made l (c :: rest)) (hs : c.Step l c' l') (hd : d ∈ rest)
    (ht : d.ticket? = some l'.passes) : AnyReady (c' :: rest) ∨ d.IsCurrent made l' := by
  have hmem : d ∈ c :: rest := List.mem_cons_of_mem c hd
  obtain ⟨data, -, -, rfl⟩ | ⟨htk, hp⟩ := hs.ticket
  · exact absurd (h.ticket_le hmem ht).2 (Nat.not_succ_le_self l.passes)
  rw [hp] at ht
  obtain ⟨data, rfl⟩ | hst := hs.store
  · exact .inl ⟨data, List.mem_cons_self⟩
  obtain hpub | ⟨-, htc, -⟩ := hs.published
  · obtain ⟨data, hr⟩ | hc := h.current d hmem ht
    · obtain rfl | hr := List.mem_cons.1 hr
      · cases hs
        cases htk
      · exact .inl ⟨data, List.mem_cons_of_mem c' hr⟩
    · exact .inr (hc.congr hst hpub)
  · exact absurd ht (h.ticket_ne hd htc)

theorem step (h : Inv made l (c :: rest)) (hs : c.Step l c' l')
    (hmade : ∀ documents data, made documents data (l.compiler.compile documents data).1) :
    Inv made l' (c' :: rest) where
  tickets := by
    obtain ⟨data, rfl, rfl, rfl⟩ | ⟨ht, hp⟩ := hs.ticket
    · rw [List.range'_1_concat, Nat.add_comm 1]
      exact (h.tickets.cons _).trans (List.perm_append_singleton _ _).symm
    · have hf : (c' :: rest).filterMap Call.ticket? = (c :: rest).filterMap Call.ticket? := by
        rw [List.filterMap_cons, List.filterMap_cons, ht]
      rw [hf, hp]
      exact h.tickets
  published p hp := by
    obtain heq | ⟨-, -, ht, hpast, page, heq⟩ := hs.published
    · obtain ⟨d, hd, ht, hpast⟩ := h.published p (heq ▸ hp)
      obtain rfl | hd := List.mem_cons.1 hd
      · obtain ⟨hpast', ht'⟩ := hs.isPast hpast
        exact ⟨c', List.mem_cons_self, ht'.trans ht, hpast'⟩
      · exact ⟨d, List.mem_cons_of_mem c' hd, ht, hpast⟩
    · rw [heq] at hp
      obtain rfl := Option.some.inj hp
      exact ⟨c', List.mem_cons_self, ht, hpast⟩
  current d hd ht := by
    obtain rfl | hd := List.mem_cons.1 hd
    · exact (h.current_step hs hmade ht).imp_left fun hw => hw.mono (List.subset_cons_self _ rest)
    · exact h.current_other hs hd ht

end Inv

namespace State

variable {s t m : State} {e : Event} {events before : List Event}
  {made : Making}

theorem Step.inv (h : s.Step e t) (hi : Inv made s.live s.calls)
    (hmade : ∀ documents data, made documents data (s.live.compiler.compile documents data).1) :
    Inv made t.live t.calls := by
  cases h with
  | record e now => exact hi
  | idle now data h => exact hi
  | process now data h => exact (hi.cons rfl).perm (List.perm_append_singleton _ _).symm
  | recompile data => exact (hi.cons rfl).perm (List.perm_append_singleton _ _).symm
  | advance before after hc h =>
    rw [hc] at hi
    exact ((hi.perm List.perm_middle).step h hmade).perm List.perm_middle.symm

theorem run?_inv (h : s.run? events = some t) (hi : Inv made s.live s.calls)
    (hmade : ∀ before m, before <+: events → s.run? before = some m → ∀ documents data,
      made documents data (m.live.compiler.compile documents data).1) :
    Inv made t.live t.calls := by
  induction events generalizing s with
  | nil =>
    obtain rfl := Option.some.inj h
    exact hi
  | cons e events ih =>
    obtain ⟨u, he, hu⟩ := run?_cons.1 h
    refine ih hu ((step_of_step? he).inv hi (hmade [] s List.nil_prefix rfl)) fun before m hb hm =>
      hmade (e :: before) m (List.cons_prefix_cons.2 ⟨rfl, hb⟩) (run?_cons.2 ⟨u, he, hm⟩)

theorem Step.advances (h : s.Step e t) : Advances s.live.published t.live.published := by
  cases h with
  | advance before after hc h => exact h.advances
  | _ => exact .refl _

theorem run?_advances (h : s.run? events = some t) :
    Advances s.live.published t.live.published :=
  run?_induct (motive := fun _ t => Advances s.live.published t.live.published) h
    (.refl _) fun ha he => ha.trans he.advances

end State

end PageCompiler.Overlap
