import PageCompiler.Proofs.Live

/-!
Passes of a site that are begun, and pages that are sent in any order. Main statement: a page is
accepted if it is of the newest pass and the first one of it, and the latest page is the one that
was accepted last.
-/

namespace PageCompiler.Live

/-- What has been asked of a site, with the answer. -/
inductive Event
  | begun (ticket : Nat)
  | accepted (p : Publication)
  | refused (p : Publication)

namespace Event

def ticket? : Event → Option Nat
  | begun ticket => some ticket
  | accepted _ => none
  | refused _ => none

def sent? : Event → Option Nat
  | begun _ => none
  | accepted p => some p.ticket
  | refused p => some p.ticket

def accepted? : Event → Option Publication
  | begun _ => none
  | accepted p => some p
  | refused _ => none

end Event

/-- The tickets of the passes that have been begun, in this order. -/
def issued (events : List Event) : List Nat := events.filterMap Event.ticket?

/-- The tickets that pages have been sent with. -/
def sent (events : List Event) : List Nat := events.filterMap Event.sent?

def accepted (events : List Event) : List Publication := events.filterMap Event.accepted?

section Events

variable {α β : Type} (events : List Event) (e : Event)

theorem filterMap_concat (f : α → Option β) (as : List α) (a : α) :
    (as ++ [a]).filterMap f = as.filterMap f ++ (f a).toList := by
  rw [List.filterMap_append]
  cases h : f a <;> simp [h]

@[simp] theorem issued_concat : issued (events ++ [e]) = issued events ++ e.ticket?.toList :=
  filterMap_concat _ _ _

@[simp] theorem sent_concat : sent (events ++ [e]) = sent events ++ e.sent?.toList :=
  filterMap_concat _ _ _

@[simp] theorem accepted_concat :
    accepted (events ++ [e]) = accepted events ++ e.accepted?.toList := filterMap_concat _ _ _

end Events

/-- What can come of a site when passes are begun and pages are sent, each with a ticket that has
been issued. -/
inductive Reaches (start : Live) : List Event → Live → Prop
  | start : Reaches start [] start
  | begin : Reaches start events l → Reaches start (events ++ [.begun l.begin.1]) l.begin.2
  | accept : Reaches start events l → p.ticket ∈ issued events →
    l.publish? p.ticket p.page = some m → Reaches start (events ++ [.accepted p]) m
  | refuse : Reaches start events l → p.ticket ∈ issued events →
    l.publish? p.ticket p.page = none → Reaches start (events ++ [.refused p]) l

/-- The state of a site tells how many passes have been begun and which page was accepted last. -/
structure Reflects (l : Live) (events : List Event) : Prop where
  issued : issued events = List.range' 1 l.passes
  sent_le : ∀ ticket ∈ sent events, ticket ≤ l.passes
  published : l.published = (accepted events).getLast?
  increasing : (accepted events).Pairwise fun p q => p.ticket < q.ticket
  /-- Of the newest pass the first page that is sent is accepted. -/
  newest : l.passes ∈ sent events ↔ ∃ p ∈ accepted events, p.ticket = l.passes

namespace Reflects

variable {l m : Live} {events : List Event} {p q : Publication}

theorem new (o : Options) (store : Store) : Reflects (.new o store) [] where
  issued := rfl
  sent_le := nofun
  published := rfl
  increasing := .nil
  newest := ⟨nofun, nofun⟩

theorem ticket_le (h : l.Reflects events) (hp : p.ticket ∈ Live.issued events) :
    p.ticket ≤ l.passes := by
  rw [h.issued, List.mem_range'_1] at hp
  omega

theorem accepted_le (h : l.Reflects events) (hp : p ∈ accepted events) :
    p.ticket ≤ l.passes := by
  obtain ⟨e, he, hep⟩ := List.mem_filterMap.1 hp
  refine h.sent_le _ (List.mem_filterMap.2 ⟨e, he, ?_⟩)
  cases e with
  | accepted q =>
    obtain rfl := Option.some.inj hep
    rfl
  | begun | refused => cases hep

/-- No page that has been accepted is of a later pass than the one that is published. -/
theorem exists_published (h : l.Reflects events) (hp : p ∈ accepted events) :
    ∃ q ∈ l.published, p.ticket ≤ q.ticket := by
  obtain ⟨before, q, hb⟩ : ∃ before q, accepted events = before ++ [q] :=
    (accepted events).eq_nil_or_concat'.resolve_left (List.ne_nil_of_mem hp)
  refine ⟨q, by rw [h.published, hb, List.getLast?_concat]; rfl, ?_⟩
  have hi := h.increasing
  rw [hb, List.pairwise_append] at hi
  rw [hb, List.mem_append, List.mem_singleton] at hp
  obtain hp | rfl := hp
  · exact (hi.2.2 p hp q (List.mem_singleton_self q)).le
  · exact le_rfl

theorem publish?_isSome_iff (h : l.Reflects events) :
    (l.publish? p.ticket p.page).isSome ↔ l.passes = p.ticket ∧ p.ticket ∉ Live.sent events := by
  have hsome : (l.publish? p.ticket p.page).isSome ↔
      l.passes = p.ticket ∧ ∀ q ∈ l.published, q.ticket < p.ticket := by
    simp [Option.isSome_iff_exists, publish?_eq_some]
  rw [hsome]
  refine and_congr_right fun hnew => ?_
  rw [← hnew, h.newest]
  refine ⟨fun hlt ⟨q, hq, ht⟩ => ?_, fun hn q hq => ?_⟩
  · obtain ⟨r, hr, hle⟩ := h.exists_published hq
    exact (hlt r hr).not_ge (ht ▸ hle)
  · have hm : q ∈ accepted events := List.mem_of_getLast? (h.published ▸ hq)
    exact lt_of_le_of_ne (h.accepted_le hm) fun ht => hn ⟨q, hm, ht⟩

theorem begin (h : l.Reflects events) : l.begin.2.Reflects (events ++ [.begun l.begin.1]) where
  issued := by
    rw [issued_concat, h.issued]
    simp [Event.ticket?, Live.begin, List.range'_1_concat, Nat.add_comm]
  sent_le ticket ht := by
    rw [sent_concat] at ht
    exact Nat.le_succ_of_le (h.sent_le ticket (by simpa [Event.sent?] using ht))
  published := by simpa [Event.accepted?, Live.begin] using h.published
  increasing := by simpa [Event.accepted?] using h.increasing
  newest := by
    -- no page can have been sent of a pass that was not begun
    have hlt : ¬l.passes + 1 ≤ l.passes := Nat.not_succ_le_self _
    refine iff_of_false (fun ht => ?_) ?_
    · exact hlt (h.sent_le _ (by simpa [Event.sent?, Live.begin] using ht))
    · rintro ⟨q, hq, ht⟩
      have hle : q.ticket ≤ l.passes := h.accepted_le (by simpa [Event.accepted?] using hq)
      rw [ht] at hle
      exact hlt hle

theorem accept (h : l.Reflects events) (hm : l.publish? p.ticket p.page = some m) :
    m.Reflects (events ++ [.accepted p]) := by
  obtain ⟨hnew, hlt, rfl⟩ := publish?_eq_some.1 hm
  refine ⟨by simpa [Event.ticket?] using h.issued, ?_, by simp [Event.accepted?], ?_, ?_⟩
  · rw [sent_concat, List.forall_mem_append]
    exact ⟨h.sent_le, List.forall_mem_singleton.2 hnew.ge⟩
  · rw [accepted_concat, List.pairwise_append]
    refine ⟨h.increasing, List.pairwise_singleton _ _, fun q hq r hr => ?_⟩
    obtain rfl := List.mem_singleton.1 hr
    obtain ⟨s, hs, hle⟩ := h.exists_published hq
    exact hle.trans_lt (hlt s hs)
  · rw [sent_concat, accepted_concat]
    exact iff_of_true (by simp [Event.sent?, hnew]) ⟨p, by simp [Event.accepted?], hnew.symm⟩

theorem refuse (h : l.Reflects events) (hp : p.ticket ∈ Live.issued events)
    (hn : l.publish? p.ticket p.page = none) : l.Reflects (events ++ [.refused p]) := by
  refine ⟨by simpa [Event.ticket?] using h.issued, ?_,
    by simpa [Event.accepted?] using h.published,
    by simpa [Event.accepted?] using h.increasing, ?_⟩
  · rw [sent_concat, List.forall_mem_append]
    exact ⟨h.sent_le, List.forall_mem_singleton.2 (h.ticket_le hp)⟩
  · -- of the newest pass a page is refused only if one has been sent before
    have hsent : p.ticket = l.passes → l.passes ∈ Live.sent events := fun hnew => by
      by_contra hs
      have hsome := h.publish?_isSome_iff.2 ⟨hnew.symm, hnew ▸ hs⟩
      rw [hn] at hsome
      cases hsome
    have hiff : l.passes ∈ Live.sent (events ++ [.refused p]) ↔ l.passes ∈ Live.sent events := by
      rw [sent_concat, List.mem_append]
      exact or_iff_left_of_imp fun ht => hsent (List.mem_singleton.1 ht).symm
    rw [hiff, h.newest]
    simp [Event.accepted?]

end Reflects

namespace Reaches

variable {o : Options} {store : Store} {l : Live} {events : List Event}

theorem reflects (h : Reaches (.new o store) events l) : l.Reflects events := by
  induction h with
  | start => exact .new o store
  | begin _ ih => exact ih.begin
  | accept _ _ hm ih => exact ih.accept hm
  | refuse _ hp hn ih => exact ih.refuse hp hn

theorem getLast?_issued (h : Reaches (.new o store) events l) {ticket : Nat}
    (ht : ticket ∈ issued events) : (issued events).getLast? = some ticket ↔ l.passes = ticket := by
  rw [h.reflects.issued, List.mem_range'_1] at ht
  rw [h.reflects.issued, List.getLast?_range']
  grind

/-- A page is accepted if and only if no pass has been begun behind its own and no page of its pass
was sent before; of the newest pass a page was sent just if one has been accepted. The tickets of
the pages that are accepted increase, and the latest page is the one that was accepted last. -/
theorem accepts_newest (h : Reaches (.new o store) events l) :
    (∀ p : Publication, p.ticket ∈ issued events →
      ((l.publish? p.ticket p.page).isSome ↔
        (issued events).getLast? = some p.ticket ∧ p.ticket ∉ sent events)) ∧
    (∀ ticket, (issued events).getLast? = some ticket →
      (ticket ∈ sent events ↔ ∃ p ∈ accepted events, p.ticket = ticket)) ∧
    (accepted events).Pairwise (fun p q => p.ticket < q.ticket) ∧
    l.latest? = (accepted events).getLast?.map Publication.page := by
  refine ⟨fun p hp => ?_, fun ticket ht => ?_, h.reflects.increasing, ?_⟩
  · rw [h.getLast?_issued hp]
    exact h.reflects.publish?_isSome_iff
  · rw [← (h.getLast?_issued (List.mem_of_getLast? ht)).1 ht]
    exact h.reflects.newest
  · rw [latest?, h.reflects.published]

/-- The page of the newest pass is sent twice, then one of an older pass, and then a pass begins. -/
theorem accepts_newest_resent :
    let page : Reported Compiled := pure ⟨"", "", "", "", []⟩
    let events : List Event :=
      [.begun 1, .begun 2, .accepted ⟨2, page⟩, .refused ⟨2, page⟩, .refused ⟨1, page⟩, .begun 3]
    ∃ l, Reaches (.new default ⟨[]⟩) events l ∧ (l.publish? 2 page).isSome = false ∧
      (l.publish? 3 page).isSome ∧ l.latest? = some page := by
  intro page events
  let started : Live := .new default ⟨[]⟩
  let shown : Live := { started with passes := 2, published := some ⟨2, page⟩ }
  have hbegun : Reaches started [.begun 1, .begun 2] { started with passes := 2 } :=
    Reaches.start.begin.begin
  have hsent : Reaches started [.begun 1, .begun 2, .accepted ⟨2, page⟩] shown :=
    hbegun.accept (p := ⟨2, page⟩) (by decide) rfl
  have hresent : Reaches started events { shown with passes := 3 } :=
    ((hsent.refuse (p := ⟨2, page⟩) (by decide) rfl).refuse (p := ⟨1, page⟩) (by decide) rfl).begin
  obtain ⟨haccepts, -, -, hlatest⟩ := hresent.accepts_newest
  refine ⟨_, hresent, ?_, (haccepts ⟨3, page⟩ (by decide)).2 (by decide), hlatest⟩
  exact Bool.eq_false_iff.2 (mt (haccepts ⟨2, page⟩ (by decide)).1 (by decide))

end Reaches

end PageCompiler.Live
