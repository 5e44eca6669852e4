import PageCompiler.Proofs.Edits
import PageCompiler.Proofs.Live

/-!
A site that is edited and compiled by turns. Main statement: edits that are collected and applied
in bursts leave the documents that they leave when each is applied as soon as it is recorded.
-/

namespace PageCompiler

open Json (Object)

structure Recorded where
  edit : Edit
  time : Nat

namespace EditBuffer

/-- What a buffer holds when this has been recorded since it was empty. -/
structure Holds (b : EditBuffer) (rs : List Recorded) : Prop where
  isCoalesced : IsCoalesced b.pending
  last : ∀ path, lastMarkup? path b.pending = lastMarkup? path (rs.map Recorded.edit)
  deadline : b.deadline = (rs.map fun r => r.time + b.window).max?

variable {b : EditBuffer} {rs : List Recorded} {now : Nat}

theorem Holds.new (window : Nat) : (new window).Holds [] where
  isCoalesced := List.Pairwise.nil
  last _ := rfl
  deadline := rfl

theorem Holds.pending_eq_nil (h : b.Holds rs) : b.pending = [] ↔ rs = [] := by
  rw [← List.map_eq_nil_iff (f := Recorded.edit), eq_nil_iff_lastMarkup?, eq_nil_iff_lastMarkup?]
  simp only [h.last]

theorem max?_concat (ns : List Nat) (n : Nat) :
    (ns ++ [n]).max? = some (max (ns.max?.getD 0) n) := by
  cases ns with
  | nil => simp
  | cons m ns =>
    rw [List.cons_append, List.max?_cons', List.max?_cons', List.foldl_append]
    rfl

theorem Holds.record (h : b.Holds rs) (e : Edit) (now : Nat) :
    (b.record e now).Holds (rs ++ [⟨e, now⟩]) where
  isCoalesced := record_isCoalesced h.isCoalesced
  last path := by
    rw [lastMarkup?_record h.isCoalesced, List.map_append, lastMarkup?_append, lastMarkup?_append,
      h.last]
    rfl
  deadline := by
    rw [List.map_append, List.map_singleton, max?_concat]
    show some (max (b.deadline.getD 0) (now + b.window)) = _
    rw [h.deadline]
    rfl

theorem Holds.isDue_iff (h : b.Holds rs) (now : Nat) :
    b.IsDue now ↔ b.pending ≠ [] ∧ ∀ r ∈ rs, r.time + b.window ≤ now := by
  rw [IsDue, h.deadline, ne_eq, h.pending_eq_nil]
  cases hd : (rs.map fun r => r.time + b.window).max? with
  | none => simp [List.map_eq_nil_iff.1 (List.max?_eq_none_iff.1 hd)]
  | some d =>
    have hne : rs ≠ [] := by
      rintro rfl
      cases hd
    have hle := List.max?_le_iff hd (x := now)
    simpa [hne] using hle

/-- A drain gives edits if there are any and all of them have waited for the window. -/
theorem Holds.drain_ne_nil (h : b.Holds rs) (now : Nat) :
    (b.drain now).1 ≠ [] ↔ b.pending ≠ [] ∧ ∀ r ∈ rs, r.time + b.window ≤ now := by
  rw [← h.isDue_iff]
  by_cases hd : b.IsDue now
  · simp [drain_of_isDue hd, hd, ((h.isDue_iff now).1 hd).1]
  · simp [drain_of_not_isDue hd, hd]

theorem Holds.isDue_of_drain (h : b.Holds rs) (hne : (b.drain now).1 ≠ []) : b.IsDue now :=
  (h.isDue_iff now).2 ((h.drain_ne_nil now).1 hne)

/-- What is left behind a drain: nothing if it gave edits, and everything if it gave none. -/
theorem Holds.drain (h : b.Holds rs) (now : Nat) :
    (b.drain now).2.Holds (if (b.drain now).1.isEmpty then rs else []) := by
  by_cases hd : b.IsDue now
  · have hne := ((h.isDue_iff now).1 hd).1
    rw [drain_of_isDue hd, if_neg (by simpa using hne)]
    exact ⟨List.Pairwise.nil, fun _ => rfl, rfl⟩
  · rw [drain_of_not_isDue hd]
    exact h

end EditBuffer

namespace Store

variable {s t u : Store} {es : List Edit}

theorem HasDistinctPaths.foldl_applyEdits (h : s.HasDistinctPaths) (hne : es ≠ []) :
    es.foldl (fun s e => s.applyEdits [e]) s = s.applyEdits es := by
  induction es generalizing s with
  | nil => exact absurd rfl hne
  | cons e es ih =>
    rw [List.foldl_cons]
    by_cases hes : es = []
    · rw [hes]
      rfl
    · rw [ih (h.applyEdits [e]) hes, ← h.applyEdits_append, List.singleton_append]

/-- Every document is there later, with the same style sheet and the same script. -/
def KeepsAssets (s t : Store) : Prop :=
  ∀ d ∈ s.documents, ∃ e ∈ t.documents,
    e.path = d.path ∧ e.stylesheet = d.stylesheet ∧ e.script = d.script

theorem KeepsAssets.refl (s : Store) : s.KeepsAssets s := fun d hd => ⟨d, hd, rfl, rfl, rfl⟩

theorem KeepsAssets.trans (h : s.KeepsAssets t) (h' : t.KeepsAssets u) : s.KeepsAssets u := by
  intro d hd
  obtain ⟨e, he, hp, hs, hc⟩ := h d hd
  obtain ⟨f, hf, hp', hs', hc'⟩ := h' e he
  exact ⟨f, hf, hp'.trans hp, hs'.trans hs, hc'.trans hc⟩

theorem HasDistinctPaths.keepsAssets (h : s.HasDistinctPaths) (es : List Edit) :
    s.KeepsAssets (s.applyEdits es) := by
  intro d hd
  have hfind := document?_applyEdits s es d.path
  rw [h.mem_iff.1 hd] at hfind
  cases hm : lastMarkup? d.path es with
  | none => exact ⟨d, List.mem_of_find?_eq_some (hm ▸ hfind), rfl, rfl, rfl⟩
  | some m => exact ⟨{ d with markup := m }, List.mem_of_find?_eq_some (hm ▸ hfind), rfl, rfl, rfl⟩

end Store

structure Workspace where
  buffer : EditBuffer
  live : Live

namespace Workspace

inductive Call
  | record (edit : Edit) (now : Nat)
  | process (now : Nat) (data : Object)

def call (w : Workspace) : Call → Workspace
  | .record e now => { w with buffer := w.buffer.record e now }
  | .process now data =>
    let (_, buffer, live) := w.live.processEdits now data w.buffer
    ⟨buffer, live⟩

def after (w : Workspace) (calls : List Call) : Workspace := calls.foldl call w

def recorded : List Call → List Edit
  | [] => []
  | .record e _ :: calls => e :: recorded calls
  | .process _ _ :: calls => recorded calls

/-- What has been recorded since edits were drained, if `rs` had been at first. -/
def burstFrom (rs : List Recorded) (w : Workspace) : List Call → List Recorded
  | [] => rs
  | .record e now :: calls => burstFrom (rs ++ [⟨e, now⟩]) (w.call (.record e now)) calls
  | .process now data :: calls =>
    burstFrom (if (w.buffer.drain now).1.isEmpty then rs else []) (w.call (.process now data)) calls

def burst (w : Workspace) (calls : List Call) : List Recorded := burstFrom [] w calls

section Store

variable {w : Workspace}

theorem call_store (w : Workspace) (c : Call) :
    (w.call c).live.store = w.live.store ∨
      ∃ es, (w.call c).live.store = w.live.store.applyEdits es := by
  cases c with
  | record e now => exact .inl rfl
  | process now data =>
    rw [call, Live.processEdits_store]
    split
    · exact .inl rfl
    · exact .inr ⟨_, rfl⟩

theorem call_process_buffer (w : Workspace) (now : Nat) (data : Object) :
    (w.call (.process now data)).buffer = (w.buffer.drain now).2 := Live.processEdits_buffer

theorem call_hasDistinctPaths (h : w.live.store.HasDistinctPaths) (c : Call) :
    (w.call c).live.store.HasDistinctPaths := by
  obtain hc | ⟨es, hc⟩ := call_store w c
  · rwa [hc]
  · rw [hc]
    exact h.applyEdits es

theorem after_isOrdered (h : w.live.store.IsOrdered) (calls : List Call) :
    (w.after calls).live.store.IsOrdered := by
  induction calls generalizing w with
  | nil => exact h
  | cons c calls ih =>
    refine ih ?_
    obtain hc | ⟨es, hc⟩ := call_store w c
    · rwa [hc]
    · rw [hc]
      exact Store.applyEdits_isOrdered _ es

theorem after_keepsAssets (h : w.live.store.HasDistinctPaths) (calls : List Call) :
    w.live.store.KeepsAssets (w.after calls).live.store := by
  induction calls generalizing w with
  | nil => exact .refl _
  | cons c calls ih =>
    refine .trans ?_ (ih (call_hasDistinctPaths h c))
    obtain hc | ⟨es, hc⟩ := call_store w c
    · rw [hc]
      exact .refl _
    · rw [hc]
      exact h.keepsAssets es

end Store

variable {w : Workspace} {s : Store} {window now : Nat} {applied : List Edit} {rs : List Recorded}

/-- Where a run has come to: these edits have been applied to the documents of the beginning, and
this has been recorded and waits. -/
structure Tracks (s : Store) (window : Nat) (w : Workspace) (applied : List Edit)
    (rs : List Recorded) : Prop where
  window_eq : w.buffer.window = window
  holds : w.buffer.Holds rs
  store : ∀ es, w.live.store.applyEdits es = s.applyEdits (applied ++ es)
  hasDistinctPaths : w.live.store.HasDistinctPaths

theorem Tracks.start {l : Live} (hl : l.store.HasDistinctPaths) (window : Nat) :
    Tracks l.store window ⟨.new window, l⟩ [] [] where
  window_eq := rfl
  holds := .new window
  store _ := rfl
  hasDistinctPaths := hl

theorem Tracks.record (h : Tracks s window w applied rs) (e : Edit) (now : Nat) :
    Tracks s window (w.call (.record e now)) applied (rs ++ [⟨e, now⟩]) where
  window_eq := h.window_eq
  holds := h.holds.record e now
  store := h.store
  hasDistinctPaths := h.hasDistinctPaths

/-- Edits that are drained come to the same as all that has been recorded since the last time. -/
theorem Tracks.store_drained (h : Tracks s window w applied rs) (hs : s.HasDistinctPaths)
    (hne : (w.buffer.drain now).1 ≠ []) (data : Object) :
    (w.call (.process now data)).live.store = s.applyEdits (applied ++ rs.map Recorded.edit) := by
  have hd : (w.buffer.drain now).1 = w.buffer.pending := by
    rw [EditBuffer.drain_of_isDue (h.holds.isDue_of_drain hne)]
  rw [call, Live.processEdits_store, if_neg (by simpa using hne), hd, h.store]
  refine hs.applyEdits_congr fun path => ?_
  rw [lastMarkup?_append, lastMarkup?_append, h.holds.last]

theorem Tracks.process (h : Tracks s window w applied rs) (hs : s.HasDistinctPaths) (now : Nat)
    (data : Object) :
    Tracks s window (w.call (.process now data))
      (if (w.buffer.drain now).1.isEmpty then applied else applied ++ rs.map Recorded.edit)
      (if (w.buffer.drain now).1.isEmpty then rs else []) where
  window_eq := by
    rw [call_process_buffer, ← h.window_eq]
    by_cases hd : w.buffer.IsDue now
    · rw [EditBuffer.drain_of_isDue hd]
    · rw [EditBuffer.drain_of_not_isDue hd]
  holds := by
    rw [call_process_buffer]
    exact h.holds.drain now
  store es := by
    split
    · next he => rw [call, Live.processEdits_store, if_pos he, h.store]
    · next he => rw [h.store_drained hs (by simpa using he), ← hs.applyEdits_append]
  hasDistinctPaths := call_hasDistinctPaths h.hasDistinctPaths _

/-- A run tracks what is recorded in it: all of it is either applied or waits. -/
theorem Tracks.after (h : Tracks s window w applied rs) (hs : s.HasDistinctPaths)
    (calls : List Call) :
    ∃ applied', Tracks s window (w.after calls) applied' (burstFrom rs w calls) ∧
      applied' ++ (burstFrom rs w calls).map Recorded.edit =
        applied ++ rs.map Recorded.edit ++ recorded calls := by
  induction calls generalizing w applied rs with
  | nil => exact ⟨applied, h, (List.append_nil _).symm⟩
  | cons c calls ih =>
    cases c with
    | record e now =>
      obtain ⟨applied', ht, he⟩ := ih (h.record e now)
      refine ⟨applied', ht, he.trans ?_⟩
      simp [recorded]
    | process now data =>
      obtain ⟨applied', ht, he⟩ := ih (h.process hs now data)
      refine ⟨applied', ht, he.trans ?_⟩
      cases (w.buffer.drain now).1.isEmpty <;> simp [recorded]

/-- Whenever edits are drained, the documents become what they would be if every edit had been
applied when it was recorded. Until then the last edit of each path waits, and all of them become
due together, a window after the last one. Documents stay apart, in order and with their assets. -/
theorem process_coalesces (window : Nat) (l : Live) (hl : l.store.HasDistinctPaths)
    (calls : List Call) :
    let start : Workspace := ⟨.new window, l⟩
    let w := start.after calls
    let burst := start.burst calls
    (∀ now data, (w.buffer.drain now).1 ≠ [] →
      (w.call (.process now data)).live.store =
        (recorded calls).foldl (fun s e => s.applyEdits [e]) l.store) ∧
    (∀ e, e ∈ w.buffer.pending ↔ lastMarkup? e.path (burst.map Recorded.edit) = some e.markup) ∧
    (w.buffer.pending.map Edit.path).Pairwise (· < ·) ∧
    (∀ now, (w.buffer.drain now).1 ≠ [] ↔
      w.buffer.pending ≠ [] ∧ ∀ r ∈ burst, r.time + window ≤ now) ∧
    w.live.store.HasDistinctPaths ∧
    (l.store.IsOrdered → w.live.store.IsOrdered) ∧
    ∀ earlier later, calls = earlier ++ later →
      (start.after earlier).live.store.KeepsAssets w.live.store := by
  intro start w burst
  obtain ⟨applied, ht, he⟩ := (Tracks.start hl window).after hl calls
  refine ⟨fun now data hne => ?_, fun e => ?_, ht.holds.isCoalesced, fun now => ?_,
    ht.hasDistinctPaths, fun ho => after_isOrdered ho calls, ?_⟩
  · have hr : recorded calls ≠ [] := by
      have hp := ((ht.holds.drain_ne_nil now).1 hne).1
      rw [ne_eq, ht.holds.pending_eq_nil] at hp
      intro hnil
      rw [hnil] at he
      simp at he
      exact hp he.2
    rw [ht.store_drained hl hne, he]
    exact (hl.foldl_applyEdits hr).symm
  · rw [EditBuffer.mem_iff_lastMarkup? ht.holds.isCoalesced, ht.holds.last]
    rfl
  · rw [ht.holds.drain_ne_nil, ht.window_eq]
    rfl
  · rintro earlier later rfl
    obtain ⟨_, hm, -⟩ := (Tracks.start hl window).after hl earlier
    have hw : w = (start.after earlier).after later := List.foldl_append
    rw [hw]
    exact after_keepsAssets hm.hasDistinctPaths later

/-- A burst over two documents, recorded by a clock that goes back. -/
theorem process_coalesces_burst :
    let page : Document := ⟨"a.html", "0", some "p", none⟩
    let l : Live := .new default ⟨[page]⟩
    let calls : List Call :=
      [.record ⟨"a.html", "1"⟩ 20, .record ⟨"b.html", "1"⟩ 10, .record ⟨"a.html", "2"⟩ 0]
    let w := (Workspace.mk (.new 50) l).after calls
    l.store.HasDistinctPaths ∧ (w.buffer.drain 69).1 = [] ∧
      w.buffer.pending = [⟨"a.html", "2"⟩, ⟨"b.html", "1"⟩] ∧
      (w.call (.process 70 [])).live.store =
        (recorded calls).foldl (fun s e => s.applyEdits [e]) l.store := by
  intro page l calls w
  have hl : l.store.HasDistinctPaths := List.nodup_singleton _
  have hne : (w.buffer.drain 70).1 ≠ [] := by decide +kernel
  exact ⟨hl, by decide +kernel, by decide +kernel,
    (process_coalesces 50 l hl calls).1 70 [] hne⟩

end Workspace

end PageCompiler
