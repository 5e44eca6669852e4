import Mathlib
import PageCompiler.Proofs.Live
import PageCompiler.Proofs.Pass

/-!
Calls that overlap. A call to process edits or to compile again takes its steps in order; between
two of them other calls may take theirs, and edits may be recorded. The buffer, the store, the
numbers of passes, the memory of the compiler and the published page are shared, and each step uses
one of them as a whole. Main statement: a call that no other one comes between does what it does in
one piece.
-/

namespace PageCompiler.Overlap

open Json (Object)

abbrev Answer := Except CompileError (Option (Reported Compiled))

/-- A call by its last step, with what it keeps for the next one. -/
inductive Call
  /-- It has taken edits out of the buffer. -/
  | drained (data : Object) (edits : List Edit)
  /-- The store has its edits, if it came with any. -/
  | ready (data : Object)
  | begun (data : Object) (ticket : Nat)
  | reading (data : Object) (ticket : Nat) (documents : List Document)
  /-- It has a result, and the compiler that remembers how the documents were parsed. -/
  | compiled (data : Object) (ticket : Nat) (result : Compiler.Result) (compiler : Compiler)
  | remembered (data : Object) (ticket : Nat) (result : Compiler.Result)
  /-- Its page has become the latest one. -/
  | published (data : Object) (ticket : Nat)
  | finished (data : Object) (ticket : Nat) (answer : Answer)

namespace Call

def edits : Call → List Edit
  | drained _ edits => edits
  | _ => []

def ticket? : Call → Option Nat
  | drained .. => none
  | ready _ => none
  | begun _ ticket => some ticket
  | reading _ ticket _ => some ticket
  | compiled _ ticket _ _ => some ticket
  | remembered _ ticket _ => some ticket
  | published _ ticket => some ticket
  | finished _ ticket _ => some ticket

def isFinished : Call → Bool
  | finished .. => true
  | _ => false

def isOk : Call → Bool
  | finished _ _ (.ok _) => true
  | _ => false

theorem isOk_iff {c : Call} :
    c.isOk ↔ ∃ data ticket answer, c = .finished data ticket (.ok answer) := by
  unfold isOk
  split
  · exact iff_of_true rfl ⟨_, _, _, rfl⟩
  · next hn => exact iff_of_false Bool.false_ne_true fun ⟨data, ticket, answer, hc⟩ => hn _ _ _ hc

/-- The next step of a call at a site. What has been parsed is remembered only if no error was
reported. -/
def step? (l : Live) : Call → Option (Call × Live)
  | drained data edits => some (.ready data, { l with store := l.store.applyEdits edits })
  | ready data => some (.begun data l.begin.1, l.begin.2)
  | begun data ticket => some (.reading data ticket l.store.documents, l)
  | reading data ticket documents =>
    let (result, compiler) := l.compiler.compile documents data
    some (.compiled data ticket result compiler, l)
  | compiled data ticket result compiler =>
    some (.remembered data ticket result,
      if Compiler.isClean result then { l with compiler } else l)
  | remembered data ticket (.error e) => some (.finished data ticket (.error e), l)
  | remembered data ticket (.ok page) =>
    match l.publish? ticket page with
    | some l => some (.published data ticket, l)
    | none => some (.finished data ticket (.ok none), l)
  | published data ticket => some (.finished data ticket (.ok l.latest?), l)
  | finished .. => none

/-- Everything that a call can do in one step at a site. -/
inductive Step (l : Live) : Call → Call → Live → Prop
  | apply (data edits) :
    Step l (.drained data edits) (.ready data) { l with store := l.store.applyEdits edits }
  | begin (data) :
    Step l (.ready data) (.begun data (l.passes + 1)) { l with passes := l.passes + 1 }
  | read (data ticket) : Step l (.begun data ticket) (.reading data ticket l.store.documents) l
  | compile (data ticket documents) :
    Step l (.reading data ticket documents)
      (.compiled data ticket (l.compiler.compile documents data).1
        (l.compiler.compile documents data).2) l
  | remember (data ticket result compiler) {kept : Compiler}
    (h : kept = compiler ∨ kept = l.compiler) :
    Step l (.compiled data ticket result compiler) (.remembered data ticket result)
      { l with compiler := kept }
  | fail (data ticket e) :
    Step l (.remembered data ticket (.error e)) (.finished data ticket (.error e)) l
  | publish (data page) (h : ∀ p ∈ l.published, p.ticket < l.passes) :
    Step l (.remembered data l.passes (.ok page)) (.published data l.passes)
      { l with published := some ⟨l.passes, page⟩ }
  | discard (data ticket page) (h : l.passes = ticket → ∃ p ∈ l.published, ticket ≤ p.ticket) :
    Step l (.remembered data ticket (.ok page)) (.finished data ticket (.ok none)) l
  | finish (data ticket) :
    Step l (.published data ticket) (.finished data ticket (.ok l.latest?)) l

theorem step_of_step? {l l' : Live} {c c' : Call} (h : c.step? l = some (c', l')) :
    Step l c c' l' := by
  cases c with
  | drained data edits =>
    cases h
    exact .apply data edits
  | ready data =>
    cases h
    exact .begin data
  | begun data ticket =>
    cases h
    exact .read data ticket
  | reading data ticket documents =>
    cases h
    exact .compile data ticket documents
  | compiled data ticket result compiler =>
    cases h
    split
    · exact .remember data ticket result compiler (.inl rfl)
    · exact .remember data ticket result compiler (.inr rfl)
  | remembered data ticket result =>
    cases result with
    | error e =>
      cases h
      exact .fail data ticket e
    | ok page =>
      simp only [step?] at h
      cases hp : l.publish? ticket page with
      | none =>
        rw [hp] at h
        cases h
        exact .discard data ticket page (Live.publish?_eq_none.1 hp)
      | some m =>
        rw [hp] at h
        cases h
        obtain ⟨rfl, hn, rfl⟩ := Live.publish?_eq_some.1 hp
        exact .publish data page hn
  | published data ticket =>
    cases h
    exact .finish data ticket
  | finished data ticket answer => cases h

end Call

inductive Event
  | record (edit : Edit) (now : Nat)
  /-- A call to process edits. If none are due, it has no other steps. -/
  | process (now : Nat) (data : Object)
  | recompile (data : Object)
  /-- The next step of a call. -/
  | advance (index : Nat)

def recorded : List Event → List Edit
  | [] => []
  | .record e _ :: events => e :: recorded events
  | _ :: events => recorded events

@[simp] theorem recorded_append (before events : List Event) :
    recorded (before ++ events) = recorded before ++ recorded events := by
  induction before with
  | nil => rfl
  | cons e before ih => cases e <;> simp [recorded, ih]

theorem recorded_cons (e : Event) (events : List Event) :
    recorded (e :: events) = recorded [e] ++ recorded events := recorded_append [e] events

/-- What is shared, and the calls in the order of their beginning. -/
structure State where
  buffer : EditBuffer
  live : Live
  calls : List Call

namespace State

def step? (s : State) : Event → Option State
  | .record e now => some { s with buffer := s.buffer.record e now }
  | .process now data =>
    let (edits, buffer) := s.buffer.drain now
    let calls := if edits.isEmpty then s.calls else s.calls ++ [.drained data edits]
    some { s with buffer, calls }
  | .recompile data => some { s with calls := s.calls ++ [.ready data] }
  | .advance index => do
    let c ← s.calls[index]?
    let (c, live) ← c.step? s.live
    return { s with live, calls := s.calls.set index c }

def run? (s : State) (events : List Event) : Option State := events.foldlM step? s

variable {s t u : State} {e : Event} {events before : List Event}

theorem run?_cons : s.run? (e :: events) = some u ↔
    ∃ t, s.step? e = some t ∧ t.run? events = some u := by
  rw [run?, List.foldlM_cons]
  exact Option.bind_eq_some_iff

theorem run?_append : s.run? (before ++ events) = some u ↔
    ∃ t, s.run? before = some t ∧ t.run? events = some u := by
  rw [run?, List.foldlM_append]
  exact Option.bind_eq_some_iff

theorem run?_cons_of_some (h : s.step? e = some t) (events : List Event) :
    s.run? (e :: events) = t.run? events := by
  rw [run?, List.foldlM_cons, h]
  rfl

theorem step?_process (s : State) (now : Nat) (data : Object) :
    s.step? (.process now data) = some { s with
      buffer := (s.buffer.drain now).2
      calls := if (s.buffer.drain now).1.isEmpty then s.calls
        else s.calls ++ [.drained data (s.buffer.drain now).1] } := rfl

/-- Everything that an event can do: an edit is recorded, edits are drained or there are none to
be drained, a call begins to compile, or a call takes its next step among the others. -/
inductive Step (s : State) : Event → State → Prop
  | record (e now) : Step s (.record e now) { s with buffer := s.buffer.record e now }
  | idle (now data) (h : (s.buffer.drain now).1 = []) :
    Step s (.process now data) { s with buffer := (s.buffer.drain now).2 }
  | process (now data) (h : (s.buffer.drain now).1 ≠ []) :
    Step s (.process now data)
      ⟨(s.buffer.drain now).2, s.live, s.calls ++ [.drained data (s.buffer.drain now).1]⟩
  | recompile (data) : Step s (.recompile data) { s with calls := s.calls ++ [.ready data] }
  | advance (before after) {c c' : Call} {live : Live} (hc : s.calls = before ++ c :: after)
    (h : c.Step s.live c' live) :
    Step s (.advance before.length) ⟨s.buffer, live, before ++ c' :: after⟩

theorem step_of_step? (h : s.step? e = some t) : s.Step e t := by
  cases e with
  | record e now =>
    cases h
    exact .record e now
  | process now data =>
    rw [step?_process] at h
    obtain rfl := Option.some.inj h
    by_cases he : (s.buffer.drain now).1 = []
    · rw [he]
      exact .idle now data he
    · rw [if_neg (by simpa using he)]
      exact .process now data he
  | recompile data =>
    cases h
    exact .recompile data
  | advance index =>
    obtain ⟨c, hc, h⟩ := Option.bind_eq_some_iff.1 h
    obtain ⟨⟨c', live⟩, hstep, h⟩ := Option.bind_eq_some_iff.1 h
    obtain rfl := Option.some.inj h
    obtain ⟨hi, rfl⟩ := List.getElem?_eq_some_iff.1 hc
    have hsplit : s.calls = s.calls.take index ++ s.calls[index] :: s.calls.drop (index + 1) := by
      simp
    have ha := Step.advance _ _ hsplit (Call.step_of_step? hstep)
    rw [List.length_take, min_eq_left hi.le] at ha
    rw [List.set_eq_take_append_cons_drop, if_pos hi]
    exact ha

/-- What holds at first, and behind each step if it does before it, holds at the end of a run. -/
theorem run?_induct {motive : List Event → State → Prop} (h : s.run? events = some t)
    (start : motive [] s)
    (step : ∀ {before s e t}, motive before s → s.Step e t → motive (before ++ [e]) t) :
    motive events t := by
  have hrun (before : List Event) (hs : motive before s) : motive (before ++ events) t := by
    clear start
    induction events generalizing before s with
    | nil =>
      obtain rfl := Option.some.inj h
      rwa [List.append_nil]
    | cons e events ih =>
      obtain ⟨m, he, hm⟩ := run?_cons.1 h
      have ht := ih hm (before ++ [e]) (step hs (step_of_step? he))
      rwa [List.append_assoc] at ht
  exact hrun [] start

end State

section Alone

variable {l l' : Live} {b : EditBuffer} {c c' : Call} {events : List Event}

theorem run?_advance (h : c.step? l = some (c', l')) (b : EditBuffer) (events : List Event) :
    State.run? ⟨b, l, [c]⟩ (.advance 0 :: events) = State.run? ⟨b, l', [c']⟩ events := by
  simp [State.run?, State.step?, h]

theorem run?_compiled (b : EditBuffer) (l : Live) (data : Object) (n : Nat) :
    State.run? ⟨b, l, [.ready data]⟩ (List.replicate (n + 4) (.advance 0)) =
      State.run? ⟨b, l.compiled data, [.remembered data (l.passes + 1)
        (l.compiler.compile l.store.documents data).1]⟩ (List.replicate n (.advance 0)) := by
  let result := (l.compiler.compile l.store.documents data).1
  have hkept : (if Compiler.isClean result then l.compiled data
      else { l with passes := l.passes + 1 }) = l.compiled data := by
    split
    · rfl
    · next h =>
      -- nothing is remembered, and there is nothing new to remember
      rw [Live.compiled, Compiler.compile_of_not_isClean (Bool.eq_false_of_not_eq_true h)]
  rw [← hkept]
  exact (run?_advance rfl _ _).trans <| (run?_advance rfl _ _).trans <|
    (run?_advance rfl _ _).trans (run?_advance rfl _ _)

/-- A call that takes its steps alone compiles and publishes what one in one piece does. -/
theorem run?_recompile (b : EditBuffer) (l : Live) (data : Object) :
    ∃ n, State.run? ⟨b, l, [.ready data]⟩ (List.replicate n (.advance 0)) =
      some ⟨b, (l.recompile data).2, [.finished data (l.passes + 1) (l.recompile data).1]⟩ := by
  cases hr : (l.compiler.compile l.store.documents data).1 with
  | error e =>
    refine ⟨5, (run?_compiled b l data 1).trans ?_⟩
    rw [hr, Live.recompile_of_error hr]
    exact run?_advance rfl b []
  | ok page =>
    rw [Live.recompile_of_ok hr]
    cases hp : (l.compiled data).publish? (l.passes + 1) page with
    | none =>
      have hstep : Call.step? (l.compiled data) (.remembered data (l.passes + 1) (.ok page)) =
          some (.finished data (l.passes + 1) (.ok none), l.compiled data) := by
        simp only [Call.step?, hp]
      refine ⟨5, (run?_compiled b l data 1).trans ?_⟩
      rw [hr]
      exact run?_advance hstep b []
    | some m =>
      have hstep : Call.step? (l.compiled data) (.remembered data (l.passes + 1) (.ok page)) =
          some (.published data (l.passes + 1), m) := by
        simp only [Call.step?, hp]
      obtain ⟨-, -, rfl⟩ := Live.publish?_eq_some.1 hp
      refine ⟨6, (run?_compiled b l data 2).trans ?_⟩
      rw [hr]
      exact (run?_advance hstep b _).trans (run?_advance rfl b [])

theorem run?_processEdits (b : EditBuffer) (l : Live) (now : Nat) (data : Object) :
    ∃ n, State.run? ⟨b, l, []⟩ (.process now data :: List.replicate n (.advance 0)) =
      some ⟨(l.processEdits now data b).2.1, (l.processEdits now data b).2.2,
        if (b.drain now).1.isEmpty then []
        else [.finished data (l.passes + 1) (l.processEdits now data b).1]⟩ := by
  rw [Live.processEdits_eq]
  by_cases he : (b.drain now).1.isEmpty
  · refine ⟨0, ?_⟩
    simp [State.run?, State.step?, he]
  · obtain ⟨n, hn⟩ := run?_recompile (b.drain now).2
      { l with store := l.store.applyEdits (b.drain now).1 } data
    refine ⟨n + 1, ?_⟩
    rw [if_neg he, if_neg he, List.replicate_succ]
    have hdrain : State.step? ⟨b, l, []⟩ (.process now data) =
        some ⟨(b.drain now).2, l, [.drained data (b.drain now).1]⟩ := by
      rw [State.step?_process, if_neg he]
      rfl
    exact (State.run?_cons_of_some hdrain _).trans ((run?_advance rfl _ _).trans hn)

end Alone

end PageCompiler.Overlap
