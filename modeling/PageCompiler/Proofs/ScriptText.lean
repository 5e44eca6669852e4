import PageCompiler.Proofs.Script
import PageCompiler.Proofs.StatementText

/-!
Scripts as they are written: states, and behind them computed values, one statement on a line or
several between semicolons, with comments behind them. Main statement: such a script is read, and
what is read are exactly its declarations.
-/

namespace PageCompiler.Island

open Json (Value)
open Markup (IsIdentifier)
open Text (isBlank)

def Computed.derivation (c : Computed) : Derivation :=
  ⟨c.name, c.dependency, c.parameter, c.formula⟩

/-- The computed value, where its dependency starts with a value. -/
def Derivation.startingFrom (d : Derivation) (start : Value) : Computed :=
  ⟨d.name, d.dependency, d.parameter, d.formula, d.formula.evaluate start⟩

section Step

variable {s : Script} {e : State} {d : Derivation} {t : List Char}

/-- A reading without errors. -/
def Reading.of (s : Script) : Reading := ⟨s, s.names, []⟩

theorem step_state (h : StateText e t) (hname : IsIdentifier e.name) (hs : s.computed = [])
    (hfresh : e.name ∉ s.names) :
    (Reading.of s).step t = .of ⟨s.states ++ [e], []⟩ := by
  obtain ⟨initial, hread, hvalue⟩ := h.read hname
  have hcontains : s.names.contains e.name = false := by simpa using hfresh
  simp only [Reading.step, hread, Reading.of, Reading.declare, hcontains]
  simp [Script.addState, hvalue, Script.names, hs]

theorem step_derivation (h : DerivationText d t) (hd : d.IsSource) (hfresh : d.name ∉ s.names)
    {start : Value} (hstart : s.initial? d.dependency = some start) :
    (Reading.of s).step t = .of ⟨s.states, s.computed ++ [d.startingFrom start]⟩ := by
  obtain ⟨body, hread, hparse⟩ := h.read hd
  have hcontains : s.names.contains d.name = false := by simpa using hfresh
  simp only [Reading.step, hread, Reading.of, Reading.declare, hcontains]
  simp [Script.addComputed, hstart, hparse, Script.names, Derivation.startingFrom]

theorem exists_of_forall₂ {α β : Type} {R : α → β → Prop} {as : List α} {bs : List β}
    (h : List.Forall₂ R as bs) {b : β} (hb : b ∈ bs) : ∃ a ∈ as, R a b := by
  induction h with
  | nil => simp at hb
  | cons hab _ ih =>
    obtain rfl | hb := List.mem_cons.1 hb
    · exact ⟨_, List.mem_cons_self, hab⟩
    · obtain ⟨a, ha, hab⟩ := ih hb
      exact ⟨a, List.mem_cons_of_mem _ ha, hab⟩

theorem fresh_of_nodup {known names : List String} {name : String}
    (h : (known ++ name :: names).Nodup) : name ∉ known := by
  have hcons := List.nodup_middle.1 h
  rw [List.nodup_cons, List.mem_append, not_or] at hcons
  exact hcons.1.1

theorem foldl_states {states : List State} {ts : List (List Char)}
    (h : List.Forall₂ StateText states ts) (hnames : ∀ e ∈ states, IsIdentifier e.name)
    (hs : s.computed = []) (hdistinct : (s.names ++ states.map State.name).Nodup) :
    ts.foldl Reading.step (.of s) = .of ⟨s.states ++ states, []⟩ := by
  induction h generalizing s with
  | nil =>
    obtain ⟨states, computed⟩ := s
    obtain rfl : computed = [] := hs
    simp
  | @cons e t states ts ht _ ih =>
    rw [List.forall_mem_cons] at hnames
    have hfresh : e.name ∉ s.names := fresh_of_nodup hdistinct
    rw [List.foldl_cons, step_state ht hnames.1 hs hfresh, ih hnames.2 rfl]
    · simp
    · simpa [Script.names, hs] using hdistinct

/-- The derivations add their values, each of which starts with what is known of its dependency. -/
theorem foldl_derivations {ds : List Derivation} {ts : List (List Char)}
    (h : List.Forall₂ DerivationText ds ts) (hds : ∀ d ∈ ds, d.IsSource)
    (hdistinct : (s.names ++ ds.map Derivation.name).Nodup)
    (hdeclared : ∀ before d, before ++ [d] <+: ds →
      d.dependency ∈ s.names ++ before.map Derivation.name) :
    ∃ r : Script, ts.foldl Reading.step (.of s) = .of r ∧ r.states = s.states ∧
      r.computed.map Computed.derivation = s.computed.map Computed.derivation ++ ds := by
  induction h generalizing s with
  | nil => exact ⟨s, rfl, rfl, by simp⟩
  | @cons d t ds ts ht _ ih =>
    rw [List.forall_mem_cons] at hds
    have hdependency : d.dependency ∈ s.names := by
      simpa using hdeclared [] d (by simp)
    obtain ⟨start, hstart⟩ := Option.isSome_iff_exists.1 (Script.initial?_isSome.2 hdependency)
    rw [List.foldl_cons, step_derivation ht hds.1 (fresh_of_nodup hdistinct) hstart]
    have hnames : (⟨s.states, s.computed ++ [d.startingFrom start]⟩ : Script).names =
        s.names ++ [d.name] := by
      simp [Script.names, Derivation.startingFrom]
    have ih := @ih ⟨s.states, s.computed ++ [d.startingFrom start]⟩ hds.2
    rw [hnames] at ih
    -- in front of the rest, what is declared now is declared as well
    have hdeclared' : ∀ before d', before ++ [d'] <+: ds →
        d'.dependency ∈ s.names ++ [d.name] ++ before.map Derivation.name := by
      intro before d' hbefore
      simpa using hdeclared (d :: before) d' (by simpa using hbefore)
    obtain ⟨r, hread, hstates, hcomputed⟩ := ih (by simpa using hdistinct) hdeclared'
    refine ⟨r, hread, hstates, ?_⟩
    rw [hcomputed]
    simp [Derivation.startingFrom, Computed.derivation]

end Step

/-- What a script declares. Each name is declared once, and each derivation depends on a name that
is declared in front of it. -/
structure Declarations where
  states : List State
  derivations : List Derivation
  names : ∀ e ∈ states, IsIdentifier e.name
  initial : ∀ e ∈ states, IsInitial e.initial
  source : ∀ d ∈ derivations, d.IsSource
  onLine : ∀ d ∈ derivations, d.formula.IsOnLine
  distinct : (states.map State.name ++ derivations.map Derivation.name).Nodup
  declared : ∀ before d, before ++ [d] <+: derivations →
    d.dependency ∈ states.map State.name ++ before.map Derivation.name

namespace Declarations

variable (d : Declarations)

/-- The text is a script of these declarations. -/
def Writes (source : String) : Prop :=
  ∃ ts us, List.Forall₂ StateText d.states ts ∧ List.Forall₂ DerivationText d.derivations us ∧
    Layout (ts ++ us) source.toList

/-- One of the scripts of these declarations, with each statement on a line of its own. -/
def text : String :=
  .ofList ((d.states.map State.text ++ d.derivations.map Derivation.text).flatMap
    fun t => t ++ ['\n'])

theorem writes_text : d.Writes d.text := by
  refine ⟨d.states.map State.text, d.derivations.map Derivation.text, ?_, ?_, ?_⟩
  · rw [List.forall₂_map_right_iff, List.forall₂_same]
    exact fun e he => stateText_text (d.initial e he)
  · rw [List.forall₂_map_right_iff, List.forall₂_same]
    exact fun c hc => derivationText_text (d.source c hc)
  · rw [text, String.toList_ofList]
    apply layout_lines
    rw [List.forall_mem_append, List.forall_mem_map, List.forall_mem_map]
    constructor
    · exact fun e he => e.lineFeed_notMem_text (d.names e he) (d.initial e he)
    · exact fun c hc => c.lineFeed_notMem_text (d.source c hc) (d.onLine c hc)

variable {d}

theorem exists_parse_eq {source : String} (h : d.Writes source) :
    ∃ s : Script, Script.parse source = .ok s ∧ s.states = d.states ∧
      s.computed.map Computed.derivation = d.derivations := by
  obtain ⟨ts, us, hts, hus, hlayout⟩ := h
  have hstatements : ∀ t ∈ ts ++ us, IsStatement t := by
    rw [List.forall_mem_append]
    constructor
    · intro t ht
      obtain ⟨e, he, htext⟩ := exists_of_forall₂ hts ht
      exact htext.isStatement (d.names e he)
    · intro t ht
      obtain ⟨c, hc, htext⟩ := exists_of_forall₂ hus ht
      exact htext.isStatement (d.source c hc)
  have hstates : ts.foldl Reading.step (.of .empty) = .of ⟨d.states, []⟩ := by
    apply foldl_states hts d.names rfl
    exact d.distinct.of_append_left
  obtain ⟨r, hread, hr, hcomputed⟩ :
      ∃ r : Script, us.foldl Reading.step (.of ⟨d.states, []⟩) = .of r ∧ r.states = d.states ∧
        r.computed.map Computed.derivation = [] ++ d.derivations := by
    apply foldl_derivations hus d.source
    · simpa [Script.names] using d.distinct
    · simpa [Script.names] using d.declared
  refine ⟨r, ?_, hr, hcomputed⟩
  have hempty : (⟨.empty, [], []⟩ : Reading) = .of .empty := rfl
  rw [Script.parse, hlayout.statements_eq hstatements, List.foldl_append, hempty, hstates, hread]
  rfl

end Declarations

/-- A script of declarations is read, and there is one. What is read are the states and the computed
values in order, and each computed value starts with its formula on the start of its dependency. -/
theorem Script.parse_of_declarations (d : Declarations) : d.Writes d.text ∧
    ∀ source, d.Writes source → ∃ s : Script, Script.parse source = .ok s ∧
      s.states = d.states ∧ s.computed.map Computed.derivation = d.derivations ∧
      ∀ c ∈ s.computed, (s.initial? c.dependency).map c.formula.evaluate = some c.initial := by
  refine ⟨d.writes_text, ?_⟩
  intro source h
  obtain ⟨s, hparse, hstates, hcomputed⟩ := Declarations.exists_parse_eq h
  refine ⟨s, hparse, hstates, hcomputed, ?_⟩
  exact (Script.parse_isOrdered hparse).initial

/-- Two statements on one line, with separators in the strings and a statement in the comment. -/
theorem Script.parse_of_declarations_note :
    let note : State := ⟨"note", .string "a;b // \"c\") 'd'\n"⟩
    let mark : Formula := .literal (.string "!; //")
    let shout : Derivation := ⟨"shout", "note", "n", .binary (.arithmetic .add) .parameter mark⟩
    let source := "let note = Signal(\"a;b // \\\"c\\\") 'd'\\n\"); " ++
      "let shout = computed(note, |n|n + \"!; //\" ) // ; let n = Signal(1)"
    ∃ s : Script, Script.parse source = .ok s ∧ s.states = [note] ∧
      s.computed.map Computed.derivation = [shout] := by
  intro note mark shout source
  have hidentifier {x : String} (h : x = "note" ∨ x = "shout" ∨ x = "n") : IsIdentifier x := by
    obtain rfl | rfl | rfl := h <;> exact ⟨rfl, List.all_eq_true.1 rfl⟩
  have hshout : shout.IsSource := ⟨hidentifier (.inr (.inl rfl)), hidentifier (.inl rfl),
    hidentifier (.inr (.inr rfl)), by decide, ⟨trivial, trivial⟩⟩
  have hmark : '\n' ∉ "!; //".toList := by decide
  have hdeclared : ∀ before d, before ++ [d] <+: [shout] →
      d.dependency ∈ [note].map State.name ++ before.map Derivation.name := by
    intro before d h
    obtain ⟨rfl, rfl⟩ : before = [] ∧ d = shout := by
      cases before with
      | nil => simpa using h
      | cons c before => simp at h
    exact List.mem_singleton_self "note"
  let d : Declarations := {
    states := [note]
    derivations := [shout]
    names := List.forall_mem_singleton.2 (hidentifier (.inl rfl))
    initial := List.forall_mem_singleton.2 trivial
    source := List.forall_mem_singleton.2 hshout
    onLine := List.forall_mem_singleton.2 ⟨trivial, hmark⟩
    distinct := by decide
    declared := hdeclared }
  have hlayout : Layout ([note.text] ++ [shout.text]) source.toList := by
    have hshout : Piece [shout.text] ([' '] ++ (shout.text ++ [' '])) :=
      .full isGap_space.blank isGap_space.blank
    have hsource : source.toList = note.text ++ ';' :: (([' '] ++ (shout.text ++ [' '])) ++
        '/' :: '/' :: " ; let n = Signal(1)".toList) := by decide +kernel
    have hline : '\n' ∉ source.toList := by decide +kernel
    rw [hsource] at hline ⊢
    exact .line (.semicolon (piece_self _) (.comment _ hshout)) hline
  obtain ⟨-, hparse⟩ := Script.parse_of_declarations d
  have hstates : List.Forall₂ StateText [note] [note.text] := .cons (stateText_text trivial) .nil
  have hderivations : List.Forall₂ DerivationText [shout] [shout.text] :=
    .cons (derivationText_text hshout) .nil
  obtain ⟨s, hs, hnotes, hshouts, -⟩ := hparse source ⟨_, _, hstates, hderivations, hlayout⟩
  exact ⟨s, hs, hnotes, hshouts⟩

end PageCompiler.Island
