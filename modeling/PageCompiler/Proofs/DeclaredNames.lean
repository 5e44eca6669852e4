import PageCompiler.Island.Extract
import PageCompiler.Proofs.Declarations
import PageCompiler.Proofs.Interpolation
import PageCompiler.Proofs.Script

/-!
The names that a script declares. Interpolation takes them from the beginnings of the statements,
and the island from the declarations that are read. Main statement: no declared name is missing in
the first, whatever else the script holds, and in a script that is read the two are the same.
-/

namespace PageCompiler.Island

open Markup (IsIdentifier)
open Text (isBlank afterWord? identifier? trimStart continuesIdentifier)

section Words

variable {cs ds rest name : List Char}

theorem eq_of_trimStart (h : trimStart cs = ds) : ∃ p, (∀ c ∈ p, isBlank c) ∧ cs = p ++ ds :=
  h ▸ Text.exists_trimStart cs

theorem exists_gap {word : String} (h : afterWord? word cs = some ds) :
    ∃ p, IsGap p ∧ cs = word.toList ++ (p ++ ds) := by
  obtain ⟨es, hes, hblanks⟩ := Option.bind_eq_some_iff.1 h
  obtain rfl := Text.after?_eq_some_iff.1 hes
  cases es with
  | nil => cases hblanks
  | cons c es =>
    simp only [Text.blanks?, Option.ite_none_right_eq_some, Option.some.injEq] at hblanks
    obtain ⟨hc, rfl⟩ := hblanks
    obtain ⟨p, hp, hes⟩ := Text.exists_trimStart es
    refine ⟨c :: p, ⟨List.cons_ne_nil c p, List.forall_mem_cons.2 ⟨hc, hp⟩⟩, ?_⟩
    rw [List.cons_append, ← hes]

theorem exists_identifier (h : identifier? cs = some (name, rest)) :
    ∃ x : String, IsIdentifier x ∧ name = x.toList ∧ cs = x.toList ++ rest := by
  cases cs with
  | nil => cases h
  | cons c cs =>
    simp only [identifier?, Option.ite_none_right_eq_some, Option.some.injEq, Prod.mk.injEq] at h
    obtain ⟨hc, rfl, rfl⟩ := h
    have hcontinues : continuesIdentifier c := by
      simp only [Text.startsIdentifier, Bool.or_eq_true] at hc
      simp only [continuesIdentifier, Char.isAlphanum, Bool.or_eq_true]
      exact hc.imp_left .inl
    refine ⟨.ofList (c :: cs.takeWhile continuesIdentifier), ⟨by simpa using hc, ?_⟩,
      String.toList_ofList.symm, ?_⟩
    · rw [String.toList_ofList]
      exact List.forall_mem_cons.2 ⟨hcontinues, fun _ => List.mem_takeWhile_imp⟩
    · rw [String.toList_ofList, List.cons_append, List.takeWhile_append_dropWhile]

end Words

section Binding

variable {cs t rhs chars : List Char} {name : String}

/-- A name, and an equals sign behind blanks. -/
theorem exists_named {read : List Char × List Char} (h : identifier? cs = some read)
    (hrhs : (match trimStart read.2 with
      | '=' :: cs => some (read.1, cs)
      | _ => none) = some (chars, rhs)) :
    ∃ x : String, IsIdentifier x ∧ chars = x.toList ∧
      ∃ q, (∀ c ∈ q, isBlank c) ∧ cs = x.toList ++ (q ++ '=' :: rhs) := by
  split at hrhs
  · next ds heq =>
    cases hrhs
    obtain ⟨x, hx, hchars, rfl⟩ := exists_identifier h
    obtain ⟨q, hq, hrest⟩ := eq_of_trimStart heq
    exact ⟨x, hx, hchars, q, hq, by rw [← hrest]⟩
  · cases hrhs

theorem exists_binding (h : binding? t = some (chars, rhs)) :
    ∃ x : String, IsIdentifier x ∧ chars = x.toList ∧ Binding x rhs t := by
  simp only [binding?, Option.bind_eq_bind, Option.bind_eq_some_iff, Option.or_eq_some_iff] at h
  obtain ⟨ds, hlet, ⟨es, hmut, read, hread, hrhs⟩ | ⟨-, read, hread, hrhs⟩⟩ := h
  · obtain ⟨p, hp, rfl⟩ := exists_gap hlet
    obtain ⟨q, hq, rfl⟩ := exists_gap hmut
    obtain ⟨x, hx, hchars, r, hr, rfl⟩ := exists_named hread hrhs
    exact ⟨x, hx, hchars, .mutable hp hq hr⟩
  · obtain ⟨p, hp, rfl⟩ := exists_gap hlet
    obtain ⟨x, hx, hchars, q, hq, rfl⟩ := exists_named hread hrhs
    exact ⟨x, hx, hchars, .fixed hp hq⟩

/-- However the beginning of a statement can be taken for that of a declaration, it is. -/
theorem binding?_eq_some_iff :
    binding? t = some (name.toList, rhs) ↔ IsIdentifier name ∧ Binding name rhs t := by
  constructor
  · intro h
    obtain ⟨x, hx, hchars, hbinding⟩ := exists_binding h
    obtain rfl := String.toList_inj.1 hchars
    exact ⟨hx, hbinding⟩
  · rintro ⟨hname, h⟩
    exact binding?_eq h hname

end Binding

namespace Declaration

section Right

variable {c : Char} {cs ds text name : List Char}

theorem concat_of_beforeCloseParen? (h : beforeCloseParen? cs = some ds) : cs = ds ++ [')'] := by
  simp only [beforeCloseParen?, Option.ite_none_right_eq_some, Option.some.injEq] at h
  obtain ⟨hlast, rfl⟩ := h
  obtain ⟨es, rfl⟩ := List.getLast?_eq_some_iff.1 hlast
  rw [List.dropLast_concat]

theorem exists_called {word : String} (h : (match (Text.after? word.toList cs).map trimStart with
      | some ('(' :: rest) => beforeCloseParen? rest
      | _ => none) = some text) :
    ∃ p, (∀ c ∈ p, isBlank c) ∧ cs = word.toList ++ (p ++ '(' :: (text ++ [')'])) := by
  split at h
  · next rest heq =>
    obtain ⟨ds, hds, htrim⟩ := Option.map_eq_some_iff.1 heq
    obtain rfl := Text.after?_eq_some_iff.1 hds
    obtain ⟨p, hp, rfl⟩ := eq_of_trimStart htrim
    obtain rfl := concat_of_beforeCloseParen? h
    exact ⟨p, hp, rfl⟩
  · cases h

theorem exists_of_initial? (h : initial? cs = some text) : ∃ word ∈ signalWords, ∃ p,
    (∀ c ∈ p, isBlank c) ∧ cs = word.toList ++ (p ++ '(' :: (text ++ [')'])) := by
  simp only [initial?, Option.or_eq_some_iff] at h
  obtain (h | ⟨-, h⟩) | ⟨-, h⟩ := h
  · exact ⟨"Signal", by decide, exists_called h⟩
  · exact ⟨"signal", by decide, exists_called h⟩
  · exact ⟨"Signal::new", by decide, exists_called h⟩

theorem exists_of_mark? (h : mark? c cs = some ds) :
    ∃ p q, (∀ c ∈ p, isBlank c) ∧ (∀ c ∈ q, isBlank c) ∧ cs = p ++ c :: (q ++ ds) := by
  unfold mark? at h
  split at h
  · next d es heq =>
    simp only [Option.ite_none_right_eq_some, Option.some.injEq] at h
    obtain ⟨rfl, htrim⟩ := h
    obtain ⟨p, hp, rfl⟩ := eq_of_trimStart heq
    obtain ⟨q, hq, rfl⟩ := eq_of_trimStart htrim
    exact ⟨p, q, hp, hq, rfl⟩
  · cases h

theorem exists_of_parameter? (h : parameter? cs = some (name, ds)) :
    ∃ x : String, IsIdentifier x ∧ name = x.toList ∧
      ∃ p q r, (∀ x ∈ [p, q, r], ∀ c ∈ x, isBlank c) ∧
        cs = p ++ '|' :: (q ++ (x.toList ++ (r ++ '|' :: ds))) := by
  simp only [parameter?, Option.bind_eq_bind, Option.bind_eq_some_iff] at h
  obtain ⟨es, hmark, read, hread, h⟩ := h
  split at h
  · next fs heq =>
    cases h
    obtain ⟨p, q, hp, hq, rfl⟩ := exists_of_mark? hmark
    obtain ⟨x, hx, hname, rfl⟩ := exists_identifier hread
    obtain ⟨r, hr, hrest⟩ := eq_of_trimStart heq
    refine ⟨x, hx, hname, p, q, r, ?_, by rw [← hrest]⟩
    simp only [List.forall_mem_cons]
    exact ⟨hp, hq, hr, List.forall_mem_nil _⟩
  · cases h

/-- A closure is taken with or without `move`. -/
theorem exists_of_move (h : parameter? ((afterWord? "move" cs).getD cs) = some (name, ds)) :
    ∃ x : String, IsIdentifier x ∧ name = x.toList ∧
      ∃ p m q r, IsMove m ∧ (∀ x ∈ [p, q, r], ∀ c ∈ x, isBlank c) ∧
        cs = p ++ (m ++ '|' :: (q ++ (x.toList ++ (r ++ '|' :: ds)))) := by
  obtain ⟨x, hx, hname, p, q, r, hblank, heq⟩ := exists_of_parameter? h
  refine ⟨x, hx, hname, ?_⟩
  cases hmove : afterWord? "move" cs with
  | none =>
    rw [hmove, Option.getD_none] at heq
    exact ⟨p, [], q, r, .none, hblank, heq⟩
  | some es =>
    rw [hmove, Option.getD_some] at heq
    simp only [List.forall_mem_cons] at hblank
    obtain ⟨hp, hq, hr, -⟩ := hblank
    obtain ⟨g, hg, rfl⟩ := exists_gap hmove
    have hgap : IsGap (g ++ p) :=
      ⟨by simp [hg.filled], List.forall_mem_append.2 ⟨hg.blank, hp⟩⟩
    refine ⟨[], "move".toList ++ (g ++ p), q, r, .move hgap, ?_, by simp [heq]⟩
    simp only [List.forall_mem_cons]
    exact ⟨List.forall_mem_nil _, hq, hr, List.forall_mem_nil _⟩

theorem exists_closure {dependency parameter : List Char}
    (h : computed? cs = some (dependency, parameter, text)) :
    ∃ x y : String, IsIdentifier x ∧ IsIdentifier y ∧ dependency = x.toList ∧
      parameter = y.toList ∧ ∃ body, body ≠ [] ∧ text = trimStart body ∧ Closure x y body cs := by
  simp only [computed?, Option.bind_eq_bind, Option.bind_eq_some_iff] at h
  obtain ⟨ds, hword, es, hopen, ⟨_, fs⟩, hreadx, gs, hcomma, ⟨_, hs⟩, hready, body, hbody,
    heq⟩ := h
  cases heq
  obtain rfl := Text.after?_eq_some_iff.1 hword
  obtain ⟨a, b, ha, hb, rfl⟩ := exists_of_mark? hopen
  obtain ⟨x, hx, hdependency, rfl⟩ := exists_identifier hreadx
  obtain ⟨c, d, hc, hd, rfl⟩ := exists_of_mark? hcomma
  obtain ⟨y, hy, hparameter, p, m, e, f, hm, hblank, rfl⟩ := exists_of_move hready
  simp only [List.forall_mem_cons] at hblank
  obtain ⟨hp, he, hf, -⟩ := hblank
  simp only [closureBody?, Option.bind_eq_some_iff, Option.ite_none_left_eq_some,
    Option.some.injEq, List.isEmpty_iff] at hbody
  obtain ⟨body, hclose, hfilled, rfl⟩ := hbody
  obtain rfl := concat_of_beforeCloseParen? hclose
  refine ⟨x, y, hx, hy, hdependency, hparameter, body, hfilled, rfl, ?_⟩
  have hclosure : Closure x y body _ := .computed (a := a) (b := b) (c := c) (d := d ++ p) (e := e)
    (f := f) hm ?_
  · simpa using hclosure
  · simp only [List.forall_mem_cons]
    exact ⟨ha, hb, hc, List.forall_mem_append.2 ⟨hd, hp⟩, he, hf, List.forall_mem_nil _⟩

end Right

def name : Declaration → String
  | state name _ => name
  | computed name .. => name

end Declaration

/-- The statement is a declaration of `name` from its `let` to its last parenthesis. -/
inductive Declares (name : String) (t : List Char) : Prop
  | state {word r p text} : IsIdentifier name → word ∈ Declaration.signalWords →
      (∀ c ∈ r, isBlank c) → (∀ c ∈ p, isBlank c) →
      Binding name (r ++ (word.toList ++ (p ++ '(' :: (text ++ [')'])))) t → Declares name t
  | computed {dependency parameter body r cs} : IsIdentifier name → IsIdentifier dependency →
      IsIdentifier parameter → body ≠ [] → (∀ c ∈ r, isBlank c) →
      Declaration.Closure dependency parameter body cs → Binding name (r ++ cs) t →
      Declares name t

section Names

variable {name source : String} {t : List Char} {ts : List (List Char)}

theorem Declares.binding (h : Declares name t) : IsIdentifier name ∧ ∃ rhs, Binding name rhs t := by
  cases h with
  | state hname _ _ _ h => exact ⟨hname, _, h⟩
  | computed hname _ _ _ _ _ h => exact ⟨hname, _, h⟩

namespace Declaration

theorem declares_of_read? {d : Declaration} (h : read? t = some d) : Declares d.name t := by
  simp only [read?, Option.bind_eq_bind, Option.bind_eq_some_iff] at h
  obtain ⟨⟨_, rhs⟩, hread, h⟩ := h
  obtain ⟨x, hx, rfl, hbinding⟩ := exists_binding hread
  obtain ⟨r, hr, hrhs⟩ := Text.exists_trimStart rhs
  rw [hrhs] at hbinding
  split at h
  · next text _ hinitial =>
    cases h
    obtain ⟨word, hword, p, hp, hcs⟩ := exists_of_initial? hinitial
    rw [hcs] at hbinding
    simpa [name] using Declares.state hx hword hr hp hbinding
  · next hcomputed =>
    cases h
    obtain ⟨y, z, hy, hz, -, -, body, hbody, -, hclosure⟩ := exists_closure hcomputed
    simpa [name] using Declares.computed hx hy hz hbody hr hclosure hbinding
  · cases h

/-- The declarations that are read are those that are written in full. -/
theorem exists_read?_iff : (∃ d, read? t = some d ∧ d.name = name) ↔ Declares name t := by
  constructor
  · rintro ⟨d, hread, rfl⟩
    exact declares_of_read? hread
  · intro h
    cases h with
    | state hname hword hr hp h => exact ⟨_, read?_state hname hword hr hp h, rfl⟩
    | computed hname hd hp hbody hr hc h => exact ⟨_, read?_computed hname hd hp hbody hr hc h, rfl⟩

end Declaration

theorem mem_declaredNames : name ∈ declaredNames source ↔
    IsIdentifier name ∧ ∃ t ∈ statements source, ∃ rhs, Binding name rhs t := by
  simp only [declaredNames, List.mem_filterMap, Option.map_eq_some_iff, Prod.exists]
  constructor
  · rintro ⟨t, ht, chars, rhs, hread, rfl⟩
    rw [← String.toList_ofList (l := chars), binding?_eq_some_iff] at hread
    exact ⟨hread.1, t, ht, rhs, hread.2⟩
  · rintro ⟨hname, t, ht, rhs, hbinding⟩
    have hread := binding?_eq_some_iff.2 ⟨hname, hbinding⟩
    exact ⟨t, ht, name.toList, rhs, hread, String.ofList_toList⟩

/-- A declaration that is written in full counts, whatever else the script holds. -/
theorem Declares.mem_declaredNames (h : Declares name t) (ht : t ∈ statements source) :
    name ∈ declaredNames source := by
  obtain ⟨hname, rhs, hbinding⟩ := h.binding
  exact Island.mem_declaredNames.2 ⟨hname, t, ht, rhs, hbinding⟩

/-- Statements that are declarations have just the names that they declare. -/
theorem names_of_declares {names : List String} (h : List.Forall₂ Declares names ts) :
    (ts.filterMap fun s => (binding? s).map fun (name, _) => .ofList name) = names := by
  induction h with
  | nil => rfl
  | cons h _ ih =>
    obtain ⟨hname, rhs, hbinding⟩ := h.binding
    simp [binding?_eq hbinding hname, ih]

end Names

namespace Reading

open Script (addState addComputed)

variable {r : Reading} {name : String} {t : List Char} {ts : List (List Char)}

theorem names_of_addState {initial : String} {s u : Script} (h : addState name initial s = .ok u) :
    u.names.Perm (name :: s.names) := by
  unfold addState at h
  split at h
  · cases h
    exact Script.names_addState s _
  · cases h

theorem names_of_addComputed {dependency parameter body : String} {s u : Script}
    (h : addComputed name dependency parameter body s = .ok u) : u.names.Perm (name :: s.names) := by
  unfold addComputed at h
  split at h
  · cases h
  · split at h
    · cases h
    · cases h
      exact Script.names_addComputed s _

/-- Where a declaration makes no error, its name is one of the script. -/
theorem declare_names {add : Script → Except ScriptError Script}
    (hadd : ∀ u, add r.script = .ok u → u.names.Perm (name :: r.script.names))
    (h : (r.declare name add).errors = []) :
    r.errors = [] ∧ (r.declare name add).script.names.Perm (name :: r.script.names) := by
  unfold declare at h ⊢
  split at h
  · simp [fail] at h
  · next hnew =>
    rw [if_neg hnew]
    dsimp only at h ⊢
    split at h
    · next u hu => exact ⟨h, hadd u hu⟩
    · simp [fail] at h

theorem step_names (h : (r.step t).errors = []) : r.errors = [] ∧
    ∃ name, Declares name t ∧ (r.step t).script.names.Perm (name :: r.script.names) := by
  unfold step at h ⊢
  split at h
  · next hread =>
    obtain ⟨hr, hnames⟩ := declare_names (fun _ => names_of_addState) h
    exact ⟨hr, _, Declaration.exists_read?_iff.1 ⟨_, hread, rfl⟩, hnames⟩
  · next hread =>
    obtain ⟨hr, hnames⟩ := declare_names (fun _ => names_of_addComputed) h
    exact ⟨hr, _, Declaration.exists_read?_iff.1 ⟨_, hread, rfl⟩, hnames⟩
  · simp [fail] at h

/-- Statements that are read without an error are declarations, and their names come to those of the
script. -/
theorem foldl_names (h : (ts.foldl step r).errors = []) : r.errors = [] ∧
    ∃ names, List.Forall₂ Declares names ts ∧
      (ts.foldl step r).script.names.Perm (names ++ r.script.names) := by
  induction ts generalizing r with
  | nil => exact ⟨h, [], .nil, .refl _⟩
  | cons t ts ih =>
    obtain ⟨hstep, names, hnames, hperm⟩ := ih h
    obtain ⟨hr, name, hname, hone⟩ := step_names hstep
    refine ⟨hr, name :: names, .cons hname hnames, ?_⟩
    calc (ts.foldl step (r.step t)).script.names
        _ |>.Perm (names ++ (r.step t).script.names) := hperm
        _ |>.Perm (names ++ name :: r.script.names) := hone.append_left names
        _ |>.Perm (name :: names ++ r.script.names) := List.perm_middle

end Reading

theorem Script.parse_names {source : String} {s : Script} (h : parse source = .ok s) :
    List.Forall₂ Declares (declaredNames source) (statements source) ∧
      (declaredNames source).Perm s.names := by
  unfold parse at h
  dsimp only at h
  split at h
  · next hempty =>
    cases h
    rw [List.isEmpty_iff] at hempty
    obtain ⟨-, names, hnames, hperm⟩ := Reading.foldl_names hempty
    obtain rfl : declaredNames source = names := names_of_declares hnames
    exact ⟨hnames, by simpa [empty, Script.names] using hperm.symm⟩
  · cases h

end PageCompiler.Island

namespace PageCompiler.Interpolation

variable {r : Resolver} {data : Json.Object} {own : IslandNames} {script code raw name : String}
  {l : Location} {e : Expr}

theorem isIslandName_enter : isIslandName (enter own script) name ↔
    name ∈ Island.declaredNames script ∨ isIslandName own name := by
  simp [isIslandName, enter]

theorem resolve_expression_eq_iff (h : Expr.parse code = .ok e) :
    resolve r data own (.expression code raw l) = pure (.expression code raw l) ↔
      ∃ name ∈ e.roots, isIslandName own name := by
  rw [← List.any_eq_true, ← isIslandExpression, resolve, h]
  dsimp only
  split
  · next hown => simp [hown]
  · next hown =>
    have hkind : (r.expression data.get? e code raw l).Sat (·.kind ≠ .expression) fun _ => True :=
      Resolver.expression_sat (fun _ _ _ _ => trivial) (by simp) (by simp) _ _ _ _
    refine iff_of_false (fun heq => hkind.value ?_) hown
    rw [heq]
    rfl

end PageCompiler.Interpolation

namespace PageCompiler.Island

open Interpolation (enter isIslandName resolve)
open Markup (IsIdentifier)

theorem Content.errors_bindNode_eq_iff {c : Content} {code raw : String} {l : Location} :
    ((bindNode (.expression code raw l)).run c).2.errors = c.errors ↔
      Text.trimmed code ∈ c.script.names := by
  rw [← Script.initial?_isSome]
  cases h : c.script.initial? (Text.trimmed code) with
  | none =>
    have herrors : ((bindNode (.expression code raw l)).run c).2.errors =
        c.errors ++ [(.notBound (Text.trimmed code), l)] := by
      simp [bindNode, fail, h]
      rfl
    simp [herrors]
  | some initial =>
    have hsame : ((bindNode (.expression code raw l)).run c).2 = c := by
      simp [bindNode, h]
      rfl
    simp [hsame]

/-- Every declaration that is written in full has its name among the names for interpolation. In a
script that is read each statement is such a declaration, and these names are those of its states
and of its computed values. So interpolation leaves the expressions with one of these names at their
roots, and it is for these names that the island has values. -/
theorem Script.declaredNames_of_parse (source : String) :
    (∀ t ∈ statements source, ∀ name, Declares name t → name ∈ declaredNames source) ∧
    ∀ s, parse source = .ok s →
      List.Forall₂ Declares (declaredNames source) (statements source) ∧
      (declaredNames source).Perm (s.states.map State.name ++ s.computed.map Computed.name) ∧
      (∀ own name, isIslandName (enter own source) name ↔
        (s.initial? name).isSome ∨ isIslandName own name) ∧
      (∀ r data own code raw l e, Expr.parse code = .ok e →
        (resolve r data (enter own source) (.expression code raw l) =
            pure (.expression code raw l) ↔
          ∃ name ∈ e.roots, (s.initial? name).isSome ∨ isIslandName own name)) ∧
      ∀ c : Content, c.script = s → ∀ code raw l,
        (((Content.bindNode (.expression code raw l)).run c).2.errors = c.errors ↔
          Text.trimmed code ∈ declaredNames source) := by
  refine ⟨fun t ht name h => h.mem_declaredNames ht, ?_⟩
  intro s hs
  obtain ⟨hdeclares, hperm⟩ := parse_names hs
  have hnames (own : Interpolation.IslandNames) (name : String) :
      isIslandName (enter own source) name ↔ (s.initial? name).isSome ∨ isIslandName own name := by
    rw [Interpolation.isIslandName_enter, hperm.mem_iff, initial?_isSome]
  refine ⟨hdeclares, hperm, hnames, ?_, ?_⟩
  · intro r data own code raw l e he
    rw [Interpolation.resolve_expression_eq_iff he]
    simp only [hnames]
  · rintro c rfl code raw l
    rw [Content.errors_bindNode_eq_iff, hperm.mem_iff]

/-- A state that is called like the word in front of it, and a script with a wrong statement. -/
theorem Script.declaredNames_of_parse_mut :
    let source := "let mut = Signal(1); let mut twice = computed(mut, move |mut| mut + mut)"
    let wrong := "let mut mut = signal(2); let twice = Twice(mut)"
    (∃ s, parse source = .ok s ∧ (declaredNames source).Perm (s.states.map State.name ++
      s.computed.map Computed.name) ∧ declaredNames source = ["mut", "twice"]) ∧
    (parse wrong).toOption = none ∧ "mut" ∈ declaredNames wrong := by
  intro source wrong
  have hread : (parse source).toOption.isSome := by decide +kernel
  have hwrong : (parse wrong).toOption = none := by decide +kernel
  refine ⟨?_, hwrong, ?_⟩
  · cases hs : parse source with
    | error errors => simp [hs, Except.toOption] at hread
    | ok s =>
      obtain ⟨-, hnames, -⟩ := (declaredNames_of_parse source).2 s hs
      exact ⟨s, rfl, hnames, by decide +kernel⟩
  · have hgap : IsGap [' '] := ⟨List.cons_ne_nil _ _, List.all_eq_true.1 rfl⟩
    have hname : IsIdentifier "mut" := ⟨rfl, List.all_eq_true.1 rfl⟩
    have hright : [' '] ++ ("signal".toList ++ ([] ++ '(' :: (['2'] ++ [')']))) =
      " signal(2)".toList := rfl
    have hbinding : Binding "mut" " signal(2)".toList "let mut mut = signal(2)".toList :=
      .mutable hgap hgap hgap.blank
    have hdeclares : Declares "mut" "let mut mut = signal(2)".toList :=
      .state hname (by decide) hgap.blank (List.forall_mem_nil _) (hright ▸ hbinding)
    exact (declaredNames_of_parse wrong).1 _ (by decide +kernel) _ hdeclares

end PageCompiler.Island
