import Mathlib.Data.List.Basic
import PageCompiler.Compile
import PageCompiler.Proofs.Lexical
import PageCompiler.Proofs.Roots

/-!
Evaluation in one pass. Control flow replaces the expressions with a local name and interpolation
those that are left. Main statement: outside of islands the two passes make of a tree what one pass
makes of it that looks every name up in the frame where it stands.
-/

namespace PageCompiler

open Json (Value Object)

namespace Evaluation

open ControlFlow (collection holds boundProp)

/-- What code says in a frame. -/
inductive Meaning
  | invalid (e : Expr.ParseError)
  | unresolved (u : Unresolved)
  | value (v : Value)

def meaning (f : Frame) (code : String) : Meaning :=
  match Expr.parse code with
  | .error e => .invalid e
  | .ok e =>
    match e.evaluate f.scope.get? with
    | .ok v => .value v
    | .error u => .unresolved u

def node (mode : Mode) (code raw : String) (l : Location) : Meaning → Node
  | .invalid e => .error .invalidExpression (Resolver.invalidText "expression" code e) l
  | .unresolved u =>
    match mode with
    | .strict => .error .interpolationTargetMissing u.problemText l
    | .lenient => .text (Text.escapeHtml raw) l
  | .value v =>
    match v.scalarText? with
    | some text => .text (Text.escapeHtml text) l
    | none => .error .nonScalarInterpolation (Resolver.nonScalarText code v) l

def text (mode : Mode) (code : String) : Meaning → String
  | .invalid _ => ""
  | .unresolved _ =>
    match mode with
    | .strict => ""
    | .lenient => Markup.bracedCode code
  | .value v => (v.scalarText?.map Text.escapeHtml).getD ""

def partText (mode : Mode) (f : Frame) : Part → String
  | .text s => s
  | .expression code => text mode code (meaning f code)

/-- What an attribute becomes that is an expression. A value that is false or null takes the
attribute away. -/
def meant? (mode : Mode) (code : String) : Meaning → Option AttributeValue
  | .value (.bool false) => none
  | .value .null => none
  | .value (.bool true) => some .bare
  | m => some (.static (text mode code m))

/-- The value of an attribute, which is a text or nothing at all. -/
def value? (mode : Mode) (f : Frame) : AttributeValue → Option AttributeValue
  | .static s => some (.static s)
  | .bare => some .bare
  | .interpolated parts => some (.static (String.join (parts.map (partText mode f))))
  | .expression code => meant? mode code (meaning f code)

def attributes (mode : Mode) (f : Frame) (as : List Attribute) : List Attribute :=
  as.filterMap fun a => (value? mode f a.value).map fun value => { a with value }

mutual

/-- The nodes that a node becomes in a frame. Slot content is evaluated at its usage site. -/
def evaluate (r : Resolver) (sites : List Frame) (f : Frame) : Node → List Node
  | .expression code raw l => [node r.mode code raw l (meaning f code)]
  | .element tag as children closing l =>
    [.element tag (attributes r.mode f as) (evaluateAll r sites f children) closing l]
  | .loop item source body d l =>
    match collection f.scope source d with
    | .ok items => (f.iterations item items).flatMap fun g => evaluateAll r sites g body
    | .error (problem, message) => [.error problem message l]
  | .conditional branches alternate _ l =>
    (evaluateBranches r sites f l branches).getD <|
      match alternate with
      | some nodes => evaluateAll r sites f nodes
      | none => []
  | .isolated component bindings children l =>
    let props := bindings.map fun b => (boundProp r f.scope component l b).value
    evaluateAll r (f :: sites) (.ofProps f.data props) children
  | .callerScope children =>
    match sites with
    | site :: outer => evaluateAll r outer site children
    | [] => evaluateAll r [] f children
  | .component name as children l => [.component name as (evaluateAll r sites f children) l]
  | .slot name fallback l => [.slot name (evaluateAll r sites f fallback) l]
  | n => [n]
termination_by structural n => n

def evaluateAll (r : Resolver) (sites : List Frame) (f : Frame) : List Node → List Node
  | [] => []
  | n :: ns => evaluate r sites f n ++ evaluateAll r sites f ns
termination_by structural ns => ns

def evaluateBranches (r : Resolver) (sites : List Frame) (f : Frame) (l : Location) :
    List (String × List Node) → Option (List Node)
  | [] => none
  | (condition, body) :: rest =>
    if (holds r f.scope condition l).value then some (evaluateAll r sites f body)
    else evaluateBranches r sites f l rest
termination_by structural bs => bs

end

section Meaning

variable {f : Frame} {mode : Mode} {file code : String}

def Meaning.resolved : Meaning → Resolver.Resolved
  | .invalid e => .invalid e
  | .unresolved u => .unresolved u
  | .value v => .value v

theorem get?_ofData (data : Object) : (Frame.mk data []).scope.get? = data.get? := rfl

/-- Code without local names means the same in the data alone. -/
theorem meaning_of_not_local {e : Expr} (hp : Expr.parse code = .ok e)
    (hl : ControlFlow.isLocalTo f.scope e = false) :
    meaning ⟨f.data, []⟩ code = meaning f code := by
  have he : e.evaluate f.data.get? = e.evaluate f.scope.get? := by
    apply Expr.evaluate_congr
    intro name hn
    have hn := List.any_eq_false.1 hl name hn
    rw [Scope.isLocal, Bool.not_eq_true, Option.isSome_eq_false_iff,
      Option.isNone_iff_eq_none] at hn
    rw [Scope.get?, hn, Option.none_or]
    rfl
  simp only [meaning, hp, get?_ofData, he]

theorem value_expression {r : Resolver} {e : Expr} (hp : Expr.parse code = .ok e) (raw : String)
    (l : Location) :
    (r.expression f.scope.get? e code raw l).value = node r.mode code raw l (meaning f code) := by
  simp only [Resolver.expression, meaning, hp]
  cases e.evaluate f.scope.get? with
  | ok v =>
    cases hv : v.scalarText? <;> simp [node, hv, Resolver.failHere]
  | error u =>
    cases r.mode <;> simp [node, Resolver.failHere]

end Meaning

section Attributes

open ControlFlow (bindingsIn isLocalTo)
open Resolver (joinTexts ofParts)

variable {f : Frame} {mode : Mode} {data : Object} {file : String} {l : Location}

theorem resolve_last (code : String) :
    (Interpolation.resolver mode file).resolve ⟨data.get?, fun _ => true⟩ code =
      (meaning ⟨data, []⟩ code).resolved := by
  simp only [Resolver.resolve, meaning, Interpolation.resolver, get?_ofData]
  cases Expr.parse code with
  | error e => rfl
  | ok e => cases h : e.evaluate data.get? <;> simp [h, Meaning.resolved]

/-- What control flow leaves for later means the same later. -/
theorem resolve_first (code : String) :
    (Resolver.mk mode .controlFlow file).resolve (bindingsIn f.scope) code =
        (meaning f code).resolved ∨
      (Resolver.mk mode .controlFlow file).resolve (bindingsIn f.scope) code = .kept ∧
        meaning ⟨f.data, []⟩ code = meaning f code := by
  cases hp : Expr.parse code with
  | error e => right; simp [Resolver.resolve, meaning, hp]
  | ok e =>
    cases hl : isLocalTo f.scope e with
    | false =>
      right
      exact ⟨by simp [Resolver.resolve, bindingsIn, hp, hl], meaning_of_not_local hp hl⟩
    | true =>
      left
      simp only [Resolver.resolve, meaning, bindingsIn, hp, hl, if_true]
      cases e.evaluate f.scope.get? <;> simp [Meaning.resolved]

theorem value_valueText (r : Resolver) (code : String) (v : Value) :
    (r.valueText code v l).value = text r.mode code (.value v) := by
  cases h : v.scalarText? <;> simp [Resolver.valueText, text, h]

theorem value_unresolvedText (r : Resolver) (code : String) (u : Unresolved) :
    (r.unresolvedText code u l).value = text r.mode code (.unresolved u) := by
  cases h : r.mode <;> simp [Resolver.unresolvedText, text, h]

theorem value_part_of_resolved {r : Resolver} {b : Resolver.Bindings} {code : String} {m : Meaning}
    (h : r.resolve b code = m.resolved) :
    (r.part b l (.expression code)).value = .text (text r.mode code m) := by
  rw [Resolver.part, h]
  cases m with
  | invalid e => rfl
  | unresolved u => simp [Meaning.resolved, value_unresolvedText]
  | value v => simp [Meaning.resolved, value_valueText]

theorem value_part_last (p : Part) :
    ((Interpolation.resolver mode file).part ⟨data.get?, fun _ => true⟩ l p).value =
      .text (partText mode ⟨data, []⟩ p) := by
  cases p with
  | text t => rfl
  | expression code => exact value_part_of_resolved (resolve_last code)

theorem partText_part_first (p : Part) :
    partText mode ⟨f.data, []⟩
        ((Resolver.mk mode .controlFlow file).part (bindingsIn f.scope) l p).value =
      partText mode f p := by
  cases p with
  | text t => rfl
  | expression code =>
    obtain h | ⟨h, hm⟩ := resolve_first code
    · rw [value_part_of_resolved h]
      rfl
    · rw [Resolver.part, h]
      exact congrArg (text mode code) hm

theorem join_joinTexts {text : Part → String} (ht : ∀ s, text (.text s) = s) (ps : List Part) :
    String.join ((joinTexts ps).map text) = String.join (ps.map text) := by
  fun_induction joinTexts ps with
  | case1 => rfl
  | case2 t ps u rest h ih =>
    rw [h] at ih
    simp [← ih, ht, String.join_cons, String.append_assoc]
  | case3 t ps h ih => simp [← ih, String.join_cons]
  | case4 p ps h ih => simp [← ih, String.join_cons]

theorem joinTexts_texts (t : String) (ts : List String) :
    joinTexts ((t :: ts).map Part.text) = [.text (String.join (t :: ts))] := by
  induction ts generalizing t with
  | nil => simp [joinTexts]
  | cons u ts ih =>
    rw [List.map_cons, joinTexts, ih]
    simp [String.join_cons]

theorem ofParts_texts (ts : List String) :
    ofParts (ts.map Part.text) = .static (String.join ts) := by
  cases ts with
  | nil => rfl
  | cons t ts => rw [ofParts, joinTexts_texts]

theorem value?_ofParts (ps : List Part) :
    value? mode f (ofParts ps) = some (.static (String.join (ps.map (partText mode f)))) := by
  rw [ofParts, ← join_joinTexts fun _ => rfl]
  split
  · next h => simp [h, value?]
  · next t h => simp [h, value?, partText]
  · rfl

theorem value_attributeValue?_of_resolved {r : Resolver} {b : Resolver.Bindings} {code : String}
    {m : Meaning} (h : r.resolve b code = m.resolved) :
    (r.attributeValue? b l (.expression code)).value = meant? r.mode code m := by
  rw [Resolver.attributeValue?, h]
  cases m with
  | invalid e => rfl
  | unresolved u => simp [Meaning.resolved, value_unresolvedText, meant?]
  | value v =>
    cases v with
    | bool b => cases b <;> rfl
    | null => rfl
    | number n => rfl
    | string s => rfl
    | array items => rfl
    | object members => rfl

theorem value?_of_mem_meant? {code : String} {m : Meaning} {v : AttributeValue}
    (h : v ∈ meant? mode code m) : value? mode f v = some v := by
  revert h
  fun_cases meant? mode code m <;> simp +contextual [value?, eq_comm]

theorem value?_eq_some {v w : AttributeValue} (h : value? mode f v = some w) :
    (∃ s, w = .static s) ∨ w = .bare := by
  revert h
  cases v with
  | static s => simp +contextual [value?, eq_comm]
  | bare => simp +contextual [value?, eq_comm]
  | interpolated parts => simp +contextual [value?, eq_comm]
  | expression code =>
    rw [value?]
    fun_cases meant? mode code (meaning f code) <;> simp +contextual [eq_comm]

/-- The last resolution leaves nothing open in an attribute. -/
theorem attributeValue?_last (v : AttributeValue) :
    ((Interpolation.resolver mode file).attributeValue? ⟨data.get?, fun _ => true⟩ l v).value =
      value? mode ⟨data, []⟩ v := by
  cases v with
  | static t => rfl
  | bare => rfl
  | interpolated parts =>
    rw [value?, ← ofParts_texts, List.map_map]
    simp [Resolver.attributeValue?, Function.comp_def, value_part_last]
  | expression code => exact value_attributeValue?_of_resolved (resolve_last code)

/-- An attribute that is resolved twice is what it is in its frame. -/
theorem attributeValue?_first (v : AttributeValue) :
    ((Resolver.mk mode .controlFlow file).attributeValue? (bindingsIn f.scope) l v).value.bind
        (value? mode ⟨f.data, []⟩) =
      value? mode f v := by
  cases v with
  | static t => rfl
  | bare => rfl
  | interpolated parts =>
    simp [Resolver.attributeValue?, value?_ofParts, Function.comp_def, partText_part_first]
    rfl
  | expression code =>
    obtain h | ⟨h, hm⟩ := resolve_first code
    · rw [value_attributeValue?_of_resolved h, value?]
      cases hv : meant? mode code (meaning f code) with
      | none => rfl
      | some v => exact value?_of_mem_meant? hv
    · rw [Resolver.attributeValue?, h]
      exact congrArg (meant? mode code) hm

theorem value_attributes (r : Resolver) (b : Resolver.Bindings) (as : List Attribute) :
    (r.attributes b as).value = as.filterMap fun a =>
      (r.attributeValue? b a.location a.value).value.map fun value => { a with value } := by
  induction as with
  | nil => rfl
  | cons a as ih =>
    rw [List.filterMap_cons, ← ih]
    cases h : (r.attributeValue? b a.location a.value).value <;>
      simp [Resolver.attributes, h]

theorem value_resolveAttributes (r : Resolver) (as : List Attribute) :
    (Interpolation.resolveAttributes r data none as).value =
      (r.attributes ⟨data.get?, fun _ => true⟩ as).value := by
  have hd : (fun e : Expr => !Interpolation.isIslandExpression none e) = fun _ => true := by
    funext e
    simp [Interpolation.isIslandExpression, Interpolation.isIslandName]
  simp [Interpolation.resolveAttributes, Interpolation.isEvent, Resolver.attributes, hd,
    List.flatMap_map]

theorem attributes_last (as : List Attribute) :
    (Interpolation.resolveAttributes (Interpolation.resolver mode file) data none as).value =
      attributes mode ⟨data, []⟩ as := by
  simp only [value_resolveAttributes, value_attributes, attributeValue?_last, attributes]

theorem attributes_first (as : List Attribute) :
    attributes mode ⟨f.data, []⟩
        ((Resolver.mk mode .controlFlow file).attributes (bindingsIn f.scope) as).value =
      attributes mode f as := by
  simp only [value_attributes, attributes, List.filterMap_filterMap]
  congr 1
  funext a
  rw [← @attributeValue?_first f mode file a.location a.value, Option.bind_map, Option.map_bind]
  rfl

end Attributes

section Passes

open Interpolation (resolver resolve resolveAll)

variable {mode : Mode} {data : Object} {file : String} {sites : List Frame} {f : Frame}

theorem value_resolveAll (r : Resolver) (own : Interpolation.IslandNames) (ns : List Node) :
    (resolveAll r data own ns).value = ns.map fun n => (resolve r data own n).value := by
  induction ns with
  | nil => rfl
  | cons n ns ih =>
    rw [resolveAll, List.map_cons, ← ih]
    rfl

/-- What interpolation makes of the nodes that control flow left. -/
def finish (mode : Mode) (data : Object) (file : String) (r : Reported (List Node)) : List Node :=
  (resolveAll (resolver mode file) data none r.value).value

theorem finish_bind {α : Type} (r : Reported α) (k : α → Reported (List Node)) :
    finish mode data file (r >>= k) = finish mode data file (k r.value) := rfl

theorem finish_concat (rs : List (Reported (List Node))) :
    finish mode data file (.concat rs) = rs.flatMap (finish mode data file) := by
  show _ = rs.flatMap fun r => finish mode data file r
  simp [finish, value_resolveAll, List.map_flatMap]

theorem finish_node (code raw : String) (l : Location) (m : Meaning) :
    finish mode data file (pure [node mode code raw l m]) = [node mode code raw l m] := by
  fun_cases node mode code raw l m <;> rfl

theorem finish_expression {e : Expr} {code : String} (hp : Expr.parse code = .ok e)
    (raw : String) (l : Location) :
    finish mode data file (pure [.expression code raw l]) =
      [node mode code raw l (meaning ⟨data, []⟩ code)] := by
  have hv := @value_expression ⟨data, []⟩ code (resolver mode file) e hp raw l
  rw [get?_ofData] at hv
  simp [finish, resolveAll, resolve, hp, Interpolation.isIslandExpression,
    Interpolation.isIslandName, hv]
  rfl

theorem finish_expandAll {r : Resolver} {ns : List Node}
    (h : ∀ n ∈ ns, finish mode data file (Lexical.expand r sites f n) = evaluate r sites f n) :
    finish mode data file (Lexical.expandAll r sites f ns) = evaluateAll r sites f ns := by
  induction ns with
  | nil => rfl
  | cons n ns ih =>
    rw [List.forall_mem_cons] at h
    rw [evaluateAll, ← h.1, ← ih h.2, Lexical.expandAll]
    simp [finish, value_resolveAll]

theorem finish_expandBranches {r : Resolver} {l : Location} {bs : List (String × List Node)}
    (h : ∀ b ∈ bs, ∀ n ∈ b.2,
      finish mode data file (Lexical.expand r sites f n) = evaluate r sites f n) :
    (Lexical.expandBranches r sites f l bs).value.map (fun ns => finish mode data file (pure ns)) =
      evaluateBranches r sites f l bs := by
  induction bs with
  | nil => rfl
  | cons b bs ih =>
    rw [List.forall_mem_cons] at h
    rw [evaluateBranches, ← finish_expandAll h.1, ← ih h.2, Lexical.expandBranches]
    cases hc : (ControlFlow.holds r f.scope b.1 l).value <;> simp [hc]
    rfl

theorem finish_expand_expression (hf : f.data = data) (code raw : String) (l : Location) :
    finish mode data file
        (Lexical.expand ⟨mode, .controlFlow, file⟩ sites f (.expression code raw l)) =
      evaluate ⟨mode, .controlFlow, file⟩ sites f (.expression code raw l) := by
  rw [evaluate, Lexical.expand]
  cases hp : Expr.parse code with
  | error e => simp [finish, resolveAll, resolve, hp, meaning, node, Resolver.failHere]
  | ok e =>
    cases hl : ControlFlow.isLocalTo f.scope e with
    | true =>
      simp only [hl, if_true]
      rw [finish_bind, value_expression hp, finish_node]
    -- without a local name it is left to the second pass, which knows the data only
    | false =>
      simp only [hl, if_neg Bool.false_ne_true]
      rw [finish_expression hp, ← hf, meaning_of_not_local hp hl]

theorem finish_expand (n : Node) (hn : n.OfKinds (· ≠ .island)) (hf : f.data = data)
    (hs : ∀ site ∈ sites, site.data = data) :
    finish mode data file (Lexical.expand ⟨mode, .controlFlow, file⟩ sites f n) =
      evaluate ⟨mode, .controlFlow, file⟩ sites f n := by
  induction n generalizing sites f with
  | element tag as children closing l ih =>
    obtain ⟨-, hn⟩ := Node.everywhere_element.1 hn
    rw [evaluate, ← finish_expandAll fun n h => ih n h (hn n h) hf hs, Lexical.expand]
    subst hf
    simp [finish, resolveAll, resolve, attributes_last, attributes_first]
  | text s l => rfl
  | expression code raw l => exact finish_expand_expression hf code raw l
  | comment s l => rfl
  | doctype s l => rfl
  | component name as children l ih =>
    obtain ⟨-, hn⟩ := Node.everywhere_component.1 hn
    rw [evaluate, ← finish_expandAll fun n h => ih n h (hn n h) hf hs, Lexical.expand]
    rfl
  | slot name fallback l ih =>
    obtain ⟨-, hn⟩ := Node.everywhere_slot.1 hn
    rw [evaluate, ← finish_expandAll fun n h => ih n h (hn n h) hf hs, Lexical.expand]
    rfl
  | loop item source body d l ih =>
    obtain ⟨-, hn⟩ := Node.everywhere_loop.1 hn
    rw [evaluate, Lexical.expand]
    cases ControlFlow.collection f.scope source d with
    | error e => rfl
    | ok items =>
      have hg : ∀ g ∈ f.iterations item items, g.data = data := by
        intro g hg
        obtain ⟨index, _, rfl⟩ := List.mem_mapIdx.1 hg
        exact hf
      rw [finish_concat, List.flatMap_map]
      apply List.flatMap_congr
      intro g h
      exact finish_expandAll fun n h' => ih n h' (hn n h') (hg g h) hs
  | conditional branches alternate d l ihb iha =>
    obtain ⟨-, hb, ha⟩ := Node.everywhere_conditional.1 hn
    have hbs := @finish_expandBranches mode data file sites f ⟨mode, .controlFlow, file⟩ l branches
      fun b h n h' => ihb b h n h' (hb b h n h') hf hs
    cases alternate with
    | none =>
      rw [evaluate, ← hbs, Lexical.expand, finish_bind]
      cases (Lexical.expandBranches ⟨mode, .controlFlow, file⟩ sites f l branches).value <;> rfl
    | some nodes =>
      rw [evaluate, ← hbs, Lexical.expand, finish_bind,
        ← finish_expandAll fun n h => iha nodes rfl n h (ha nodes rfl n h) hf hs]
      cases (Lexical.expandBranches ⟨mode, .controlFlow, file⟩ sites f l branches).value <;> rfl
  | island strategy script children l ih => exact absurd rfl (Node.everywhere_island.1 hn).1
  | isolated name bindings children l ih =>
    obtain ⟨-, hn⟩ := Node.everywhere_isolated.1 hn
    rw [evaluate, Lexical.expand, finish_bind, Reported.value_all, List.map_map]
    exact finish_expandAll fun n h => ih n h (hn n h) hf (List.forall_mem_cons.2 ⟨hf, hs⟩)
  | callerScope children ih =>
    obtain ⟨-, hn⟩ := Node.everywhere_callerScope.1 hn
    cases sites with
    | nil =>
      rw [evaluate, Lexical.expand]
      exact finish_expandAll fun n h => ih n h (hn n h) hf hs
    | cons site outer =>
      rw [List.forall_mem_cons] at hs
      rw [evaluate, Lexical.expand]
      exact finish_expandAll fun n h => ih n h (hn n h) hs.1 hs.2
  | error problem message l => rfl

/-- Both passes together evaluate every expression in the frame where it stands. -/
theorem evaluateNodes_eq_evaluateAll (mode : Mode) (data : Object) (file : String)
    (nodes : List Node) (h : ∀ n ∈ nodes, n.OfKinds (· ≠ .island)) :
    (evaluateNodes mode data file nodes).value =
      evaluateAll ⟨mode, .controlFlow, file⟩ [] ⟨data, []⟩ nodes := by
  have hs : ∀ site ∈ ([] : List Frame), site.data = data := by simp
  rw [← finish_expandAll fun n hn => finish_expand n (h n hn) rfl hs, evaluateNodes,
    ControlFlow.expandNodes, Lexical.expandAll_of_each fun n _ => Lexical.expand_eq _ _ n]
  rfl

/-- A loop whose body has names of its own and of the page side by side. -/
theorem evaluateNodes_loop :
    let body : List Node :=
      [.element "a" [.new "href" (.interpolated [.expression "x", .expression "y"])] [] false .unknown]
    let loop : Node := .loop "x" "xs" body .tag .unknown
    loop.OfKinds (· ≠ .island) ∧
      (evaluateNodes .strict [("y", .null)] "" [loop]).value =
        evaluateAll ⟨.strict, .controlFlow, ""⟩ [] ⟨[("y", .null)], []⟩ [loop] := by
  intro body loop
  have h : loop.OfKinds (· ≠ .island) := by simp [loop, body]
  exact ⟨h, evaluateNodes_eq_evaluateAll _ _ _ _ (by simp [h])⟩

end Passes

end Evaluation

end PageCompiler
