import Mathlib
import PageCompiler.Proofs.Component.PropBindings
import PageCompiler.Proofs.References

/-!
What the attributes of a usage say about one prop, and what the frame of the instance then holds for
it. Main statement: a text that is given for a prop with a default is bound alike whether it is
written out or is the value of an expression, unless it does not fit; then the default is bound in
the first case, and null in the other.
-/

namespace PageCompiler

open Json (Value)

namespace Component

section Given

variable {site : Site} {d : Definition} {p : PropDefinition} {as : List Attribute} {g : Given}

theorem prop?_of_mem (hd : Props.AreTyped d.props) (hp : p ∈ d.props) :
    d.prop? p.name = some p := by
  obtain ⟨before, after, hsplit⟩ := List.append_of_mem hp
  have hnodup := hd.nodup
  rw [hsplit, List.map_append, List.map_cons] at hnodup
  refine List.find?_eq_some_iff_append.2 ⟨by simp, before, after, hsplit, fun q hq => ?_⟩
  have hne := (List.nodup_append.1 hnodup).2.2 q.name (List.mem_map_of_mem hq) p.name (by simp)
  simpa using hne

/-- What an attribute adds to what those behind it give. -/
def adds (d : Definition) (a : Attribute) : Except String (Given → Given) :=
  if a.name = "slot" then .ok id
  else
    match d.prop? a.name with
    | none => .ok fun g => { g with others := a :: g.others }
    | some p =>
      match propValue p.type a.value with
      | .ok value => .ok fun g => { g with bindings := ⟨p.name, value⟩ :: g.bindings }
      | .error reason =>
        if p.isRequired then
          .error ("Prop `" ++ p.name ++ "` of <" ++ d.name ++ ">: " ++ reason ++ ".")
        else .ok id

theorem value_givenBy_cons (a : Attribute) (as : List Attribute) :
    (givenBy site d (a :: as)).value =
      (adds d a).bind fun add => (givenBy site d as).value.map add := by
  have hid : ((givenBy site d as).value.map id) = (givenBy site d as).value := by
    cases (givenBy site d as).value <;> rfl
  by_cases hslot : a.name = "slot"
  · simp [givenBy, adds, hslot, Except.bind, hid]
  cases hp : d.prop? a.name with
  | none =>
    simp [givenBy, adds, hslot, hp, Except.bind]
    rfl
  | some p =>
    cases hv : propValue p.type a.value with
    | ok value =>
      simp [givenBy, adds, hslot, hp, hv, Except.bind]
      rfl
    | error reason =>
      by_cases hr : p.isRequired
      · simp [givenBy, adds, hslot, hp, hv, hr, Except.bind]
        rfl
      · simp [givenBy, adds, hslot, hp, hv, hr, Except.bind, Expanded.value_bind, hid]

/-- The binding that an attribute of the prop's name makes, if its value fits. The attribute `slot`
says where content goes and makes none. -/
def bindingBy? (p : PropDefinition) (a : Attribute) : Option PropBinding :=
  if p.name = "slot" then none
  else (propValue p.type a.value).toOption.map fun value => ⟨p.name, value⟩

theorem bindingBy?_name {a : Attribute} {b : PropBinding} (h : bindingBy? p a = some b) :
    b.name = p.name := by
  obtain ⟨-, h⟩ := Option.ite_none_left_eq_some.1 h
  obtain ⟨value, -, rfl⟩ := Option.map_eq_some_iff.1 h
  rfl

def Given.without (name : String) (g : Given) : Given :=
  { g with bindings := g.bindings.filter fun b => b.name ≠ name }

section Adds

variable {a : Attribute} {add : Given → Given}

theorem adds_of_prop (hp : d.prop? p.name = some p) (ha : a.name = p.name)
    (h : adds d a = .ok add) (g : Given) :
    add g = { g with bindings := (bindingBy? p a).toList ++ g.bindings } := by
  by_cases hslot : p.name = "slot"
  · simp only [adds, ha, if_pos hslot] at h
    cases h
    simp [bindingBy?, hslot]
  simp only [adds, ha, if_neg hslot, hp] at h
  cases hv : propValue p.type a.value with
  | ok value =>
    rw [hv] at h
    cases h
    simp [bindingBy?, hslot, hv, Except.toOption]
  | error reason =>
    simp only [hv] at h
    split at h
    · cases h
    · cases h
      simp [bindingBy?, hslot, hv, Except.toOption]

/-- An attribute of a prop that is not required can only make a binding. -/
theorem adds_of_optional (hp : d.prop? p.name = some p) (hrequired : p.isRequired = false)
    (ha : a.name = p.name) :
    ∃ add, adds d a = .ok add ∧ ∀ g, (add g).without p.name = g.without p.name := by
  by_cases hslot : p.name = "slot"
  · exact ⟨id, by simp [adds, ha, hslot], fun _ => rfl⟩
  cases hv : propValue p.type a.value with
  | ok value =>
    exact ⟨fun g => { g with bindings := ⟨p.name, value⟩ :: g.bindings },
      by simp [adds, ha, hslot, hp, hv], fun g => by simp [Given.without]⟩
  | error reason => exact ⟨id, by simp [adds, ha, hslot, hp, hv, hrequired], fun _ => rfl⟩

theorem adds_of_ne (ha : a.name ≠ p.name) (h : adds d a = .ok add) (g : Given) :
    (add g).bindings.filter (fun b => b.name = p.name) =
        g.bindings.filter (fun b => b.name = p.name) ∧
      (add g).without p.name = add (g.without p.name) := by
  unfold adds at h
  split at h
  · cases h
    exact ⟨rfl, rfl⟩
  split at h
  · cases h
    exact ⟨rfl, rfl⟩
  next q hq =>
  have hname : q.name = a.name := by simpa using List.find?_some hq
  split at h
  · cases h
    simp [Given.without, hname, ha]
  · split at h
    · cases h
    · cases h
      exact ⟨rfl, rfl⟩

end Adds

theorem exists_of_given_cons {a : Attribute} (h : (givenBy site d (a :: as)).value = .ok g) :
    ∃ add rest, adds d a = .ok add ∧ (givenBy site d as).value = .ok rest ∧ g = add rest := by
  rw [value_givenBy_cons] at h
  cases hadd : adds d a with
  | error m =>
    rw [hadd] at h
    cases h
  | ok add =>
    cases hrest : (givenBy site d as).value with
    | error m =>
      rw [hadd, hrest] at h
      cases h
    | ok rest =>
      rw [hadd, hrest] at h
      cases h
      exact ⟨add, rest, rfl, rfl, rfl⟩

/-- The bindings of a prop come from the attributes of its name. -/
theorem bindings_of_prop (hp : d.prop? p.name = some p)
    (h : (givenBy site d as).value = .ok g) :
    g.bindings.filter (fun b => b.name = p.name) =
      (as.filter fun a => a.name = p.name).filterMap (bindingBy? p) := by
  induction as generalizing g with
  | nil =>
    cases h
    rfl
  | cons a as ih =>
    obtain ⟨add, rest, hadd, hrest, rfl⟩ := exists_of_given_cons h
    by_cases ha : a.name = p.name
    · rw [adds_of_prop hp ha hadd, List.filter_cons_of_pos (by simpa using ha), List.filter_append,
        ih hrest, List.filterMap_cons]
      cases hb : bindingBy? p a with
      | none => rfl
      | some b => simp [bindingBy?_name hb]
    · rw [(adds_of_ne ha hadd rest).1, List.filter_cons_of_neg (by simpa using ha), ih hrest]

theorem bindings_of_only {a : Attribute} (hp : d.prop? p.name = some p)
    (h : (givenBy site d as).value = .ok g)
    (ha : (as.filter fun a => a.name = p.name) = [a]) :
    g.bindings.filter (fun b => b.name = p.name) = (bindingBy? p a).toList := by
  rw [bindings_of_prop hp h, ha, List.filterMap_cons]
  cases bindingBy? p a <;> rfl

/-- Attributes of a prop that is not required make its bindings and nothing else. -/
theorem givenBy_without (hp : d.prop? p.name = some p) (hrequired : p.isRequired = false)
    (as : List Attribute) :
    (givenBy site d as).value.map (Given.without p.name) =
      (givenBy site d (as.filter fun a => a.name ≠ p.name)).value := by
  induction as with
  | nil => rfl
  | cons a as ih =>
    by_cases ha : a.name = p.name
    · obtain ⟨add, hadd, hwithout⟩ := adds_of_optional hp hrequired ha
      rw [List.filter_cons_of_neg (by simpa using ha), ← ih, value_givenBy_cons, hadd]
      cases (givenBy site d as).value with
      | error m => rfl
      | ok rest => exact congrArg Except.ok (hwithout rest)
    · rw [List.filter_cons_of_pos (by simpa using ha), value_givenBy_cons, value_givenBy_cons, ← ih]
      cases hadd : adds d a with
      | error m => rfl
      | ok add =>
        cases (givenBy site d as).value with
        | error m => rfl
        | ok rest => exact congrArg Except.ok (adds_of_ne ha hadd rest).2

end Given

section Complete

variable {d : Definition} {p : PropDefinition} {bs : List PropBinding}

theorem missing_without (hd : Props.AreTyped d.props) (hp : p ∈ d.props)
    (hrequired : p.isRequired = false) :
    missing d (bs.filter fun b => b.name ≠ p.name) = missing d bs := by
  refine List.filter_congr fun q hq => ?_
  by_cases hname : q.name = p.name
  · obtain rfl : q = p := List.inj_on_of_nodup_map hd.nodup hq hp hname
    simp [hrequired]
  · have hgiven : isGiven (bs.filter fun b => b.name ≠ p.name) q = isGiven bs q := by
      rw [Bool.eq_iff_iff]
      simp only [isGiven, List.any_eq_true, List.mem_filter, decide_eq_true_eq]
      constructor
      · rintro ⟨b, ⟨hb, -⟩, hbq⟩
        exact ⟨b, hb, hbq⟩
      · rintro ⟨b, hb, hbq⟩
        exact ⟨b, ⟨hb, hbq ▸ hname⟩, hbq⟩
    rw [hgiven]

theorem timesBound_eq_length (name : String) (bs : List PropBinding) :
    timesBound name bs = (bs.filter fun b => b.name = name).length := by
  rw [timesBound, List.count, List.countP_map, List.countP_eq_length_filter]
  rfl

/-- Putting the bindings in order does not change the order of those of one prop. -/
theorem filter_complete (d : Definition) (bs : List PropBinding) (name : String) :
    (complete d bs).filter (fun b => b.name = name) =
      bs.filter (fun b => b.name = name) ++ (absentIn d bs).filter fun b => b.name = name := by
  rw [← List.filter_append]
  have hperm := (complete_perm : (complete d bs).Perm _).filter fun b => b.name = name
  refine (List.Sublist.eq_of_length ?_ hperm.length_eq.symm).symm
  have hsub : ((bs ++ absentIn d bs).filter (fun b => b.name = name)).Sublist (complete d bs) := by
    refine List.sublist_mergeSort ?_ ?_ ?_ List.filter_sublist
    · simp only [decide_eq_true_eq]
      exact fun _ _ _ => le_trans
    · simp only [Bool.or_eq_true, decide_eq_true_eq]
      exact fun _ _ => le_total _ _
    · refine List.pairwise_of_forall_mem_list fun b hb c hc => ?_
      rw [List.mem_filter, decide_eq_true_eq] at hb hc
      simp [hb.2, hc.2]
  simpa using hsub.filter fun b => b.name = name

theorem complete_of_given (hd : Props.AreTyped d.props)
    (h : bs.filter (fun b => b.name = p.name) ≠ []) :
    (complete d bs).filter (fun b => b.name = p.name) = bs.filter fun b => b.name = p.name := by
  have habsent := (timesBound_absentIn hd bs p.name).2
  rw [timesBound_eq_length, timesBound_eq_length, List.length_pos_iff, List.length_eq_zero_iff]
    at habsent
  rw [filter_complete, habsent h, List.append_nil]

/-- Where the prop is not given, its binding says what is bound without it. -/
theorem complete_of_absent (hd : Props.AreTyped d.props) (hp : p ∈ d.props) {b : PropBinding}
    (hb : absent? p = some b) (h : bs.filter (fun b => b.name = p.name) = []) :
    (complete d bs).filter (fun b => b.name = p.name) = [b] := by
  have hnot : ¬isGiven bs p := by simpa [isGiven] using h
  have hmem : b ∈ (absentIn d bs).filter fun b => b.name = p.name :=
    List.mem_filter.2 ⟨mem_absentIn.2 ⟨p, hp, hnot, hb⟩,
      decide_eq_true (absent?_isFor (hd.typed p hp) hb).1⟩
  have hone := (timesBound_absentIn hd bs p.name).1
  rw [timesBound_eq_length] at hone
  obtain ⟨c, hc⟩ := List.length_eq_one_iff.1 (le_antisymm hone (List.length_pos_of_mem hmem))
  obtain rfl : b = c := List.mem_singleton.1 (hc ▸ hmem)
  rw [filter_complete, h, hc, List.nil_append]

theorem absent?_of_default {v : Value} (h : p.default = some v) :
    absent? p = some ⟨p.name, .resolved v⟩ := by
  rw [absent?, h]

end Complete

section Usage

variable (setting : Setting) (inside : Option ExpandBody) (site : Site) {d : Definition}
  {p : PropDefinition} {as as' : List Attribute} (content : Expanded SlotContent) {name : String}
  (l : Location)

theorem value_instantiate (expandBody : ExpandBody) (d : Definition) (g : Given) :
    (instantiate expandBody site d g content l).value =
      .isolated d.name (complete d g.bindings)
        (expandBody ⟨site.stack ++ [d.name], d.path⟩
          (forward site d l g.others (Slots.fillBody d.nodes content.value)).value).value l :=
  rfl

/-- Results that are the same up to a part of the value. -/
theorem exists_of_map_eq_map {x y : Except String Given} {f : Given → Given}
    (h : x.map f = y.map f) :
    (∃ m, x = .error m ∧ y = .error m) ∨ ∃ g g', x = .ok g ∧ y = .ok g' ∧ f g = f g' := by
  cases x with
  | error m =>
    cases y with
    | error m' => exact .inl ⟨m, rfl, congrArg Except.error (Except.error.inj h).symm⟩
    | ok g' => cases h
  | ok g =>
    cases y with
    | error m' => cases h
    | ok g' => exact .inr ⟨g, g', rfl, rfl, Except.ok.inj h⟩

/-- Usages that differ in what they say of a prop that is not required are the same error, or they
are instances that differ in the bindings of this prop. -/
theorem useName_of_same_others (hd : Props.AreTyped d.props) (hp : p ∈ d.props)
    (hrequired : p.isRequired = false) (hfound : setting.registry.component? name = some d)
    (hsame : (as.filter fun a => a.name ≠ p.name) = as'.filter fun a => a.name ≠ p.name) :
    let use (as : List Attribute) := (useName setting inside site name as content l).value
    (∃ problem message, use as = .error problem message l ∧ use as' = .error problem message l) ∨
      ∃ g g' children, (givenBy site d as).value = .ok g ∧ (givenBy site d as').value = .ok g' ∧
        use as = .isolated d.name (complete d g.bindings) children l ∧
        use as' = .isolated d.name (complete d g'.bindings) children l := by
  dsimp only
  rw [useName, useName, hfound]
  dsimp only
  split
  · exact .inl ⟨_, _, rfl, rfl⟩
  split
  · exact .inl ⟨_, _, rfl, rfl⟩
  next expandBody =>
  have hprop := prop?_of_mem hd hp
  have hwithout := (givenBy_without hprop hrequired as).trans
    ((congrArg (fun as => (givenBy site d as).value) hsame).trans
      (givenBy_without hprop hrequired as').symm)
  simp only [useDefinition, Expanded.value_bind]
  obtain ⟨m, hg, hg'⟩ | ⟨g, g', hg, hg', hwithout⟩ := exists_of_map_eq_map hwithout
  · rw [hg, hg']
    exact .inl ⟨_, _, rfl, rfl⟩
  obtain ⟨hbindings, hothers⟩ := Given.mk.inj hwithout
  have hmissing : missing d g'.bindings = missing d g.bindings := by
    rw [← missing_without hd hp hrequired, ← hbindings, missing_without hd hp hrequired]
  rw [hg, hg']
  dsimp only
  rw [hmissing]
  split
  · refine .inr ⟨g, g', _, rfl, rfl, value_instantiate .., ?_⟩
    rw [value_instantiate, hothers]
  · exact .inl ⟨_, _, rfl, rfl⟩

end Usage

end Component

namespace ControlFlow

theorem boundProp_fst (r : Resolver) (s : Scope) (component : String) (l : Location)
    (b : PropBinding) : (boundProp r s component l b).value.1 = b.name := by
  unfold boundProp
  split
  · rfl
  · simp only [Reported.value_bind]
    split <;> rfl

/-- What the body of an instance finds under a name, where the instance is used in `s`. -/
def bound? (r : Resolver) (s : Scope) (name : String) : Node → Option Value
  | .isolated component bindings _ l => (propFrame r s component bindings l).local? name
  | _ => none

/-- A value that is left for later is what comes of it, as a value of the type, or else null. -/
theorem boundProp_deferred (r : Resolver) (s : Scope) (component : String) (l : Location)
    {name : String} {written : AttributeValue} {type : PropType} {v : Value}
    (h : (writtenValue r s name l written).value = v) :
    (boundProp r s component l ⟨name, .deferred written type⟩).value.2 =
      (type.ofValue v).toOption.getD .null := by
  rw [boundProp]
  simp only [Reported.value_bind, h]
  cases type.ofValue v <;> rfl

theorem value_writtenValue_expression (r : Resolver) {s : Scope} {prop code : String} {l : Location}
    {e : Expr} {v : Value} (hparse : Expr.parse code = .ok e) (heval : e.evaluate s.get? = .ok v) :
    (writtenValue r s prop l (.expression code)).value = v := by
  simp [writtenValue, hparse, heval]

/-- Of several bindings of a name the last counts. -/
theorem local?_of_last (r : Resolver) (s : Scope) (component : String)
    {bindings : List PropBinding} (l : Location) {name : String} {b : PropBinding}
    (h : (bindings.filter fun b => b.name = name).getLast? = some b) :
    (propFrame r s component bindings l).local? name =
      some (boundProp r s component l b).value.2 := by
  obtain ⟨others, hfilter⟩ := List.getLast?_eq_some_iff.1 h
  obtain ⟨before, rest, rfl, -, hrest⟩ := List.filter_eq_append_iff.1 hfilter
  obtain ⟨between, after, rfl, -, hname, hafter⟩ := List.filter_eq_cons_iff.1 hrest
  have hname : b.name = name := by simpa using hname
  have hb : (boundProp r s component l b).value =
      (name, (boundProp r s component l b).value.2) := by
    rw [← hname, ← boundProp_fst r s component l b]
  rw [local?_propFrame, List.lookup_eq_some_iff]
  refine ⟨((after.map (boundProp r s component l)).map Reported.value).reverse,
    (((before ++ between).map (boundProp r s component l)).map Reported.value).reverse, ?_, ?_⟩
  · simp [← hb]
  · simp only [List.mem_reverse, List.mem_map, List.map_map]
    rintro _ ⟨c, hc, rfl⟩
    have hne : c.name ≠ name := by simpa using List.filter_eq_nil_iff.1 hafter c hc
    simpa [boundProp_fst] using hne.symm

section Bound

variable (r : Resolver) (s : Scope) (component : String) (children : List Node) (l : Location)
  {d : Definition} {p : PropDefinition} {bs : List PropBinding} (hd : Props.AreTyped d.props)

include hd

theorem bound?_of_given {b : PropBinding}
    (h : (bs.filter fun b => b.name = p.name).getLast? = some b) :
    bound? r s p.name (.isolated component (Component.complete d bs) children l) =
      some (boundProp r s component l b).value.2 := by
  have hne : (bs.filter fun b => b.name = p.name) ≠ [] := by
    intro hnil
    simp [hnil] at h
  exact local?_of_last r s component l (by rwa [Component.complete_of_given hd hne])

theorem bound?_of_absent (hp : p ∈ d.props) {v : Value} (hdefault : p.default = some v)
    (h : bs.filter (fun b => b.name = p.name) = []) :
    bound? r s p.name (.isolated component (Component.complete d bs) children l) = some v := by
  have hone := Component.complete_of_absent hd hp (Component.absent?_of_default hdefault) h
  exact local?_of_last r s component l (by rw [hone]; rfl)

/-- What is written out for a prop is bound if it fits, and else the default is. -/
theorem bound?_of_static (hp : p ∈ d.props) {v : Value} (hdefault : p.default = some v)
    {raw : String} {la : Location} (h : bs.filter (fun b => b.name = p.name) =
      (Component.bindingBy? p ⟨p.name, .static raw, la⟩).toList) :
    bound? r s p.name (.isolated component (Component.complete d bs) children l) =
      some (if p.name = "slot" then v
        else (p.type.ofText (Text.unescapeHtml raw)).toOption.getD v) := by
  by_cases hslot : p.name = "slot"
  · rw [Component.bindingBy?, if_pos hslot] at h
    rw [if_pos hslot]
    exact bound?_of_absent r s component children l hd hp hdefault h
  rw [Component.bindingBy?, if_neg hslot, Component.propValue] at h
  rw [if_neg hslot]
  cases hw : p.type.ofText (Text.unescapeHtml raw) with
  | error m =>
    rw [hw] at h
    exact bound?_of_absent r s component children l hd hp hdefault h
  | ok w =>
    have hlast : (bs.filter fun b => b.name = p.name).getLast? = some ⟨p.name, .resolved w⟩ := by
      rw [h, hw]
      rfl
    exact bound?_of_given r s component children l hd hlast

/-- What an expression gives for a prop is bound if it fits, and else null is. -/
theorem bound?_of_expression (hp : p ∈ d.props) {v w : Value} (hdefault : p.default = some v)
    {code : String} {la : Location} (h : bs.filter (fun b => b.name = p.name) =
      (Component.bindingBy? p ⟨p.name, .expression code, la⟩).toList) {e : Expr}
    (hparse : Expr.parse code = .ok e) (heval : e.evaluate s.get? = .ok w) :
    bound? r s p.name (.isolated component (Component.complete d bs) children l) =
      some (if p.name = "slot" then v else (p.type.ofValue w).toOption.getD .null) := by
  by_cases hslot : p.name = "slot"
  · rw [Component.bindingBy?, if_pos hslot] at h
    rw [if_pos hslot]
    exact bound?_of_absent r s component children l hd hp hdefault h
  rw [Component.bindingBy?, if_neg hslot] at h
  have hlast : (bs.filter fun b => b.name = p.name).getLast? =
      some ⟨p.name, .deferred (.expression code) p.type⟩ := by
    rw [h]
    rfl
  rw [if_neg hslot, bound?_of_given r s component children l hd hlast,
    boundProp_deferred r s component l (value_writtenValue_expression r hparse heval)]

end Bound

end ControlFlow

namespace PropType

theorem ofValue_string {type : PropType} (h : type ≠ .any) (text : String) :
    type.ofValue (.string text) = type.ofText text := by
  cases type with
  | any => exact absurd rfl h
  | _ => rfl

end PropType

namespace Component

/-- A text for a prop with a default is given in two ways: written out, or as the value of an
expression. The usages are the same error, or they are instances with the same content. What fits
is bound alike; of what does not, the expression makes null and not the default. -/
theorem useName_givenEitherWay (known : ParseTable) (documents : List Document) (maxDepth : Nat)
    (inside : Option ExpandBody) (site : Site) (name : String) (before after : List Attribute)
    (content : Expanded SlotContent) (l : Location) {d : Definition} {p : PropDefinition}
    {v : Value} (raw code : String) (la : Location)
    (hfound : (discover known documents).value.registry.component? name = some d)
    (hp : p ∈ d.props) (hdefault : p.default = some v)
    (honce : ∀ a ∈ before ++ after, a.name ≠ p.name) :
    let use (value : AttributeValue) :=
      (useName ⟨(discover known documents).value.registry, maxDepth⟩ inside site name
        (before ++ ⟨p.name, value, la⟩ :: after) content l).value
    (∃ problem message, use (.static raw) = .error problem message l ∧
      use (.expression code) = .error problem message l) ∨
    ∃ bindings bindings' children, use (.static raw) = .isolated d.name bindings children l ∧
      use (.expression code) = .isolated d.name bindings' children l ∧
      ∀ (r : Resolver) (s : Scope) (e : Expr), Expr.parse code = .ok e →
        e.evaluate s.get? = .ok (.string (Text.unescapeHtml raw)) →
        let bound (value : AttributeValue) := ControlFlow.bound? r s p.name (use value)
        if p.name = "slot" then bound (.static raw) = some v ∧ bound (.expression code) = some v
        else
          match p.type.ofText (Text.unescapeHtml raw) with
          | .ok w => bound (.static raw) = some w ∧ bound (.expression code) =
            some (if p.type = .any then .string (Text.unescapeHtml raw) else w)
          | .error _ => bound (.static raw) = some v ∧ bound (.expression code) = some .null := by
  have hd : Props.AreTyped d.props :=
    (discover_areTyped known documents).components d (Registry.component?_mem hfound)
  have hrequired : p.isRequired = false := by simp [PropDefinition.isRequired, hdefault]
  have hothers (value : AttributeValue) :
      ((before ++ ⟨p.name, value, la⟩ :: after).filter fun a => a.name ≠ p.name) =
        (before ++ after).filter fun a => a.name ≠ p.name := by
    simp
  have hown (value : AttributeValue) :
      ((before ++ ⟨p.name, value, la⟩ :: after).filter fun a => a.name = p.name) =
        [⟨p.name, value, la⟩] := by
    rw [List.forall_mem_append] at honce
    rw [List.filter_append, List.filter_cons_of_pos (by simp),
      List.filter_eq_nil_iff.2 (by simpa using honce.1),
      List.filter_eq_nil_iff.2 (by simpa using honce.2), List.nil_append]
  have hsame := (hothers (.static raw)).trans (hothers (.expression code)).symm
  obtain herror | ⟨g, g', children, hg, hg', huse, huse'⟩ :=
    useName_of_same_others ⟨(discover known documents).value.registry, maxDepth⟩ inside site content
      l hd hp hrequired hfound hsame
  · exact .inl herror
  refine .inr ⟨_, _, children, huse, huse', fun r s e hparse heval => ?_⟩
  have hprop := prop?_of_mem hd hp
  dsimp only at huse huse' ⊢
  rw [huse, huse',
    ControlFlow.bound?_of_static r s d.name children l hd hp hdefault
      (bindings_of_only hprop hg (hown _)),
    ControlFlow.bound?_of_expression r s d.name children l hd hp hdefault
      (bindings_of_only hprop hg' (hown _)) hparse heval]
  split
  · exact ⟨rfl, rfl⟩
  by_cases hany : p.type = .any
  · rw [hany]
    exact ⟨rfl, rfl⟩
  rw [PropType.ofValue_string hany]
  cases p.type.ofText (Text.unescapeHtml raw) with
  | ok w => exact ⟨rfl, by rw [if_neg hany]; rfl⟩
  | error m => exact ⟨rfl, rfl⟩

/-- A count that is no number, beside the default of one. -/
theorem useName_givenEitherWay_counter :
    let counter := Document.ofMarkup "Counter.ncl" "<n:props>start: i32 = 1</n:props><p></p>"
    let setting : Setting := ⟨(discover [] [counter]).value.registry, 8⟩
    let use (value : AttributeValue) := (useName setting (insideBody setting 8) ⟨[], "page.ncl"⟩
      "Counter" [.new "start" value] (pure ⟨[], []⟩) .unknown).value
    ∃ d p v, setting.registry.component? "Counter" = some d ∧ p ∈ d.props ∧ p.default = some v ∧
      ∀ r s, s.get? "many" = some (.string "many") →
        ControlFlow.bound? r s p.name (use (.static "many")) = some v ∧
        ControlFlow.bound? r s p.name (use (.expression "many")) = some .null := by
  have hparse : Expr.parse "many" = .ok (.ident "many") := by cbv
  intro counter setting use
  have hdeclared : ((setting.registry.component? "Counter").any fun d =>
      d.props.any fun p => p.name = "start" && p.type = .int && p.default.isSome) = true := by
    decide +kernel
  have hkind : (use (.static "many")).kind = .isolated := by decide +kernel
  cases hfound : setting.registry.component? "Counter" with
  | none => simp [hfound] at hdeclared
  | some d =>
    simp only [hfound, Option.any_some, List.any_eq_true, Bool.and_eq_true, decide_eq_true_eq,
      Option.isSome_iff_exists] at hdeclared
    obtain ⟨p, hp, ⟨hname, htype⟩, v, hv⟩ := hdeclared
    refine ⟨d, p, v, rfl, hp, hv, fun r s hmany => ?_⟩
    have huse := useName_givenEitherWay [] [counter] 8 (insideBody setting 8) ⟨[], "page.ncl"⟩
      "Counter" [] [] (pure ⟨[], []⟩) .unknown "many" "many" .unknown hfound hp hv
      (List.forall_mem_nil _)
    rw [hname] at huse ⊢
    obtain ⟨problem, message, herror, -⟩ | ⟨-, -, -, -, -, hbound⟩ := huse
    · cases hkind.symm.trans (congrArg Node.kind herror)
    · have hplain : Text.unescapeHtml "many" = "many" := by decide +kernel
      have hwrong : PropType.int.ofText "many" = .error (.notInteger "many") := rfl
      have hmany := hbound r s (.ident "many") hparse (by rw [hplain, Expr.evaluate, hmany])
      rw [if_neg (by decide), htype, hplain, hwrong] at hmany
      exact hmany

theorem useName_givenUnlike_counter :
    let counter := Document.ofMarkup "Counter.ncl" "<n:props>start: i32 = 1</n:props><p></p>"
    let setting : Setting := ⟨(discover [] [counter]).value.registry, 8⟩
    let use (value : AttributeValue) := (useName setting (insideBody setting 8) ⟨[], "page.ncl"⟩
      "Counter" [.new "start" value] (pure ⟨[], []⟩) .unknown).value
    let text (value : AttributeValue) := (ControlFlow.bound? ⟨.strict, .controlFlow, "page.ncl"⟩
      (.ofData [("many", .string "many")]) "start" (use value)).bind Value.scalarText?
    text (.static "many") = some "1" ∧ text (.expression "many") = some "" := by
  decide +kernel

end Component

end PageCompiler
