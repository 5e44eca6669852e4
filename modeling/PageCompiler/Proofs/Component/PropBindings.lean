import Mathlib
import PageCompiler.Component.Expand
import PageCompiler.Proofs.Component.Walk
import PageCompiler.Proofs.Lexical
import PageCompiler.Proofs.PropTypes

/-!
The props of a component instance. Main statement: a usage that becomes an instance binds the
declared props in the order of their declaration and nothing else, and wherever its body is expanded
each of them is null or has a value of its type.
-/

namespace PageCompiler

open Json (Value)

/-- What is known of the value by now is of the type. -/
inductive PropValue.Fits (type : PropType) : PropValue → Prop
  | resolved : type.Admits v → Fits type (.resolved v)
  | deferred : Fits type (.deferred written type)

/-- The binding is for a prop of `d`, and its value fits. -/
def PropBinding.IsFor (b : PropBinding) (p : PropDefinition) : Prop :=
  b.name = p.name ∧ b.value.Fits p.type

namespace Component

theorem propValue_fits {type : PropType} {written : AttributeValue} {v : PropValue}
    (h : propValue type written = .ok v) : v.Fits type := by
  cases written with
  | static text =>
    cases hv : type.ofText (Text.unescapeHtml text) with
    | error m => simp [propValue, hv] at h
    | ok w =>
      rw [propValue, hv] at h
      cases h
      exact .resolved (PropType.admits_ofText hv)
  | bare =>
    cases type with
    | bool =>
      cases h
      exact .resolved .bool
    | any =>
      cases h
      exact .resolved .any
    | string =>
      cases h
      exact .resolved .string
    | int | float => cases h
  | interpolated | expression =>
    cases h
    exact .deferred

section Given

variable {site : Site} {d : Definition} {as : List Attribute} {g : Given}

/-- How often the name is bound. -/
def timesBound (name : String) (bs : List PropBinding) : Nat := (bs.map PropBinding.name).count name

/-- How often the usage has an attribute of the name. -/
def timesWritten (name : String) (as : List Attribute) : Nat := (as.map Attribute.name).count name

theorem givenBy_bindings (h : (givenBy site d as).value = .ok g) :
    (∀ b ∈ g.bindings, ∃ p ∈ d.props, b.IsFor p) ∧
      ∀ name, timesBound name g.bindings ≤ timesWritten name as := by
  induction as generalizing g with
  | nil =>
    cases h
    exact ⟨List.forall_mem_nil _, fun _ => le_rfl⟩
  | cons a as ih =>
    have hmore {bs : List PropBinding} (h : ∀ name, timesBound name bs ≤ timesWritten name as)
        (name : String) : timesBound name bs ≤ timesWritten name (a :: as) :=
      (h name).trans (List.Sublist.count_le _ (List.sublist_cons_self _ _))
    rw [givenBy] at h
    split at h
    · exact ⟨(ih h).1, hmore (ih h).2⟩
    split at h
    · change Except.map _ (givenBy site d as).value = .ok g at h
      cases hr : (givenBy site d as).value with
      | error m =>
        rw [hr] at h
        cases h
      | ok others =>
        rw [hr] at h
        cases h
        exact ⟨(ih hr).1, hmore (ih hr).2⟩
    next p hp =>
    have hname : p.name = a.name := by simpa using List.find?_some hp
    split at h
    · next value hvalue =>
      change Except.map _ (givenBy site d as).value = .ok g at h
      cases hr : (givenBy site d as).value with
      | error m =>
        rw [hr] at h
        cases h
      | ok rest =>
        rw [hr] at h
        cases h
        obtain ⟨hrest, hcount⟩ := ih hr
        refine ⟨List.forall_mem_cons.2 ⟨?_, hrest⟩, fun name => ?_⟩
        · exact ⟨p, List.mem_of_find?_eq_some hp, rfl, propValue_fits hvalue⟩
        · simp only [timesBound, timesWritten, List.map_cons, List.count_cons, hname]
          exact Nat.add_le_add_right (hcount name) _
    · dsimp only at h
      split at h
      · cases h
      · exact ⟨(ih h).1, hmore (ih h).2⟩

end Given

/-- A list that is in the order of the distinct names `ps` is made of a run for each of them. -/
theorem eq_flatMap_replicate {ps ns : List String} (hps : ps.Nodup) (hmem : ∀ n ∈ ns, n ∈ ps)
    (hsorted : ns.Pairwise fun m n => ps.idxOf m ≤ ps.idxOf n) :
    ns = ps.flatMap fun p => List.replicate (ns.count p) p := by
  refine List.Perm.eq_of_pairwise ?_ hsorted ?_ ?_
  · intro m n hm _ hle hge
    exact (List.idxOf_inj (hmem m hm)).1 (le_antisymm hle hge)
  · refine List.pairwise_flatMap.2 ⟨fun p _ => List.pairwise_replicate.2 (.inr le_rfl), ?_⟩
    refine List.pairwise_iff_getElem.2 fun i j hi hj hij m hm n hn => ?_
    rw [List.eq_of_mem_replicate hm, List.eq_of_mem_replicate hn, hps.idxOf_getElem,
      hps.idxOf_getElem]
    exact hij.le
  · refine List.perm_iff_count.2 fun name => ?_
    rw [List.count_flatMap, List.sum_map_eq_nsmul_single name]
    · by_cases h : name ∈ ps
      · simp [hps.count, h]
      · simp [hps.count, h, List.count_eq_zero.2 (mt (hmem name) h)]
    · intro p hp _
      simp [List.count_replicate, hp]

section Complete

variable {d : Definition} {bs : List PropBinding}

/-- Where no prop is missing, each one that is not given gets one binding. -/
theorem absent?_isFor {p : PropDefinition} (hp : p.IsTyped) {b : PropBinding}
    (h : absent? p = some b) : b.IsFor p := by
  unfold absent? at h
  split at h
  · next v hv =>
    cases h
    exact ⟨rfl, .resolved (hp v hv)⟩
  · cases h
    exact ⟨rfl, .resolved .null⟩
  · cases h

theorem exists_absent? {p : PropDefinition} (h : p.isRequired = false) :
    ∃ b, absent? p = some b := by
  unfold absent?
  split
  · exact ⟨_, rfl⟩
  · exact ⟨_, rfl⟩
  · next hd ho => simp [PropDefinition.isRequired, hd, ho] at h

/-- The bindings of props that are not given. -/
def absentIn (d : Definition) (bs : List PropBinding) : List PropBinding :=
  (d.props.filter fun p => !isGiven bs p).filterMap absent?

theorem mem_absentIn {b : PropBinding} :
    b ∈ absentIn d bs ↔ ∃ p ∈ d.props, ¬isGiven bs p ∧ absent? p = some b := by
  simp [absentIn, and_assoc]

theorem isGiven_iff {p : PropDefinition} : isGiven bs p ↔ p.name ∈ bs.map PropBinding.name := by
  simp [isGiven]

theorem complete_perm : (complete d bs).Perm (bs ++ absentIn d bs) := List.mergeSort_perm _ _

theorem complete_sorted : ((complete d bs).map PropBinding.name).Pairwise fun m n =>
    (d.props.map PropDefinition.name).idxOf m ≤ (d.props.map PropDefinition.name).idxOf n := by
  have hposition (b : PropBinding) : (d.props.map PropDefinition.name).idxOf b.name =
      d.props.findIdx fun p => p.name = b.name := by
    rw [List.idxOf, List.findIdx_map]
    rfl
  rw [List.pairwise_map]
  simp only [hposition]
  refine (List.pairwise_mergeSort ?_ ?_ _).imp of_decide_eq_true
  · simp only [decide_eq_true_eq]
    exact fun _ _ _ => le_trans
  · simp only [Bool.or_eq_true, decide_eq_true_eq]
    exact fun _ _ => le_total _ _

/-- What is added for props that are not given is added once for each. -/
theorem timesBound_absentIn (hd : Props.AreTyped d.props) (bs : List PropBinding) (name : String) :
    timesBound name (absentIn d bs) ≤ 1 ∧
      (0 < timesBound name bs → timesBound name (absentIn d bs) = 0) := by
  have hname {b : PropBinding} {p : PropDefinition} (hp : p ∈ d.props) (h : absent? p = some b) :
      b.name = p.name := (absent?_isFor (hd.typed p hp) h).1
  constructor
  · have hnodup : ((absentIn d bs).map PropBinding.name).Nodup := by
      rw [absentIn, List.Nodup, List.pairwise_map, List.pairwise_filterMap]
      refine (List.pairwise_map.1 hd.nodup).filter _ |>.imp_of_mem fun hp hq hne b hb c hc => ?_
      rwa [hname (List.mem_of_mem_filter hp) hb, hname (List.mem_of_mem_filter hq) hc]
    exact List.nodup_iff_count_le_one.1 hnodup name
  · intro hbound
    refine List.count_eq_zero.2 fun hmem => ?_
    obtain ⟨b, hb, rfl⟩ := List.mem_map.1 hmem
    obtain ⟨p, hp, hnot, habsent⟩ := mem_absentIn.1 hb
    rw [isGiven_iff, ← hname hp habsent] at hnot
    exact hnot (List.count_pos_iff.1 hbound)

/-- Each declared prop has bindings that fit its type, in the order of the declarations. -/
structure Binds (d : Definition) (bs : List PropBinding) : Prop where
  inOrder : bs.map PropBinding.name =
    d.props.flatMap fun p => List.replicate (timesBound p.name bs) p.name
  timesBound_pos : ∀ p ∈ d.props, 0 < timesBound p.name bs
  fits : ∀ b ∈ bs, ∃ p ∈ d.props, b.IsFor p

theorem timesBound_complete (name : String) :
    timesBound name (complete d bs) = timesBound name bs + timesBound name (absentIn d bs) := by
  rw [timesBound, (complete_perm.map _).count_eq, List.map_append, List.count_append]
  rfl

theorem complete_binds (hd : Props.AreTyped d.props) (hbs : ∀ b ∈ bs, ∃ p ∈ d.props, b.IsFor p)
    (hm : missing d bs = []) : Binds d (complete d bs) := by
  have hfits : ∀ b ∈ complete d bs, ∃ p ∈ d.props, b.IsFor p := by
    intro b hb
    obtain hb | hb := List.mem_append.1 (complete_perm.mem_iff.1 hb)
    · exact hbs b hb
    · obtain ⟨p, hp, -, habsent⟩ := mem_absentIn.1 hb
      exact ⟨p, hp, absent?_isFor (hd.typed p hp) habsent⟩
  refine ⟨?_, fun p hp => ?_, hfits⟩
  · have hmem : ∀ n ∈ (complete d bs).map PropBinding.name,
        n ∈ d.props.map PropDefinition.name := by
      refine List.forall_mem_map.2 fun b hb => ?_
      obtain ⟨p, hp, hname, -⟩ := hfits b hb
      exact hname ▸ List.mem_map_of_mem hp
    exact (eq_flatMap_replicate hd.nodup hmem complete_sorted).trans (List.flatMap_map _ _ _)
  · rw [timesBound_complete]
    by_cases hgiven : isGiven bs p
    · exact Nat.add_pos_left (List.count_pos_iff.2 (isGiven_iff.1 hgiven)) _
    · have hrequired : p.isRequired = false := by
        simpa [hgiven] using List.filter_eq_nil_iff.1 hm p hp
      obtain ⟨b, hb⟩ := exists_absent? hrequired
      have hname : b.name = p.name := (absent?_isFor (hd.typed p hp) hb).1
      refine Nat.add_pos_right _ (List.count_pos_iff.2 ?_)
      exact hname ▸ List.mem_map_of_mem (mem_absentIn.2 ⟨p, hp, hgiven, hb⟩)

end Complete

section Usage

variable {setting : Setting} {inside : Option ExpandBody} {site : Site} {as : List Attribute}
  {content : Expanded SlotContent} {name component : String} {bindings : List PropBinding}
  {children : List Node} {l l' : Location}

/-- Only from its attributes, with no prop missing, a usage becomes an instance. -/
theorem useDefinition_isolated {expandBody : ExpandBody} {d : Definition}
    (h : (useDefinition expandBody site d as content l).value =
      .isolated component bindings children l') :
    ∃ g, (givenBy site d as).value = .ok g ∧ missing d g.bindings = [] ∧ component = d.name ∧
      bindings = complete d g.bindings := by
  cases hg : (givenBy site d as).value with
  | error message =>
    simp only [useDefinition, Expanded.value_bind, hg] at h
    cases h
  | ok g =>
    simp only [useDefinition, Expanded.value_bind, hg] at h
    split at h
    · next hnames =>
      cases h
      exact ⟨g, rfl, by simpa using hnames, rfl, rfl⟩
    · cases h

theorem useName_isolated (h : (useName setting inside site name as content l).value =
      .isolated component bindings children l') :
    ∃ d g, setting.registry.component? name = some d ∧ (givenBy site d as).value = .ok g ∧
      missing d g.bindings = [] ∧ component = d.name ∧ bindings = complete d g.bindings := by
  rw [useName] at h
  split at h
  · cases h
  · next d hd =>
    dsimp only at h
    split at h
    · cases h
    · split at h
      · cases h
      · obtain ⟨g, hg⟩ := useDefinition_isolated h
        exact ⟨d, g, hd, hg⟩

end Usage

end Component

namespace ControlFlow

/-- What comes out for a prop is null or of its type, however it is written. -/
theorem boundProp_admits (r : Resolver) (s : Scope) (component : String) (l : Location)
    {b : PropBinding} {type : PropType} (h : b.value.Fits type) :
    ∃ v, (boundProp r s component l b).value = (b.name, v) ∧ type.Admits v := by
  obtain ⟨name, value⟩ := b
  cases h with
  | resolved hv => exact ⟨_, rfl, hv⟩
  | @deferred written =>
    rw [boundProp]
    simp only [Reported.value_bind]
    cases hw : type.ofValue (writtenValue r s name l written).value with
    | ok v => exact ⟨v, rfl, PropType.admits_ofValue hw⟩
    | error m => exact ⟨.null, rfl, .null⟩

/-- The frame in which the body of an instance is expanded. -/
def propFrame (r : Resolver) (s : Scope) (component : String) (bindings : List PropBinding)
    (l : Location) : Scope :=
  instanceFrame s (Reported.all (bindings.map (boundProp r s component l))).value

theorem expand_isolated (r : Resolver) (s : Scope) (component : String)
    (bindings : List PropBinding) (children : List Node) (l : Location) :
    (expand r s (.isolated component bindings children l)).value =
      (expandAll r (propFrame r s component bindings l) children).value :=
  rfl

theorem local?_propFrame (r : Resolver) (s : Scope) (component : String)
    (bindings : List PropBinding) (l : Location) (name : String) :
    (propFrame r s component bindings l).local? name =
      ((bindings.map (boundProp r s component l)).map Reported.value).reverse.lookup name := by
  rw [propFrame, Scope.instanceFrame_eq]
  rfl

section PropFrame

variable (r : Resolver) (s : Scope) (component : String) {d : Definition}
  {bindings : List PropBinding} (l : Location)

theorem of_local?_propFrame (hfits : ∀ b ∈ bindings, ∃ p ∈ d.props, b.IsFor p) {name : String}
    {v : Value} (h : (propFrame r s component bindings l).local? name = some v) :
    ∃ p ∈ d.props, p.name = name ∧ p.type.Admits v := by
  rw [local?_propFrame] at h
  obtain ⟨before, after, hsplit, -⟩ := List.lookup_eq_some_iff.1 h
  have hmem : (name, v) ∈ (bindings.map (boundProp r s component l)).map Reported.value :=
    List.mem_reverse.1 (hsplit ▸ List.mem_append_right _ List.mem_cons_self)
  rw [List.map_map] at hmem
  obtain ⟨b, hb, hvalue⟩ := List.mem_map.1 hmem
  obtain ⟨p, hp, hname, hfit⟩ := hfits b hb
  obtain ⟨w, hw, htyped⟩ := boundProp_admits r s component l hfit
  obtain ⟨rfl, rfl⟩ := Prod.mk.inj (hw.symm.trans hvalue)
  exact ⟨p, hp, hname.symm, htyped⟩

theorem exists_local?_propFrame (hfits : ∀ b ∈ bindings, ∃ p ∈ d.props, b.IsFor p)
    {b : PropBinding} (hb : b ∈ bindings) :
    ∃ v, (propFrame r s component bindings l).local? b.name = some v := by
  obtain ⟨p, -, -, hfit⟩ := hfits b hb
  obtain ⟨v, hv, -⟩ := boundProp_admits r s component l hfit
  rw [local?_propFrame, ← Option.isSome_iff_exists, ← Option.ne_none_iff_isSome, Ne,
    List.lookup_eq_none_iff]
  intro hnone
  have hmem : (b.name, v) ∈ (bindings.map (boundProp r s component l)).map Reported.value :=
    List.mem_map.2 ⟨_, List.mem_map_of_mem hb, hv⟩
  simpa using hnone _ (List.mem_reverse.2 hmem)

/-- Each declared prop has a value of its type, and no other name is local. -/
theorem propFrame_admits (hd : Props.AreTyped d.props) (hb : Component.Binds d bindings) :
    (∀ p ∈ d.props, ∃ v, (propFrame r s component bindings l).local? p.name = some v ∧
      p.type.Admits v) ∧
    ∀ name, (propFrame r s component bindings l).isLocal name →
      name ∈ d.props.map PropDefinition.name := by
  refine ⟨fun p hp => ?_, fun name hlocal => ?_⟩
  · obtain ⟨b, hmem, hname⟩ := List.mem_map.1 (List.count_pos_iff.1 (hb.timesBound_pos p hp))
    obtain ⟨v, hv⟩ := exists_local?_propFrame r s component l hb.fits hmem
    rw [hname] at hv
    obtain ⟨q, hq, hqname, htyped⟩ := of_local?_propFrame r s component l hb.fits hv
    obtain rfl : q = p := List.inj_on_of_nodup_map hd.nodup hq hp hqname
    exact ⟨v, hv, htyped⟩
  · obtain ⟨v, hv⟩ := Option.isSome_iff_exists.1 hlocal
    obtain ⟨p, hp, rfl, -⟩ := of_local?_propFrame r s component l hb.fits hv
    exact List.mem_map_of_mem hp

end PropFrame

end ControlFlow

namespace Component

/-- A usage that becomes an instance binds the declared props, each of them in its turn and once,
unless an attribute is repeated. In any scope its body sees each of them as null or as a value of
its type. -/
theorem useName_bindsProps (known : ParseTable) (documents : List Document) (maxDepth : Nat)
    (inside : Option ExpandBody) (site : Site) (name : String) (as : List Attribute)
    (content : Expanded SlotContent) (l : Location) {component : String}
    {bindings : List PropBinding} {children : List Node} {l' : Location}
    (h : (useName ⟨(discover known documents).value.registry, maxDepth⟩ inside site name as content
      l).value = .isolated component bindings children l') :
    ∃ d, (discover known documents).value.registry.component? name = some d ∧ component = d.name ∧
      bindings.map PropBinding.name =
        d.props.flatMap (fun p => List.replicate (timesBound p.name bindings) p.name) ∧
      (∀ p ∈ d.props, 1 ≤ timesBound p.name bindings ∧
        timesBound p.name bindings ≤ max 1 (timesWritten p.name as)) ∧
      ∀ (r : Resolver) (s : Scope),
        let frame := ControlFlow.propFrame r s component bindings l'
        (ControlFlow.expand r s (.isolated component bindings children l')).value =
          (ControlFlow.expandAll r frame children).value ∧
        (∀ p ∈ d.props, ∃ v, frame.local? p.name = some v ∧ p.type.Admits v) ∧
        ∀ name, frame.isLocal name → name ∈ d.props.map PropDefinition.name := by
  obtain ⟨d, g, hfound, hg, hmissing, rfl, rfl⟩ := useName_isolated h
  obtain ⟨hgiven, hcount⟩ := givenBy_bindings hg
  have hd : Props.AreTyped d.props :=
    (discover_areTyped known documents).components d (Registry.component?_mem hfound)
  have hb : Binds d (complete d g.bindings) := complete_binds hd hgiven hmissing
  refine ⟨d, hfound, rfl, hb.inOrder, fun p hp => ⟨hb.timesBound_pos p hp, ?_⟩, fun r s => ?_⟩
  · obtain ⟨hone, hzero⟩ := timesBound_absentIn hd g.bindings p.name
    have hwritten := hcount p.name
    rw [timesBound_complete]
    omega
  · exact ⟨rfl, ControlFlow.propFrame_admits r s _ l' hd hb⟩

theorem useName_bindsProps_card :
    let card := Document.ofMarkup "Card.ncl"
      "<n:props>title: String\ncount: i32 = 1</n:props><p></p>"
    let setting : Setting := ⟨(discover [] [card]).value.registry, 8⟩
    let r := useName setting (insideBody setting 8) ⟨[], "page.ncl"⟩ "Card"
      [.new "title" (.static "x"), .new "title" (.static "y")] (pure ⟨[], []⟩) .unknown
    ∃ d component bindings children l, r.value = .isolated component bindings children l ∧
      setting.registry.component? "Card" = some d ∧
      ∀ (m : Resolver) (s : Scope), ∀ p ∈ d.props,
        ∃ v, (ControlFlow.propFrame m s component bindings l).local? p.name = some v ∧
          p.type.Admits v := by
  intro card setting r
  have hkind : r.value.kind = .isolated := by decide +kernel
  obtain ⟨component, bindings, children, l, hv⟩ : ∃ component bindings children l,
      r.value = .isolated component bindings children l := by
    cases hr : r.value with
    | isolated => exact ⟨_, _, _, _, rfl⟩
    | _ => simp [hr] at hkind
  obtain ⟨d, hd, -, -, -, hframe⟩ := useName_bindsProps [] [card] 8 (insideBody setting 8)
    ⟨[], "page.ncl"⟩ "Card" [.new "title" (.static "x"), .new "title" (.static "y")]
    (pure ⟨[], []⟩) .unknown hv
  exact ⟨d, component, bindings, children, l, hv, hd, fun m s => (hframe m s).2.1⟩

end Component

end PageCompiler
