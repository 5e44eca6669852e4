import PageCompiler.Proofs.Component.Walk

/-!
What expanding components leaves in a tree and what it reports. A usage does what its definition
asks for; the expansion of a document does no more than its usages do.
-/

namespace PageCompiler.Component

open Node (Kind)

/-- A problem of a usage that has nothing to do with the usages around it. -/
def IsLocalProblem (d : Diagnostic) : Prop :=
  d.stage = .components ∧ d.problem ≠ .circularComponentDependency

/-- What is reported has `P`. -/
def reporting (P : Diagnostic → Prop) : Judgement Expanded where
  Holds V := Expanded.Sat V P
  pure := .pure
  bind := .bind

section Usage

variable {P : Diagnostic → Prop} {site : Site} {d : Definition} {A : String → Prop}
  {K K' L : Kind → Prop} {l : Location}

theorem warn_sat (hP : ∀ d, IsLocalProblem d → P d) {problem : Problem} {message : String}
    (l : Location) (h : problem ≠ .circularComponentDependency) :
    (warn site problem message l).Sat (fun _ => True) P :=
  Expanded.sat_report (hP _ ⟨rfl, h⟩)

theorem givenBy_sat (hP : ∀ d, IsLocalProblem d → P d) (as : List Attribute) :
    (givenBy site d as).Sat (fun _ => True) P := by
  induction as with
  | nil => exact .pure trivial
  | cons a as ih =>
    rw [givenBy]
    split
    · exact ih
    · split
      · exact .bind ih fun _ _ => .pure trivial
      · split
        · exact .bind ih fun _ _ => .pure trivial
        · dsimp only
          split
          · exact .bind (Expanded.sat_report (hP _ ⟨rfl, nofun⟩)) fun _ _ => .pure trivial
          · exact .bind (Expanded.sat_report (hP _ ⟨rfl, nofun⟩)) fun _ _ => ih

theorem mergeInto?_fits {as : List Attribute} {n m : Node} (h : mergeInto? as n = some m)
    (hn : n.Fits A K L) : m.Fits A K L := by
  obtain ⟨hf, hu, hl⟩ := mergeInto?_eq h
  have hk : m.kind = n.kind := congrArg Node.Form.kind hf
  cases hn with
  | within hn hc => exact .within (hk.trans hn) (hl ▸ hc)
  | node hn ha hc => exact .node (hk ▸ hn) (ha.of_eq hu hk id) (hl ▸ hc)

theorem forward_sat (hP : ∀ d, IsLocalProblem d → P d) {others : List Attribute}
    {body : List Node} (hb : ∀ n ∈ body, n.Fits A K L) :
    (forward site d l others body).Sat (∀ n ∈ ·, n.Fits A K L) P :=
  forward_holds (reporting P) (fun _ => warn_sat hP l nofun)
    (fun a _ _ _ => warn_sat hP a.location nofun) (fun _ _ => mergeInto?_fits) hb

theorem checkContent_sat (hP : ∀ d, IsLocalProblem d → P d) (content : SlotContent) :
    (checkContent site d l content).Sat (fun _ => True) P := by
  refine Expanded.sat_forM fun p _ => ?_
  dsimp only
  split
  · exact .pure trivial
  · exact warn_sat hP l nofun

/-- A body that is expanded leaves no usage. -/
def Opens (inside : ExpandBody) (site : Site) (d : Definition) (A : String → Prop)
    (K L : Kind → Prop) (P : Diagnostic → Prop) : Prop :=
  ∀ body, (∀ n ∈ body, n.Fits A K L) →
    (inside ⟨site.stack ++ [d.name], d.path⟩ body).Sat
      (∀ n ∈ ·, n.Fits (fun _ => False) K L) P

theorem instantiate_sat {inside : ExpandBody} {g : Given} {content : Expanded SlotContent}
    (hP : ∀ d, IsLocalProblem d → P d) (hK : ∀ k, k ≠ .slot → K' k → K k) (hi : K .isolated)
    (hL : L .callerScope) (hd : ∀ n ∈ d.nodes, n.Fits A K' L)
    (hin : Opens inside site d A K L P) (hc : content.Sat (SlotContent.OfKinds L) P) :
    (instantiate inside site d g content l).Sat (Node.Fits (fun _ => False) K L) P := by
  rw [instantiate]
  refine .bind hc fun content hc => .bind (checkContent_sat hP content) fun _ _ => ?_
  refine .bind (forward_sat hP (Slots.fillBody_fits hL hK hd hc)) fun body hb => ?_
  refine .bind (hin body hb) fun children hch => .pure ?_
  exact .node nofun ⟨nofun, fun _ => hi⟩ (List.forall_mem_singleton.2 hch)

theorem error_fits (he : K .error) (problem : Problem) (message : String) :
    (Node.error problem message l).Fits A K L :=
  .node nofun ⟨nofun, fun _ => he⟩ nofun

theorem useDefinition_sat {inside : ExpandBody} {as : List Attribute}
    {content : Expanded SlotContent} (hP : ∀ d, IsLocalProblem d → P d)
    (hK : ∀ k, k ≠ .slot → K' k → K k) (hi : K .isolated) (he : K .error) (hL : L .callerScope)
    (hd : ∀ n ∈ d.nodes, n.Fits A K' L) (hin : Opens inside site d A K L P)
    (hc : content.Sat (SlotContent.OfKinds L) P) :
    (useDefinition inside site d as content l).Sat (Node.Fits (fun _ => False) K L) P := by
  rw [useDefinition]
  refine .bind Expanded.sat_use fun _ _ => .bind (givenBy_sat hP as) fun g _ => ?_
  split
  · exact .pure (error_fits he _ _)
  · dsimp only
    split
    · exact instantiate_sat hP hK hi hL hd hin hc
    · refine .bind (Expanded.sat_forM fun n _ => Expanded.sat_report (hP _ ⟨rfl, nofun⟩))
        fun _ _ => ?_
      exact .pure (error_fits he _ _)

end Usage

section Expansion

variable {P : Diagnostic → Prop} {setting : Setting} {inside : Option ExpandBody} {site : Site}
  {A : String → Prop} {K L : Kind → Prop}

/-- Usages of the names of `A` are done with at the site. -/
def Handles (setting : Setting) (inside : Option ExpandBody) (site : Site) (A : String → Prop)
    (K L : Kind → Prop) (P : Diagnostic → Prop) : Prop :=
  ∀ name as content l, A name → content.Sat (SlotContent.OfKinds L) P →
    (useName setting inside site name as content l).Sat (Node.Fits (fun _ => False) K L) P

/-- Where the usages are done with nothing else stays to be expanded. -/
theorem Handles.walk (huse : Handles setting inside site A K L P)
    (hK : ∀ k, k ≠ .component → K k → L k) (hL : L .callerScope) :
    Walk (reporting P) setting inside site (Node.Fits A K L) (Node.Fits (fun _ => False) K L)
      (SlotContent.OfKinds L) where
  use hn given _ content hc := huse _ given content _ ((hn.of_ne (by simp)).1.name _ rfl) hc
  below hn hs := (hn.of_ne hs).2
  rebuilt {n m} hn hc hs ht hm := by
    have hk : m.kind = n.kind := congrArg Node.Form.kind ht.form
    refine .node (hk ▸ hs) ⟨fun name hu => ?_, fun _ => hk ▸ (hn.of_ne hs).1.kind hc⟩ hm
    rw [Node.usedName?_eq_none.2 (hk ▸ hc)] at hu
    cases hu
  callerScope hn := .within rfl (hn.of_eq rfl)
  content hd hp := SlotContent.ofPieces_each (fun n hn => (hd n hn).ofKinds hK hL)
    fun piece hpiece n hn => (hp piece hpiece n hn).ofKinds hK hL

end Expansion

def circleMessage (stack : List String) (name : String) : String :=
  "Circular component dependency: " ++
    Text.join " -> " (stack.dropWhile (· != name) ++ [name])

def depthMessage (maxDepth : Nat) (name : String) : String :=
  "Component nesting exceeds " ++ toString maxDepth ++ " levels at <" ++ name ++ ">."

def circularProblem (message file : String) (l : Location) : Diagnostic :=
  (Diagnostic.error .components .circularComponentDependency message).placed file l

/-- `Inv` tells of the components around a place and of the names that may be used there. It
accounts for all reports, and it carries over to the bodies of components. -/
structure Accounts (setting : Setting) (names : Definition → String → Prop)
    (P : Diagnostic → Prop) (Inv : List String → (String → Prop) → Prop) : Prop where
  plain : ∀ d, IsLocalProblem d → P d
  circle : Inv stack A → A name → setting.registry.component? name = some d → d.name ∈ stack →
    ∀ file l, P (circularProblem (circleMessage stack d.name) file l)
  depth : Inv stack A → A name → setting.registry.component? name = some d → d.name ∉ stack →
    stack.length = setting.maxDepth →
    ∀ file l, P (circularProblem (depthMessage setting.maxDepth d.name) file l)
  enter : Inv stack A → A name → setting.registry.component? name = some d → d.name ∉ stack →
    Inv (stack ++ [d.name]) (names d)

section Levels

variable {setting : Setting} {names : Definition → String → Prop} {P : Diagnostic → Prop}
  {Inv : List String → (String → Prop) → Prop} {K K' L : Kind → Prop}
  (hdefs : ∀ d ∈ setting.registry.components, ∀ n ∈ d.nodes, n.Fits (names d) K' L)
  (hK' : ∀ k, k ≠ .slot → K' k → K k) (hK : ∀ k, k ≠ .component → K k → L k)
  (hi : K .isolated) (he : K .error) (hL : L .callerScope)

include he in
theorem fail_sat {site : Site} {problem : Problem} {message : String} {l : Location}
    (h : P ((Diagnostic.error .components problem message).placed site.file l)) :
    (fail site problem message l).Sat (Node.Fits (fun _ => False) K L) P :=
  .bind (Expanded.sat_report h) fun _ _ => .pure (error_fits he _ _)

include hdefs hK' hi he hL in
theorem useName_handles (h : Accounts setting names P Inv) {stack : List String} {file : String}
    {A : String → Prop} (hinv : Inv stack A) {inside : Option ExpandBody}
    (hnone : inside = none → stack.length = setting.maxDepth)
    (hsome : ∀ i, inside = some i → ∀ d, Inv (stack ++ [d.name]) (names d) →
      Opens i ⟨stack, file⟩ d (names d) K L P) :
    Handles setting inside ⟨stack, file⟩ A K L P := by
  intro name as content l hA hc
  rw [useName]
  split
  · exact fail_sat he (h.plain _ ⟨rfl, nofun⟩)
  · next d hd =>
    dsimp only
    split
    · next hs => exact fail_sat he (h.circle hinv hA hd (List.contains_iff_mem.1 hs) file l)
    · next hs =>
      have hs : d.name ∉ stack := fun hm => hs (List.contains_iff_mem.2 hm)
      cases inside with
      | none => exact fail_sat he (h.depth hinv hA hd hs (hnone rfl) file l)
      | some i =>
        exact useDefinition_sat h.plain hK' hi he hL (hdefs d (Registry.component?_mem hd))
          (hsome i rfl d (h.enter hinv hA hd hs)) hc

include hdefs hK' hK hi he hL in
theorem insideBody_sat (h : Accounts setting names P Inv) (levels : Nat) {stack : List String}
    {file : String} {A : String → Prop} (hinv : Inv stack A)
    (hl : stack.length + levels = setting.maxDepth) {ns : List Node}
    (hns : ∀ n ∈ ns, n.Fits A K L) :
    Walked (reporting P) setting (insideBody setting levels) ⟨stack, file⟩
      (Node.Fits (fun _ => False) K L) ns := by
  induction levels generalizing stack file A ns with
  | zero =>
    have hu : Handles setting (insideBody setting 0) ⟨stack, file⟩ A K L P :=
      useName_handles hdefs hK' hi he hL h hinv (fun _ => hl) fun _ h => nomatch h
    exact (hu.walk hK hL).walked hns
  | succ levels ih =>
    have hu : Handles setting (insideBody setting (levels + 1)) ⟨stack, file⟩ A K L P := by
      refine useName_handles hdefs hK' hi he hL h hinv nofun ?_
      rintro i hi d hd body hb
      cases hi
      refine (ih hd ?_ hb).all
      rw [List.length_append, List.length_singleton]
      omega
    exact (hu.walk hK hL).walked hns

include hdefs hK' hK hi he hL in
theorem expandNodes_sat (h : Accounts setting names P Inv) {A : String → Prop} (hinv : Inv [] A)
    (file : String) {ns : List Node} (hns : ∀ n ∈ ns, n.Fits A K L) :
    (expandNodes setting file ns).Sat (∀ n ∈ ·, n.Fits (fun _ => False) K L) P :=
  have hl : ([] : List String).length + setting.maxDepth = setting.maxDepth := Nat.zero_add _
  have hall := (insideBody_sat hdefs hK' hK hi he hL h setting.maxDepth hinv hl hns).all
  ⟨hall.value, hall.each⟩

end Levels

section Congruence

variable {s t : Setting} {i j : Option ExpandBody} {site : Site}

/-- All lists that are made of the nodes `ns` are the same. -/
structure SameList (s t : Setting) (i j : Option ExpandBody) (site : Site) (ns : List Node) :
    Prop where
  all : expandAll s i site ns = expandAll t j site ns
  named : ∀ parent, namedContent s i site parent ns = namedContent t j site parent ns
  default : ∀ parent, defaultContent s i site parent ns = defaultContent t j site parent ns

variable (huse : useName s i site = useName t j site)

include huse in
theorem expand_congr {n : Node} (h : ∀ ns ∈ n.childLists, SameList s t i j site ns) :
    expand s i site n = expand t j site n := by
  by_cases hc : n.kind = .component
  · cases n with
    | component name as children l =>
      have hc := h children (List.mem_singleton_self _)
      rw [expand, expand, hc.named, hc.default, huse]
    | _ => cases hc
  by_cases hs : n.kind = .callerScope
  · cases n with
    | callerScope => rfl
    | _ => cases hs
  rw [expand_of_ne hc hs, expand_of_ne hc hs]
  exact Node.traverse_congr fun ns hns => (h ns hns).all

include huse in
theorem namedContent_cons_congr {parent : String} {n : Node} {ns : List Node}
    (hc : ∀ cs ∈ n.childLists, SameList s t i j site cs)
    (hns : namedContent s i site parent ns = namedContent t j site parent ns) :
    namedContent s i site parent (n :: ns) = namedContent t j site parent (n :: ns) := by
  cases n with
  | component name as children l =>
    have hc := hc children (List.mem_singleton_self _)
    rw [namedContent, namedContent, hc.all, hc.named, hc.default, huse, hns]
  | element tag as children closing l =>
    rw [namedContent, namedContent, (hc children (List.mem_singleton_self _)).all, hns]
  | _ => exact hns

include huse in
/-- The expansion of nodes depends on nothing but what is done with usages. -/
theorem expandAll_congr (ns : List Node) : SameList s t i j site ns := by
  induction ns using Node.induct_lists
    (motive := fun n => expand s i site n = expand t j site n) with
  | node n ih => exact expand_congr huse ih
  | nil => exact ⟨rfl, fun _ => rfl, fun _ => rfl⟩
  | cons n ns hn hcs ih =>
    refine ⟨?_, fun parent => namedContent_cons_congr huse hcs (ih.named parent),
      fun parent => ?_⟩
    · rw [expandAll, expandAll, hn, ih.all]
    · rw [defaultContent, defaultContent, hn, ih.default parent]

theorem useDefinition_congr {i j : ExpandBody} {d : Definition}
    (h : ∀ body, i ⟨site.stack ++ [d.name], d.path⟩ body = j ⟨site.stack ++ [d.name], d.path⟩ body)
    (as : List Attribute) (content : Expanded SlotContent) (l : Location) :
    useDefinition i site d as content l = useDefinition j site d as content l := by
  simp only [useDefinition, instantiate, h]

end Congruence

end PageCompiler.Component
