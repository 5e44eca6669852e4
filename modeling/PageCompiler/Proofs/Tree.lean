import PageCompiler.Markup.Node

/-!
Induction over trees, and what holds of every node of a tree.
-/

namespace PageCompiler

theorem flatMap_eq_self {α : Type} {f : α → List α} {as : List α} (h : ∀ a ∈ as, f a = [a]) :
    as.flatMap f = as := by
  rw [List.flatMap_def, List.map_congr_left h, ← List.flatMap_def, List.flatMap_singleton']

namespace Node

/-- Induction where the hypothesis holds of all nodes in the lists right below a node. -/
@[elab_as_elim, induction_eliminator]
theorem induct {motive : Node → Prop}
    (element : ∀ tag as children closing l, (∀ n ∈ children, motive n) →
      motive (.element tag as children closing l))
    (text : ∀ s l, motive (.text s l))
    (expression : ∀ code raw l, motive (.expression code raw l))
    (comment : ∀ s l, motive (.comment s l))
    (doctype : ∀ s l, motive (.doctype s l))
    (component : ∀ name as children l, (∀ n ∈ children, motive n) →
      motive (.component name as children l))
    (slot : ∀ name fallback l, (∀ n ∈ fallback, motive n) → motive (.slot name fallback l))
    (loop : ∀ item source body d l, (∀ n ∈ body, motive n) → motive (.loop item source body d l))
    (conditional : ∀ branches alternate d l, (∀ b ∈ branches, ∀ n ∈ b.2, motive n) →
      (∀ ns ∈ alternate, ∀ n ∈ ns, motive n) → motive (.conditional branches alternate d l))
    (island : ∀ strategy script children l, (∀ n ∈ children, motive n) →
      motive (.island strategy script children l))
    (isolated : ∀ name bindings children l, (∀ n ∈ children, motive n) →
      motive (.isolated name bindings children l))
    (callerScope : ∀ children, (∀ n ∈ children, motive n) → motive (.callerScope children))
    (error : ∀ problem message l, motive (.error problem message l))
    (n : Node) : motive n := by
  refine @Node.rec motive (fun ns => ∀ n ∈ ns, motive n) (fun bs => ∀ b ∈ bs, ∀ n ∈ b.2, motive n)
    (fun o => ∀ ns ∈ o, ∀ n ∈ ns, motive n) (fun b => ∀ n ∈ b.2, motive n)
    element text expression comment doctype component slot loop conditional island isolated
    callerScope error ?_ ?_ ?_ ?_ ?_ ?_ ?_ n
  · exact List.forall_mem_nil _
  · intro m ms hm hms
    exact List.forall_mem_cons.2 ⟨hm, hms⟩
  · exact List.forall_mem_nil _
  · intro b bs hb hbs
    exact List.forall_mem_cons.2 ⟨hb, hbs⟩
  · exact nofun
  · rintro ns hns _ ⟨⟩
    exact hns
  · intro condition ns hns
    exact hns

/-- Induction where all forms of nodes are treated alike. -/
@[elab_as_elim]
theorem induct_children {motive : Node → Prop}
    (node : ∀ n, (∀ ns ∈ n.childLists, ∀ m ∈ ns, motive m) → motive n) (n : Node) : motive n := by
  induction n with
  | element _ _ _ _ _ ih | component _ _ _ _ ih | slot _ _ _ ih | loop _ _ _ _ _ ih
  | island _ _ _ _ ih | isolated _ _ _ _ ih | callerScope _ ih =>
    exact node _ (List.forall_mem_singleton.2 ih)
  | conditional branches alternate d l ihb iha =>
    refine node _ (List.forall_mem_append.2 ⟨List.forall_mem_map.2 ihb, ?_⟩)
    simpa using iha
  | _ => exact node _ (List.forall_mem_nil _)

/-- Induction over nodes and lists of nodes together, where the hypothesis holds of the lists right
below a node. -/
theorem induct_lists {motive : Node → Prop} {all : List Node → Prop}
    (node : ∀ n, (∀ ns ∈ n.childLists, all ns) → motive n) (nil : all [])
    (cons : ∀ n ns, motive n → (∀ cs ∈ n.childLists, all cs) → all ns → all (n :: ns))
    (ns : List Node) : all ns := by
  have list : ∀ ns, (∀ n ∈ ns, ∀ cs ∈ n.childLists, all cs) → all ns := by
    intro ns h
    induction ns with
    | nil => exact nil
    | cons n ns ih =>
      rw [List.forall_mem_cons] at h
      exact cons n ns (node n h.1) h.1 (ih h.2)
  suffices below : ∀ n : Node, ∀ cs ∈ n.childLists, all cs from list ns fun n _ => below n
  intro n
  induction n using induct_children with
  | node n ih => exact fun cs hcs => list cs (ih cs hcs)

inductive Kind
  | element
  | text
  | expression
  | comment
  | doctype
  | component
  | slot
  | loop
  | conditional
  | island
  | isolated
  | callerScope
  | error
  deriving DecidableEq, Repr

@[simp] def kind : Node → Kind
  | .element .. => .element
  | .text .. => .text
  | .expression .. => .expression
  | .comment .. => .comment
  | .doctype .. => .doctype
  | .component .. => .component
  | .slot .. => .slot
  | .loop .. => .loop
  | .conditional .. => .conditional
  | .island .. => .island
  | .isolated .. => .isolated
  | .callerScope _ => .callerScope
  | .error .. => .error

@[simp] def usedName? : Node → Option String
  | .component name .. => some name
  | _ => none

theorem usedName?_eq_none {n : Node} : n.usedName? = none ↔ n.kind ≠ .component := by
  cases n <;> simp

@[simp] def problem? : Node → Option Problem
  | .error problem .. => some problem
  | _ => none

/-- What of a node does not depend on its contents; errors tell their problem. -/
structure Form where
  kind : Kind
  problem? : Option Problem

def form (n : Node) : Form := ⟨n.kind, n.problem?⟩

def Everywhere (p : Node → Prop) (n : Node) : Prop := ∀ m ∈ n.descendants, p m

abbrev OfForms (F : Form → Prop) : Node → Prop := Everywhere fun n => F n.form

abbrev OfKinds (K : Kind → Prop) : Node → Prop := Everywhere fun n => K n.kind

section Everywhere

variable {p q : Node → Prop}

theorem branchDescendants_eq (bs : List (String × List Node)) :
    branchDescendants bs = (bs.map Prod.snd).flatMap listDescendants := by
  induction bs with
  | nil => rfl
  | cons b bs ih => rw [branchDescendants, ih, List.map_cons, List.flatMap_cons]

theorem descendants_eq (n : Node) : n.descendants = n :: n.childLists.flatMap listDescendants := by
  cases n with
  | conditional branches alternate d l =>
    cases alternate <;> simp [descendants, childLists, branchDescendants_eq]
  | _ => simp [descendants, childLists]

theorem listDescendants_eq (ns : List Node) : listDescendants ns = ns.flatMap descendants := by
  induction ns with
  | nil => rfl
  | cons n ns ih => rw [listDescendants, ih, List.flatMap_cons]

theorem mem_descendants {n m : Node} : m ∈ n.descendants ↔
    m = n ∨ ∃ ns ∈ n.childLists, ∃ k ∈ ns, m ∈ k.descendants := by
  rw [descendants_eq, List.mem_cons, List.mem_flatMap]
  simp only [listDescendants_eq, List.mem_flatMap]

theorem forall_listDescendants {ns : List Node} :
    (∀ m ∈ listDescendants ns, p m) ↔ ∀ n ∈ ns, n.Everywhere p := by
  induction ns with
  | nil => simp [listDescendants]
  | cons n ns ih =>
    rw [listDescendants, List.forall_mem_append, ih, List.forall_mem_cons, Everywhere]

theorem everywhere_iff {n : Node} :
    n.Everywhere p ↔ p n ∧ ∀ ns ∈ n.childLists, ∀ m ∈ ns, m.Everywhere p := by
  rw [Everywhere, descendants_eq, List.forall_mem_cons, List.forall_mem_flatMap]
  simp only [forall_listDescendants]

theorem everywhere_leaf {n : Node} (h : n.childLists = []) : n.Everywhere p ↔ p n := by
  rw [everywhere_iff, h]
  simp

theorem everywhere_list {n : Node} {children : List Node} (h : n.childLists = [children]) :
    n.Everywhere p ↔ p n ∧ ∀ m ∈ children, m.Everywhere p := by
  rw [everywhere_iff, h, List.forall_mem_singleton]

theorem Everywhere.below {n m : Node} (h : n.Everywhere p) (hm : m ∈ n.descendants) :
    m.Everywhere p := by
  induction n using induct_children with
  | node n ih =>
    obtain rfl | ⟨ns, hns, k, hk, hm⟩ := mem_descendants.1 hm
    · exact h
    · exact ih ns hns k hk ((everywhere_iff.1 h).2 ns hns k hk) hm

@[simp] theorem everywhere_element : (element tag as children closing l).Everywhere p ↔
    p (element tag as children closing l) ∧ ∀ n ∈ children, n.Everywhere p :=
  everywhere_list rfl

@[simp] theorem everywhere_text : (text s l).Everywhere p ↔ p (text s l) :=
  everywhere_leaf rfl

@[simp] theorem everywhere_expression : (expression code raw l).Everywhere p ↔
    p (expression code raw l) :=
  everywhere_leaf rfl

@[simp] theorem everywhere_comment : (comment s l).Everywhere p ↔ p (comment s l) :=
  everywhere_leaf rfl

@[simp] theorem everywhere_doctype : (doctype s l).Everywhere p ↔ p (doctype s l) :=
  everywhere_leaf rfl

@[simp] theorem everywhere_component : (component name as children l).Everywhere p ↔
    p (component name as children l) ∧ ∀ n ∈ children, n.Everywhere p :=
  everywhere_list rfl

@[simp] theorem everywhere_slot : (slot name fallback l).Everywhere p ↔
    p (slot name fallback l) ∧ ∀ n ∈ fallback, n.Everywhere p :=
  everywhere_list rfl

@[simp] theorem everywhere_loop : (loop item source body d l).Everywhere p ↔
    p (loop item source body d l) ∧ ∀ n ∈ body, n.Everywhere p :=
  everywhere_list rfl

@[simp] theorem everywhere_conditional : (conditional branches alternate d l).Everywhere p ↔
    p (conditional branches alternate d l) ∧ (∀ b ∈ branches, ∀ n ∈ b.2, n.Everywhere p) ∧
      ∀ ns ∈ alternate, ∀ n ∈ ns, n.Everywhere p := by
  rw [everywhere_iff, childLists, List.forall_mem_append, List.forall_mem_map]
  simp

@[simp] theorem everywhere_island : (island strategy script children l).Everywhere p ↔
    p (island strategy script children l) ∧ ∀ n ∈ children, n.Everywhere p :=
  everywhere_list rfl

@[simp] theorem everywhere_isolated : (isolated name bindings children l).Everywhere p ↔
    p (isolated name bindings children l) ∧ ∀ n ∈ children, n.Everywhere p :=
  everywhere_list rfl

@[simp] theorem everywhere_callerScope : (callerScope children).Everywhere p ↔
    p (callerScope children) ∧ ∀ n ∈ children, n.Everywhere p :=
  everywhere_list rfl

@[simp] theorem everywhere_error : (error problem message l).Everywhere p ↔
    p (error problem message l) :=
  everywhere_leaf rfl

end Everywhere

/-- Outside of nodes of one kind every node has the property `p`, and those of that kind have `q`;
what is below them is left aside. -/
inductive Outside (k : Kind) (p q : Node → Prop) : Node → Prop
  | within : n.kind = k → q n → Outside k p q n
  | node : n.kind ≠ k → p n → (∀ ns ∈ n.childLists, ∀ m ∈ ns, Outside k p q m) → Outside k p q n

section Outside

variable {k : Kind} {p q p' q' : Node → Prop} {n : Node}

theorem Outside.of_eq (h : n.Outside k p q) (hk : n.kind = k) : q n := by
  cases h with
  | within _ hq => exact hq
  | node hne => exact absurd hk hne

theorem Outside.of_ne (h : n.Outside k p q) (hk : n.kind ≠ k) :
    p n ∧ ∀ ns ∈ n.childLists, ∀ m ∈ ns, m.Outside k p q := by
  cases h with
  | within he => exact absurd he hk
  | node _ hp hc => exact ⟨hp, hc⟩

end Outside

def mapChildren (f : List Node → List Node) : Node → Node
  | .element tag as children closing l => .element tag as (f children) closing l
  | .component name as children l => .component name as (f children) l
  | .slot name fallback l => .slot name (f fallback) l
  | .loop item source body d l => .loop item source (f body) d l
  | .conditional branches alternate d l =>
    .conditional (branches.map fun b => (b.1, f b.2)) (alternate.map f) d l
  | .island strategy script children l => .island strategy script (f children) l
  | .isolated name bindings children l => .isolated name bindings (f children) l
  | .callerScope children => .callerScope (f children)
  | n => n

theorem form_mapChildren (f : List Node → List Node) (n : Node) :
    (n.mapChildren f).form = n.form := by
  cases n <;> rfl

theorem usedName?_mapChildren (f : List Node → List Node) (n : Node) :
    (n.mapChildren f).usedName? = n.usedName? := by
  cases n <;> rfl

theorem childLists_mapChildren (f : List Node → List Node) (n : Node) :
    (n.mapChildren f).childLists = n.childLists.map f := by
  cases n with
  | conditional branches alternate d l =>
    cases alternate <;> simp [mapChildren, childLists, Function.comp_def]
  | _ => rfl

/-- A node without what is below it. -/
def shell (n : Node) : Node := n.mapChildren fun _ => []

theorem form_of_shell {n m : Node} (h : m.shell = n.shell) : m.form = n.form := by
  rw [← form_mapChildren (fun _ => []) m, ← form_mapChildren (fun _ => []) n]
  exact congrArg form h

theorem usedName?_of_shell {n m : Node} (h : m.shell = n.shell) : m.usedName? = n.usedName? := by
  rw [← usedName?_mapChildren (fun _ => []) m, ← usedName?_mapChildren (fun _ => []) n]
  exact congrArg usedName? h

/-- The attributes that a node has of its own. -/
def given : Node → List Attribute
  | .element _ as _ _ _ => as
  | .component _ as _ _ => as
  | _ => []

/-- The node `m` has the form and the place of `n`, and only attributes that `n` has. -/
structure Trims (n m : Node) : Prop where
  form : m.form = n.form
  location : n.kind ≠ .callerScope → m.location = n.location
  given : m.given ⊆ n.given

theorem trims_mapChildren (f : List Node → List Node) (n : Node) : n.Trims (n.mapChildren f) where
  form := form_mapChildren f n
  location hc := by
    cases n with
    | callerScope => exact absurd rfl hc
    | _ => rfl
  given := by
    have h : (n.mapChildren f).given = n.given := by cases n <;> rfl
    exact h ▸ List.Subset.refl _

theorem trims_of_shell {n m : Node} (h : m.shell = n.shell) : n.Trims m where
  form := form_of_shell h
  location hc := by
    have hm : m.kind = n.kind := congrArg Form.kind (form_of_shell h)
    have hshell {k : Node} (hk : k.kind ≠ .callerScope) : k.shell.location = k.location :=
      (trims_mapChildren _ k).location hk
    rw [← hshell (hm ▸ hc), ← hshell hc, h]
  given := by
    have hshell (k : Node) : k.shell.given = k.given := by cases k <;> rfl
    rw [← hshell m, ← hshell n, h]
    exact List.Subset.refl _

theorem everywhere_mapChildren {q : Node → Prop} {f : List Node → List Node} {n : Node}
    (hq : q (n.mapChildren f)) (h : ∀ ns ∈ n.childLists, ∀ m ∈ f ns, m.Everywhere q) :
    (n.mapChildren f).Everywhere q := by
  refine everywhere_iff.2 ⟨hq, ?_⟩
  rw [childLists_mapChildren]
  exact List.forall_mem_map.2 h

section Stages

variable {β : Type} {p : Node → Prop} {n : Node}

theorem mapChildren_eq_self {f : List Node → List Node} (h : ∀ ns ∈ n.childLists, f ns = ns) :
    n.mapChildren f = n := by
  cases n with
  | conditional branches alternate d l =>
    obtain ⟨hb, ha⟩ := List.forall_mem_append.1 h
    have hbs : branches.map (fun b => (b.1, f b.2)) = branches := by
      rw [List.map_congr_left fun b hmem => by rw [hb b.2 (List.mem_map_of_mem hmem)],
        List.map_id']
    cases alternate with
    | none => rw [mapChildren, hbs, Option.map_none]
    | some nodes => rw [mapChildren, hbs, Option.map_some, ha nodes (List.mem_singleton_self _)]
  | text | expression | comment | doctype | error => rfl
  | _ => rw [mapChildren, h _ (List.mem_singleton_self _)]

/-- A stage that only rebuilds nodes leaves them as they are. -/
theorem eq_self_of_mapChildren {f : Node → List Node} {all : List Node → List Node}
    (hall : ∀ ns, all ns = ns.flatMap f) (hf : ∀ n, p n → f n = [n.mapChildren all])
    (h : n.Everywhere p) : f n = [n] := by
  induction n using induct_children with
  | node n ih =>
    obtain ⟨hn, h⟩ := everywhere_iff.1 h
    have hlists : ∀ ns ∈ n.childLists, all ns = ns := fun ns hns =>
      (hall ns).trans (flatMap_eq_self fun m hm => ih ns hns m hm (h ns hns m hm))
    rw [hf n hn, mapChildren_eq_self hlists]

/-- What is gathered from the lists below the nodes only is empty. -/
theorem eq_nil_of_childLists {f : Node → List β} {all : List Node → List β}
    (hall : ∀ ns, all ns = ns.flatMap f) (hf : ∀ n, p n → f n = n.childLists.flatMap all)
    (h : n.Everywhere p) : f n = [] := by
  induction n using induct_children with
  | node n ih =>
    obtain ⟨hn, h⟩ := everywhere_iff.1 h
    rw [hf n hn, List.flatMap_eq_nil_iff]
    intro ns hns
    rw [hall, List.flatMap_eq_nil_iff]
    exact fun m hm => ih ns hns m hm (h ns hns m hm)

end Stages

end Node

end PageCompiler
