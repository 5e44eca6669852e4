import PageCompiler.Proofs.Interpolation
import PageCompiler.Proofs.Traversal

/-!
Extraction leaves no island, and nothing open where an island was: what cannot be bound is an
error, and an island with an error becomes an error block.
-/

namespace PageCompiler

/-- A node as it is written, whatever stands below it. Nothing is open in the attributes of an
element. -/
def Node.IsFinal : Node → Prop
  | .element _ as _ _ _ => ∀ a ∈ as, Component.isFixed a
  | .text .. | .comment .. | .doctype .. | .error .. => True
  | _ => False

namespace Island

/-- Where it ends without an error there was none before, and the result has the property. The
script, of which `S` holds, is the same before. -/
abbrev Binds {α : Type} (S : Script → Prop) (V : α → Prop) : Content.Bind α → Prop :=
  Reveals (fun c : Content => S c.script ∧ c.errors = []) V

variable {S : Script → Prop}

namespace Binds

theorem fail {e : BindingError} {l : Location} : Binds S (fun _ => False) (Content.fail e l) :=
  fun _ hc => absurd hc.2 (List.append_ne_nil_of_right_ne_nil _ (List.cons_ne_nil _ _))

theorem act {event : String} {m : Mutation} : Binds S (fun _ => True) (Content.act event m) :=
  fun _ hc => ⟨hc, trivial⟩

end Binds

namespace Content

theorem bindAttribute_binds (a : Attribute) :
    Binds S (∀ b ∈ ·.1, b = a ∧ Component.isFixed b ∧ event? b.name = none) (bindAttribute a) := by
  unfold bindAttribute
  split
  · next he =>
    split
    · next h => exact .pure (List.forall_mem_singleton.2 ⟨rfl, by simp [Component.isFixed, h], he⟩)
    · next h => exact .pure (List.forall_mem_singleton.2 ⟨rfl, by simp [Component.isFixed, h], he⟩)
    · exact .bind Binds.fail fun _ => .pure nofun
  · refine .bind Reveals.get fun c => ?_
    split
    · exact .bind Binds.act fun _ => .pure fun _ _ => List.forall_mem_nil _
    · exact .bind Binds.fail fun _ => .pure nofun

/-- The attributes that are kept are fixed and ask for no action. -/
theorem bindAttributes_binds (as : List Attribute) :
    Binds S (∀ b ∈ ·.1, b ∈ as ∧ Component.isFixed b ∧ event? b.name = none)
      (bindAttributes as) := by
  induction as with
  | nil => exact .pure (List.forall_mem_nil _)
  | cons a as ih =>
    rw [bindAttributes]
    refine .bind (bindAttribute_binds a) fun _ => .bind ih fun _ => .pure fun has ha => ?_
    refine List.forall_mem_append.2 ⟨fun b hb => ?_, fun b hb => ?_⟩
    · obtain ⟨rfl, hb⟩ := ha b hb
      exact ⟨List.mem_cons_self, hb⟩
    · exact ⟨List.mem_cons_of_mem a (has b hb).1, (has b hb).2⟩

theorem bindAll_eq (ns : List Node) : bindAll ns = ns.mapM bindNode := by
  induction ns with
  | nil => rfl
  | cons n ns ih => simp [bindAll, ih]

theorem bindBranches_eq (bs : List (String × List Node)) :
    bindBranches bs = bs.mapM fun b => do return (b.1, ← bindAll b.2) := by
  induction bs with
  | nil => rfl
  | cons b bs ih => simp [bindBranches, ih]

theorem bindNode_of_ne {n : Node} (hx : n.kind ≠ .expression) (he : n.kind ≠ .element)
    (hi : n.kind ≠ .island) : bindNode n = n.traverse bindAll := by
  cases n with
  | expression => exact absurd rfl hx
  | element => exact absurd rfl he
  | island => exact absurd rfl hi
  | conditional branches alternate d l =>
    cases alternate <;> simp [bindNode, bindBranches_eq, Node.traverse]
  | _ => simp [bindNode, Node.traverse]

theorem bindAll_binds {P : Node → Prop} {ns : List Node} (h : ∀ n ∈ ns, Binds S P (bindNode n)) :
    Binds S (∀ n ∈ ·, P n) (bindAll ns) := by
  rw [bindAll_eq]
  exact .mapM h

theorem marker_isFinal (name : String) (initial : Json.Value) (l : Location) :
    (marker name initial l).Everywhere Node.IsFinal := by
  simp [marker, Node.IsFinal, Component.isFixed, Attribute.new]

theorem bindNode_binds {n : Node} (hn : n.IsFlat) :
    Binds S (·.Everywhere Node.IsFinal) (bindNode n) := by
  induction hn with
  | @element children tag as closing l _ ih =>
    rw [bindNode]
    refine .bind (bindAttributes_binds as) fun (kept, ids) => ?_
    refine .bind (bindAll_binds ih) fun children => .pure fun hc hk => ?_
    refine Node.everywhere_element.2 ⟨List.forall_mem_append.2 ⟨fun a ha => (hk a ha).2.1, ?_⟩, hc⟩
    split
    · exact List.forall_mem_nil _
    · exact List.forall_mem_singleton.2 rfl
  | expression =>
    rw [bindNode]
    refine .bind Reveals.get fun c => ?_
    split
    · exact .pure fun _ => marker_isFinal _ _ _
    · exact .bind Binds.fail fun _ => .pure nofun
  -- a nested island is an error, so nothing has to be known of what is in it
  | island =>
    rw [bindNode]
    exact .bind Binds.fail fun _ => .pure nofun
  | text => exact .pure (Node.everywhere_text.2 trivial)
  | comment => exact .pure (Node.everywhere_comment.2 trivial)
  | doctype => exact .pure (Node.everywhere_doctype.2 trivial)
  | error => exact .pure (Node.everywhere_error.2 trivial)

end Content

theorem wrapper_isFinal {children : List Node} (h : ∀ n ∈ children, n.Everywhere Node.IsFinal)
    (id : String) (strategy : Strategy) (l : Location) :
    (wrapper id strategy children l).Everywhere Node.IsFinal := by
  refine Node.everywhere_element.2 ⟨?_, h⟩
  cases strategy <;> simp [Node.IsFinal, Strategy.query?, Component.isFixed, Attribute.new]

section Bind

variable {id : String} {strategy : Strategy} {script : String} {children : List Node}
  {l : Location}

/-- An island is well if its script can be read and everything in it can be bound. -/
theorem bind_eq_ok {node : Node} {m : Module}
    (h : bind id strategy script children l = .ok (node, m)) :
    ∃ s bound c, Script.parse script = .ok s ∧
      (Content.bindAll children).run ⟨id, s, [], []⟩ = (bound, c) ∧ c.errors = [] ∧
      node = wrapper id strategy bound l ∧ m = ⟨id, strategy, s, c.actions⟩ := by
  rw [bind] at h
  split at h
  · cases h
  · next s hs =>
    split at h
    next bound c hrun =>
    split at h
    · next he =>
      cases h
      exact ⟨s, bound, c, hs, hrun, List.isEmpty_iff.1 he, rfl, rfl⟩
    · cases h

theorem bind_error_ne {errors : List (BindingError × Location)}
    (h : bind id strategy script children l = .error errors) : errors ≠ [] := by
  rw [bind] at h
  split at h
  · next hs =>
    cases h
    rw [Script.parse] at hs
    split at hs
    · cases hs
    · next he =>
      cases hs
      simpa using he
  · split at h
    split at h
    · cases h
    · next he =>
      cases h
      simpa using he

theorem bind_isFinal {node : Node} {m : Module} (hc : ∀ n ∈ children, n.IsFlat)
    (h : bind id strategy script children l = .ok (node, m)) :
    node.Everywhere Node.IsFinal := by
  obtain ⟨s, bound, c, -, hrun, he, rfl, rfl⟩ := bind_eq_ok h
  have hb := Content.bindAll_binds (S := fun _ => True)
    (fun n hn => Content.bindNode_binds (hc n hn)) ⟨id, s, [], []⟩
  rw [hrun] at hb
  exact wrapper_isFinal (hb ⟨trivial, he⟩).2 id strategy l

end Bind

namespace Extraction

abbrev IsEarly (e : Extraction) : Prop := ∀ d ∈ e.diagnostics, d.IsEarly

theorem number_keeps : Keeps IsEarly (fun _ => True) number := fun _ he => ⟨trivial, he⟩

theorem extractIsland_keeps {children : List Node} (hc : ∀ n ∈ children, n.IsFlat) (file : String)
    (strategy : Strategy) (script : String) (l : Location) :
    Keeps IsEarly (·.Everywhere Node.IsFinal) (extractIsland file strategy script children l) := by
  refine .bind number_keeps fun id _ => ?_
  split
  · next node m h =>
    intro e he
    exact ⟨bind_isFinal hc h, he⟩
  · next errors _ =>
    intro e he
    refine ⟨Node.everywhere_error.2 trivial, List.forall_mem_append.2 ⟨he, ?_⟩⟩
    exact List.forall_mem_map.2 fun p _ => by simp [Diagnostic.IsEarly]

theorem extractAll_eq (file : String) (ns : List Node) :
    extractAll file ns = ns.mapM (extract file) := by
  induction ns with
  | nil => rfl
  | cons n ns ih => simp [extractAll, ih]

theorem extractBranches_eq (file : String) (bs : List (String × List Node)) :
    extractBranches file bs = bs.mapM fun b => do return (b.1, ← extractAll file b.2) := by
  induction bs with
  | nil => rfl
  | cons b bs ih => simp [extractBranches, ih]

theorem extract_of_ne {n : Node} (hi : n.kind ≠ .island) (file : String) :
    extract file n = n.traverse (extractAll file) := by
  cases n with
  | island => exact absurd rfl hi
  | conditional branches alternate d l =>
    cases alternate <;> simp [extract, extractBranches_eq, Node.traverse]
  | _ => simp [extract, Node.traverse]

theorem extractAll_keeps {P : Node → Prop} {file : String} {ns : List Node}
    (h : ∀ n ∈ ns, Keeps IsEarly P (extract file n)) :
    Keeps IsEarly (∀ n ∈ ·, P n) (extractAll file ns) := by
  rw [extractAll_eq]
  exact .mapM h

theorem extract_keeps (file : String) {n : Node} (hn : n.AwaitsIslands) :
    Keeps IsEarly (·.Everywhere Node.IsFinal) (extract file n) := by
  induction hn with
  | element has _ ih =>
    rw [extract]
    exact .bind (extractAll_keeps ih) fun _ hc => .pure (Node.everywhere_element.2 ⟨has, hc⟩)
  | island hc =>
    rw [extract]
    exact extractIsland_keeps hc _ _ _ _
  | text => exact .pure (Node.everywhere_text.2 trivial)
  | comment => exact .pure (Node.everywhere_comment.2 trivial)
  | doctype => exact .pure (Node.everywhere_doctype.2 trivial)
  | error => exact .pure (Node.everywhere_error.2 trivial)

end Extraction

/-- Everything is final where the islands have been extracted. -/
theorem extractIslands_isFinal (file : String) {ns : List Node} (h : ∀ n ∈ ns, n.AwaitsIslands) :
    (∀ n ∈ (extractIslands file ns).nodes, n.Everywhere Node.IsFinal) ∧
      ∀ d ∈ (extractIslands file ns).diagnostics, d.IsEarly :=
  Extraction.extractAll_keeps (fun n hn => Extraction.extract_keeps file (h n hn)) ⟨0, [], []⟩
    (List.forall_mem_nil _)

end Island

end PageCompiler
