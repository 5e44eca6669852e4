import PageCompiler.Component.Slots
import PageCompiler.Proofs.Component.Usage
import PageCompiler.Proofs.Traversal

/-!
The body of a component with its slots filled: no slot is left, and nothing is used but what the
body used before.
-/

namespace PageCompiler

def SlotContent.Each (V : Node → Prop) (c : SlotContent) : Prop :=
  (∀ n ∈ c.default, V n) ∧ ∀ p ∈ c.named, ∀ n ∈ p.2, V n

abbrev SlotContent.OfKinds (L : Node.Kind → Prop) : SlotContent → Prop := Each (·.OfKinds L)

namespace SlotContent

variable {V : Node → Prop} {c : SlotContent}

theorem addNamed_each {named : List (String × List Node)} {piece : String × List Node}
    (h : ∀ p ∈ named, ∀ n ∈ p.2, V n) (hp : ∀ n ∈ piece.2, V n) :
    ∀ p ∈ addNamed named piece, ∀ n ∈ p.2, V n := by
  rw [addNamed]
  split
  · refine List.forall_mem_map.2 fun p hpm => ?_
    dsimp only
    split
    · exact List.forall_mem_append.2 ⟨h p hpm, hp⟩
    · exact h p hpm
  · exact List.forall_mem_append.2 ⟨h, List.forall_mem_singleton.2 hp⟩

theorem ofPieces_each {default : List Node} {pieces : List (String × List Node)}
    (hd : ∀ n ∈ default, V n) (hp : ∀ p ∈ pieces, ∀ n ∈ p.2, V n) :
    (ofPieces default pieces).Each V := by
  refine ⟨hd, ?_⟩
  suffices h : ∀ named : List (String × List Node), (∀ p ∈ named, ∀ n ∈ p.2, V n) →
      ∀ p ∈ pieces.foldl addNamed named, ∀ n ∈ p.2, V n from h [] (List.forall_mem_nil _)
  induction pieces with
  | nil => exact fun _ h => h
  | cons piece pieces ih =>
    rw [List.forall_mem_cons] at hp
    exact fun named h => ih hp.2 _ (addNamed_each h hp.1)

theorem takeNamed_each (name : String) {named : List (String × List Node)}
    (h : ∀ p ∈ named, ∀ n ∈ p.2, V n) :
    (∀ n ∈ (takeNamed name named).1, V n) ∧
      ∀ p ∈ (takeNamed name named).2, ∀ n ∈ p.2, V n := by
  induction named with
  | nil => simp [takeNamed]
  | cons p named ih =>
    rw [List.forall_mem_cons] at h
    rw [takeNamed]
    split
    · exact ⟨h.1, List.forall_mem_cons.2 ⟨List.forall_mem_nil _, h.2⟩⟩
    · exact ⟨(ih h.2).1, List.forall_mem_cons.2 ⟨h.1, (ih h.2).2⟩⟩

theorem take_each (name : Option String) (h : c.Each V) :
    (∀ n ∈ (take name c).1, V n) ∧ (take name c).2.Each V := by
  cases name with
  | none => exact ⟨h.1, List.forall_mem_nil _, h.2⟩
  | some name => exact ⟨(takeNamed_each name h.2).1, h.1, (takeNamed_each name h.2).2⟩

end SlotContent

/-- Nodes with the property `p` outside of slot content, and with `u` in it. -/
abbrev Node.Around (p u : Node → Prop) : Node → Prop :=
  Outside .callerScope p fun n => ∀ ns ∈ n.childLists, ∀ m ∈ ns, m.Everywhere u

namespace Slots

open Node (Form Kind)

variable {A : String → Prop} {K K' L : Kind → Prop} {F G : Form → Prop} {U : Node → Prop}

theorem keeps_fillAll {V : Node → Prop} {ns : List Node}
    (h : ∀ n ∈ ns, Keeps (SlotContent.Each U) (∀ m ∈ ·, V m) (fill n)) :
    Keeps (SlotContent.Each U) (∀ m ∈ ·, V m) (fillAll ns) := by
  induction ns with
  | nil => exact .pure (List.forall_mem_nil _)
  | cons n ns ih =>
    rw [List.forall_mem_cons] at h
    rw [fillAll]
    exact .bind h.1 fun _ ha => .bind (ih h.2) fun _ hb =>
      .pure (List.forall_mem_append.2 ⟨ha, hb⟩)

theorem fillBranches_eq (bs : List (String × List Node)) :
    fillBranches bs = bs.mapM fun b => do return (b.1, ← fillAll b.2) := by
  induction bs with
  | nil => rfl
  | cons b bs ih => simp [fillBranches, ih]

theorem fill_of_ne {n : Node} (hs : n.kind ≠ .slot) :
    fill n = do return [← n.traverse fillAll] := by
  cases n with
  | slot => exact absurd rfl hs
  | conditional branches alternate d l =>
    cases alternate <;> simp [fill, fillBranches_eq, Node.traverse]
  | _ => simp [fill, Node.traverse]

theorem keeps_fill_slot {V : Node → Prop} {name : Option String} {fallback : List Node}
    {l : Location} (hV : ∀ content, (∀ n ∈ content, U n) → V (.callerScope content))
    (h : Keeps (SlotContent.Each U) (∀ m ∈ ·, V m) (fillAll fallback)) :
    Keeps (SlotContent.Each U) (∀ m ∈ ·, V m) (fill (.slot name fallback l)) := by
  rw [fill]
  refine @Keeps.bind _ _ _ _ (∀ n ∈ ·, U n) _ _ _
    (fun c hc => SlotContent.take_each name hc) fun content hc => ?_
  split
  · exact h
  · exact .pure (List.forall_mem_singleton.2 (hV content hc))

theorem fill_everywhere {p q : Node → Prop} (hcaller : ∀ content, q (.callerScope content))
    (hq : ∀ n m, n.kind ≠ .slot → p n → m.shell = n.shell → q m) {n : Node} (h : n.Everywhere p) :
    Keeps (SlotContent.Each (·.Everywhere q)) (∀ m ∈ ·, m.Everywhere q) (fill n) := by
  induction n using Node.induct_children with
  | node n ih =>
    obtain ⟨hk, h⟩ := Node.everywhere_iff.1 h
    have hchild (ns) (hns : ns ∈ n.childLists) :
        Keeps (SlotContent.Each (·.Everywhere q)) (∀ m ∈ ·, m.Everywhere q) (fillAll ns) :=
      keeps_fillAll fun m hm => ih ns hns m hm (h ns hns m hm)
    by_cases hs : n.kind = .slot
    · cases n with
      | slot name fallback l =>
        refine keeps_fill_slot (fun content hc => ?_) (hchild fallback (List.mem_singleton_self _))
        exact Node.everywhere_callerScope.2 ⟨hcaller content, hc⟩
      | _ => cases hs
    · rw [fill_of_ne hs]
      exact .bind (.traverse hchild) fun m hm =>
        .pure (List.forall_mem_singleton.2 (hm.everywhere fun m => hq n m hs hk))

theorem fill_ofForms (hG : G ⟨.callerScope, none⟩) (hF : ∀ f, f.kind ≠ .slot → F f → G f)
    {n : Node} (h : n.OfForms F) :
    Keeps (SlotContent.Each (·.OfForms G)) (∀ m ∈ ·, m.OfForms G) (fill n) :=
  fill_everywhere (fun _ => hG)
    (fun n _ hs hn hm => (Node.form_of_shell hm).symm ▸ hF n.form hs hn) h

theorem fill_around {p p' u : Node → Prop} (hcaller : ∀ content, u (.callerScope content))
    (hu : ∀ n m, u n → m.shell = n.shell → u m)
    (hp : ∀ n m, n.kind ≠ .slot → p n → m.shell = n.shell → p' m) {n : Node} (h : n.Around p u) :
    Keeps (SlotContent.Each (·.Everywhere u)) (∀ m ∈ ·, m.Around p' u) (fill n) := by
  induction n using Node.induct_children with
  | node n ih =>
    by_cases hc : n.kind = .callerScope
    · have h := h.of_eq hc
      have hs : n.kind ≠ .slot := by rw [hc]; decide
      rw [fill_of_ne hs]
      refine .bind (.traverse fun ns hns => keeps_fillAll fun m hm =>
        fill_everywhere hcaller (fun n m _ => hu n m) (h ns hns m hm)) fun m hm => .pure ?_
      exact List.forall_mem_singleton.2 (.within (hm.kind.trans hc) hm.lists)
    · obtain ⟨hk, h⟩ := h.of_ne hc
      have hchild (ns) (hns : ns ∈ n.childLists) :
          Keeps (SlotContent.Each (·.Everywhere u)) (∀ m ∈ ·, m.Around p' u) (fillAll ns) :=
        keeps_fillAll fun m hm => ih ns hns m hm (h ns hns m hm)
      by_cases hs : n.kind = .slot
      · cases n with
        | slot name fallback l =>
          exact keeps_fill_slot (fun content hc => .within rfl (List.forall_mem_singleton.2 hc))
            (hchild fallback (List.mem_singleton_self _))
        | _ => cases hs
      · rw [fill_of_ne hs]
        refine .bind (.traverse hchild) fun m hm => .pure (List.forall_mem_singleton.2 ?_)
        exact .node (hm.kind ▸ hc) (hp n m hs hk hm.shell) hm.lists

theorem fillBody_around {p p' u : Node → Prop} (hcaller : ∀ content, u (.callerScope content))
    (hu : ∀ n m, u n → m.shell = n.shell → u m)
    (hp : ∀ n m, n.kind ≠ .slot → p n → m.shell = n.shell → p' m) {body : List Node}
    {content : SlotContent} (hb : ∀ n ∈ body, n.Around p u) (hc : content.Each (·.Everywhere u)) :
    ∀ n ∈ fillBody body content, n.Around p' u :=
  (keeps_fillAll (fun n hn => fill_around hcaller hu hp (hb n hn)) content hc).1

theorem fillBody_fits (hL : L .callerScope) (hK : ∀ k, k ≠ .slot → K k → K' k)
    {body : List Node} {content : SlotContent} (hb : ∀ n ∈ body, n.Fits A K L)
    (hc : content.OfKinds L) : ∀ n ∈ fillBody body content, n.Fits A K' L := by
  have hkind {n m : Node} (h : m.shell = n.shell) : m.kind = n.kind :=
    congrArg Form.kind (Node.form_of_shell h)
  refine fillBody_around (fun _ => hL) (fun n m hn hm => (hkind hm).symm ▸ hn) ?_ hb hc
  exact fun n m hs ha hm => ha.of_eq (Node.usedName?_of_shell hm) (hkind hm) (hK _ hs)

end Slots

end PageCompiler
