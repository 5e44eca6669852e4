import PageCompiler.Proofs.Component.Placement

/-!
Which places of a body are filled. Main statement: the content of each slot goes into the first
place for it, in the order of the document, that is not in the fallback of a filled place; all
other places become their fallbacks, and nothing else changes.
-/

namespace PageCompiler

namespace Node

/-- The slots in the nodes `ns`, at any depth. -/
def slotsIn (ns : List Node) : List Node := (listDescendants ns).filter fun n => n.kind = .slot

theorem slotsIn_append (ns ms : List Node) : slotsIn (ns ++ ms) = slotsIn ns ++ slotsIn ms := by
  rw [slotsIn, listDescendants_eq, List.flatMap_append, List.filter_append, ← listDescendants_eq,
    ← listDescendants_eq]
  rfl

theorem slotsIn_singleton {n : Node} (h : n.kind ≠ .slot) :
    slotsIn [n] = n.childLists.flatMap slotsIn := by
  rw [slotsIn, listDescendants, listDescendants, List.append_nil, descendants_eq,
    List.filter_cons, if_neg (mt of_decide_eq_true h), List.filter_flatMap]
  rfl

end Node

namespace Slots

open Node (slotsIn)

/-- A place that the walk through a body comes to: its slot, and whether it gets content. -/
structure Place where
  slot : Option String
  filled : Bool

/-- The nodes `ns` become `ms` when the places in them, in the order of the document, are filled or
not. Places in the fallback of a filled place are none of them. -/
inductive Becomes (content : Option String → List Node) :
    List Node → List Place → List Node → Prop
  | nil : Becomes content [] [] []
  | append : Becomes content ns ps ms → Becomes content ns' ps' ms' →
    Becomes content (ns ++ ns') (ps ++ ps') (ms ++ ms')
  | filled : Becomes content [.slot name fallback l] [⟨name, true⟩] [.callerScope (content name)]
  | fallback : Becomes content fallback ps ms →
    Becomes content [.slot name fallback l] (⟨name, false⟩ :: ps) ms
  /-- Any other node stays as it is, and the lists below it become what `below` says. -/
  | node (below : List (List Node × List Place × List Node)) : n.kind ≠ .slot →
    m.shell = n.shell → n.childLists = below.map (·.1) → m.childLists = below.map (·.2.2) →
    (∀ b ∈ below, Becomes content b.1 b.2.1 b.2.2) →
    Becomes content [n] (below.flatMap (·.2.1)) [m]

/-- A place is filled if there is content for its slot and no place in front of it is for it. -/
def FillsFirst (c : SlotContent) (ps : List Place) : Prop :=
  ∀ before p after, ps = before ++ p :: after →
    (p.filled ↔ c.Has p.slot ∧ ∀ q ∈ before, slotKey q.slot ≠ slotKey p.slot)

section Becomes

variable {content content' : Option String → List Node} {ns ms : List Node} {ps : List Place}

theorem Becomes.congr (h : Becomes content ns ps ms)
    (hc : ∀ p ∈ ps, p.filled → content p.slot = content' p.slot) : Becomes content' ns ps ms := by
  induction h with
  | nil => exact .nil
  | append _ _ ih ih' =>
    rw [List.forall_mem_append] at hc
    exact .append (ih hc.1) (ih' hc.2)
  | @filled name fallback l =>
    rw [hc _ (List.mem_singleton_self _) rfl]
    exact .filled
  | fallback _ ih => exact .fallback (ih (List.forall_mem_cons.1 hc).2)
  | node below hs hm hn hms _ ih =>
    rw [List.forall_mem_flatMap] at hc
    exact .node below hs hm hn hms fun b hb => ih b hb (hc b hb)

/-- No slot is left but those in the content that is put in. -/
theorem Becomes.slotsIn_eq (h : Becomes content ns ps ms) :
    slotsIn ms = (ps.filter (·.filled)).flatMap fun p => slotsIn (content p.slot) := by
  induction h with
  | nil => rfl
  | append _ _ ih ih' =>
    rw [Node.slotsIn_append, ih, ih', List.filter_append, List.flatMap_append]
  | filled =>
    rw [Node.slotsIn_singleton (by simp)]
    rfl
  | fallback _ ih => exact ih
  | @node n m below hs hm _ hms _ ih =>
    have hkind : m.kind = n.kind := congrArg Node.Form.kind (Node.form_of_shell hm)
    rw [Node.slotsIn_singleton (hkind ▸ hs), hms, List.flatMap_map, List.filter_flatMap,
      List.flatMap_assoc]
    exact List.flatMap_congr ih

end Becomes

theorem FillsFirst.nodup {c : SlotContent} (h : FillsFirst c ps) :
    ((ps.filter (·.filled)).map (slotKey ·.slot)).Nodup := by
  induction ps using List.reverseRecOn with
  | nil => exact .nil
  | append_singleton ps p ih =>
    have hps : FillsFirst c ps := fun before q after hq => h before q (after ++ [p]) (by simp [hq])
    rw [List.filter_append, List.map_append]
    refine List.nodup_append'.2 ⟨ih hps, ?_, ?_⟩
    · cases hp : p.filled <;> simp [hp]
    · cases hp : p.filled with
      | false => simp [hp]
      | true =>
        have hnew := ((h ps p [] rfl).1 hp).2
        simpa [hp, List.disjoint_singleton] using fun q hq _ => hnew q hq

/-- The content `c'` is what is left of `c` behind the places `ps`. -/
structure Passes (c : SlotContent) (ps : List Place) (c' : SlotContent) : Prop where
  first : FillsFirst c ps
  taken : ∀ p ∈ ps, c'.get p.slot = []
  kept : ∀ s, (∀ p ∈ ps, slotKey p.slot ≠ slotKey s) → c'.get s = c.get s

namespace Passes

variable {c c' c'' : SlotContent} {ps ps' : List Place}

theorem nil (c : SlotContent) : Passes c [] c where
  first before p after h := by simp at h
  taken := nofun
  kept _ _ := rfl

theorem here {name : Option String} {filled : Bool} (h : filled ↔ c.Has name) :
    Passes c [⟨name, filled⟩] (c.take name).2 where
  first before p after hps := by
    obtain ⟨rfl, rfl, rfl⟩ : before = [] ∧ p = ⟨name, filled⟩ ∧ after = [] := by
      cases before <;> simp_all
    simpa using h
  taken := List.forall_mem_singleton.2 (by rw [SlotContent.get_take, if_pos rfl])
  kept s hs := by
    rw [SlotContent.get_take, if_neg (Ne.symm (hs _ (List.mem_singleton_self _)))]

theorem get_of_mem (h : Passes c ps c') {p : Place} {s : Option String} (hp : p ∈ ps)
    (hk : slotKey p.slot = slotKey s) : c'.get s = [] := by
  rw [← SlotContent.get_congr hk, h.taken p hp]

theorem has_iff (h : Passes c ps c') (s : Option String) :
    c'.Has s ↔ c.Has s ∧ ∀ p ∈ ps, slotKey p.slot ≠ slotKey s := by
  by_cases hs : ∀ p ∈ ps, slotKey p.slot ≠ slotKey s
  · rw [SlotContent.Has, h.kept s hs, and_iff_left hs, SlotContent.Has]
  · simp only [hs, and_false, iff_false]
    simp only [not_forall, not_not] at hs
    obtain ⟨p, hp, hk⟩ := hs
    simp [SlotContent.Has, h.get_of_mem hp hk]

/-- The content of a filled place was there in front of the other places. -/
theorem get_eq (h : Passes c ps c') (h' : FillsFirst c' ps') {p : Place} (hp : p ∈ ps')
    (hf : p.filled) : c'.get p.slot = c.get p.slot := by
  obtain ⟨before, after, hps⟩ := List.append_of_mem hp
  exact h.kept _ ((h.has_iff _).1 ((h' before p after hps).1 hf).1).2

theorem append_first (h : Passes c ps c') (h' : FillsFirst c' ps') : FillsFirst c (ps ++ ps') := by
  have hlater (before : List Place) (p : Place) (after : List Place)
      (hp : ps' = before ++ p :: after) : p.filled ↔
        c.Has p.slot ∧ ∀ q ∈ ps ++ before, slotKey q.slot ≠ slotKey p.slot := by
    rw [h' before p after hp, h.has_iff, List.forall_mem_append, and_assoc]
  intro before p after hps
  obtain ⟨more, rfl, hmore⟩ | ⟨more, hmore, hps'⟩ := List.append_eq_append_iff.1 hps
  · exact hlater more p after hmore
  · cases more with
    | nil =>
      rw [List.append_nil] at hmore
      rw [← hmore]
      simpa using hlater [] p after hps'.symm
    | cons q more =>
      obtain ⟨rfl, -⟩ := List.cons.inj hps'
      exact h.first before p more hmore

theorem append (h : Passes c ps c') (h' : Passes c' ps' c'') : Passes c (ps ++ ps') c'' where
  first := h.append_first h'.first
  taken := by
    refine List.forall_mem_append.2 ⟨fun p hp => ?_, h'.taken⟩
    by_cases hs : ∀ q ∈ ps', slotKey q.slot ≠ slotKey p.slot
    · rw [h'.kept _ hs, h.taken p hp]
    · simp only [not_forall, not_not] at hs
      obtain ⟨q, hq, hk⟩ := hs
      exact h'.get_of_mem hq hk
  kept s hs := by
    rw [List.forall_mem_append] at hs
    rw [h'.kept s hs.2, h.kept s hs.1]

end Passes

/-- From the content `c` the nodes `ns` become `ms` over the places `ps`, and `c'` is left. -/
structure Walks (ns : List Node) (c : SlotContent) (ps : List Place) (ms : List Node)
    (c' : SlotContent) : Prop where
  becomes : Becomes c.get ns ps ms
  passes : Passes c ps c'

namespace Walks

variable {ns ns' ms ms' : List Node} {c c' c'' : SlotContent} {ps ps' : List Place}

theorem append (h : Walks ns c ps ms c') (h' : Walks ns' c' ps' ms' c'') :
    Walks (ns ++ ns') c (ps ++ ps') (ms ++ ms') c'' where
  becomes := .append h.becomes <|
    h'.becomes.congr fun _ hp hf => h.passes.get_eq h'.passes.first hp hf
  passes := h.passes.append h'.passes

/-- A place without content shows its fallback. -/
theorem fallback {name : Option String} {fallback : List Node} {l : Location} (hn : ¬c.Has name)
    (h : Walks fallback (c.take name).2 ps ms c') :
    Walks [.slot name fallback l] c (⟨name, false⟩ :: ps) ms c' :=
  have here : Passes c [⟨name, false⟩] (c.take name).2 := .here (iff_of_false Bool.false_ne_true hn)
  ⟨.fallback (h.becomes.congr fun _ hp hf => here.get_eq h.passes.first hp hf),
    here.append h.passes⟩

theorem of_steps {lists outs : List (List Node)} (h : Steps (Runs fillAll) lists c outs c')
    (hw : ∀ ns ∈ lists, ∀ c, ∃ ps, Walks ns c ps ((fillAll ns).run c).1 ((fillAll ns).run c).2) :
    ∃ below : List (List Node × List Place × List Node),
      lists = below.map (·.1) ∧ outs = below.map (·.2.2) ∧
      (∀ b ∈ below, Becomes c.get b.1 b.2.1 b.2.2) ∧
      Passes c (below.flatMap (·.2.1)) c' := by
  induction h with
  | nil => exact ⟨[], rfl, rfl, nofun, .nil _⟩
  | @cons ns c ms c' lists outs c'' hr _ ih =>
    rw [List.forall_mem_cons] at hw
    obtain ⟨ps, h⟩ := hw.1 c
    rw [Runs] at hr
    rw [hr] at h
    obtain ⟨below, rfl, rfl, hb, h'⟩ := ih hw.2
    refine ⟨(ns, ps, ms) :: below, rfl, rfl, List.forall_mem_cons.2 ⟨h.becomes, ?_⟩,
      h.passes.append h'⟩
    refine fun b hmem => (hb b hmem).congr fun p hp hf => ?_
    exact h.passes.get_eq h'.first (List.mem_flatMap.2 ⟨b, hmem, hp⟩) hf

/-- Any other node stays, and the lists below it are walked through one after the other. -/
theorem node {n m : Node} (hs : n.kind ≠ .slot) (hm : m.shell = n.shell)
    (h : Steps (Runs fillAll) n.childLists c m.childLists c')
    (hw : ∀ ns ∈ n.childLists, ∀ c, ∃ ps,
      Walks ns c ps ((fillAll ns).run c).1 ((fillAll ns).run c).2) :
    ∃ ps, Walks [n] c ps [m] c' := by
  obtain ⟨below, hn, hms, hb, h⟩ := of_steps h hw
  exact ⟨_, .node below hs hm hn hms hb, h⟩

end Walks

end Slots

end PageCompiler
