import PageCompiler.Proofs.Markup
import PageCompiler.Template

/-!
Directives change no form of a node: what is left of a tree, and what is taken out of it, has the
forms of the tree. A page has no slot then, and comments may stand where none were.
-/

namespace PageCompiler

open Node (Form)

variable {F G : Form → Prop}

namespace Template

theorem forall_mem_stripAll {p : Node → Prop} {role : Role} {ns : List Node}
    (h : ∀ n ∈ ns, ∀ m ∈ strip role n, p m) : ∀ m ∈ stripAll role ns, p m := by
  induction ns with
  | nil => exact List.forall_mem_nil _
  | cons n ns ih =>
    rw [List.forall_mem_cons] at h
    exact List.forall_mem_append.2 ⟨h.1, ih h.2⟩

theorem stripBranches_eq (role : Role) (bs : List (String × List Node)) :
    stripBranches role bs = bs.map fun b => (b.1, stripAll role b.2) := by
  induction bs with
  | nil => rfl
  | cons b bs ih => rw [stripBranches, ih, List.map_cons]

theorem stripAll_eq (role : Role) (ns : List Node) :
    stripAll role ns = ns.flatMap (strip role) := by
  induction ns with
  | nil => rfl
  | cons n ns ih => rw [stripAll, ih, List.flatMap_cons]

/-- Only elements and slots are not simply kept. -/
theorem strip_of_ne {n : Node} (he : n.kind ≠ .element) (hs : n.kind ≠ .slot) (role : Role) :
    strip role n = [n.mapChildren (stripAll role)] := by
  cases n with
  | element => exact absurd rfl he
  | slot => exact absurd rfl hs
  | conditional branches alternate d l =>
    cases alternate <;> rw [strip, stripBranches_eq] <;> rfl
  | _ => rfl

/-- The node is no directive, and no slot of a page. -/
def IsKept (role : Role) : Node → Prop
  | .element tag as children _ _ => directive? tag as children = none
  | .slot .. => role ≠ .page
  | _ => True

theorem IsKept.ne_page {role : Role} {n : Node} (h : IsKept role n) (hs : n.kind = .slot) :
    role ≠ .page := by
  cases n with
  | slot => exact h
  | _ => cases hs

theorem strip_of_isKept {role : Role} {n : Node} (h : IsKept role n) :
    strip role n = [n.mapChildren (stripAll role)] := by
  cases n with
  | element tag as children closing l =>
    have hd : directive? tag as children = none := h
    rw [strip, hd]
    rfl
  | slot name fallback l =>
    cases role with
    | page => exact absurd rfl h
    | component | layout => rfl
  | _ => exact strip_of_ne (by nofun) (by nofun) role

/-- A node that is kept is the same but for the nodes below it, and what else is left are
comments. -/
theorem strip_everywhere {p q : Node → Prop} {role : Role} (hc : ∀ s, q (.newComment s))
    (hq : ∀ n f, IsKept role n → p n → q (n.mapChildren f)) {n : Node} (h : n.Everywhere p) :
    ∀ m ∈ strip role n, m.Everywhere q := by
  induction n using Node.induct_children with
  | node n ih =>
    obtain ⟨hk, h⟩ := Node.everywhere_iff.1 h
    have hchild : ∀ ns ∈ n.childLists, ∀ m ∈ stripAll role ns, m.Everywhere q :=
      fun ns hns => forall_mem_stripAll fun m hm => ih ns hns m hm (h ns hns m hm)
    have hcomment (s : String) : (Node.newComment s).Everywhere q :=
      Node.everywhere_comment.2 (hc s)
    have hkept (hn : IsKept role n) : ∀ m ∈ strip role n, m.Everywhere q := by
      rw [strip_of_isKept hn]
      exact List.forall_mem_singleton.2 (Node.everywhere_mapChildren (hq n _ hn hk) hchild)
    cases n with
    | element tag as children closing l =>
      cases hd : directive? tag as children with
      | none => exact hkept hd
      | some d =>
        rw [strip, hd]
        refine List.forall_mem_append.2 ⟨?_, ?_⟩
        · unfold Directive.marker
          split
          · exact List.forall_mem_singleton.2 (hcomment _)
          · exact List.forall_mem_nil _
        · split
          · exact hchild children (List.mem_singleton_self _)
          · exact List.forall_mem_nil _
    | slot name fallback l =>
      cases role with
      | page =>
        refine List.forall_mem_singleton.2 ?_
        cases name <;> exact hcomment _
      | component | layout => exact hkept nofun
    | _ => exact hkept trivial

theorem strip_ofForms {role : Role} (hc : G ⟨.comment, none⟩)
    (hF : ∀ f, (f.kind = .slot → role ≠ .page) → F f → G f) {n : Node} (h : n.OfForms F) :
    ∀ m ∈ strip role n, m.OfForms G :=
  strip_everywhere (fun _ => hc)
    (fun n f hk hn => (Node.form_mapChildren f n).symm ▸ hF n.form hk.ne_page hn) h

theorem forall_mem_stampAll {p : Node → Prop} {attr : String} {ns : List Node}
    (h : ∀ n ∈ ns, p (stamp attr n)) : ∀ m ∈ stampAll attr ns, p m := by
  induction ns with
  | nil => exact List.forall_mem_nil _
  | cons n ns ih =>
    rw [List.forall_mem_cons] at h
    exact List.forall_mem_cons.2 ⟨h.1, ih h.2⟩

theorem stampBranches_eq (attr : String) (bs : List (String × List Node)) :
    stampBranches attr bs = bs.map fun b => (b.1, stampAll attr b.2) := by
  induction bs with
  | nil => rfl
  | cons b bs ih => rw [stampBranches, ih, List.map_cons]

theorem stamp_of_ne {n : Node} (he : n.kind ≠ .element) (attr : String) :
    stamp attr n = n.mapChildren (stampAll attr) := by
  cases n with
  | element => exact absurd rfl he
  | conditional branches alternate d l =>
    cases alternate <;> rw [stamp, stampBranches_eq] <;> rfl
  | _ => rfl

theorem stamp_everywhere {p q : Node → Prop} {attr : String}
    (hstamp : ∀ tag as children closing l, p (.element tag as children closing l) →
      ∀ more ⊆ [Attribute.new attr .bare], ∀ cs, q (.element tag (as ++ more) cs closing l))
    (hq : ∀ n f, n.kind ≠ .element → p n → q (n.mapChildren f)) {n : Node} (h : n.Everywhere p) :
    (stamp attr n).Everywhere q := by
  induction n using Node.induct_children with
  | node n ih =>
    obtain ⟨hk, h⟩ := Node.everywhere_iff.1 h
    have hchild : ∀ ns ∈ n.childLists, ∀ m ∈ stampAll attr ns, m.Everywhere q :=
      fun ns hns => forall_mem_stampAll fun m hm => ih ns hns m hm (h ns hns m hm)
    cases n with
    | element tag as children closing l =>
      refine Node.everywhere_element.2 ⟨?_, hchild children (List.mem_singleton_self _)⟩
      have hq := hstamp tag as children closing l hk
      split
      · simpa using hq [] (List.nil_subset _) (stampAll attr children)
      · exact hq _ (List.Subset.refl _) _
    | _ =>
      rw [stamp_of_ne (by nofun)]
      exact Node.everywhere_mapChildren (hq _ _ nofun hk) hchild

theorem stamp_ofForms (attr : String) {n : Node} (h : n.OfForms F) : (stamp attr n).OfForms F :=
  stamp_everywhere (fun _ _ _ _ _ h _ _ _ => h)
    (fun n f _ hn => (Node.form_mapChildren f n).symm ▸ hn) h

theorem foundInAll_eq (role : Role) (ns : List Node) :
    foundInAll role ns = ns.flatMap (found role) := by
  induction ns with
  | nil => rfl
  | cons n ns ih => rw [foundInAll, ih, List.flatMap_cons]

theorem foundInBranches_eq (role : Role) (bs : List (String × List Node)) :
    foundInBranches role bs = (bs.map Prod.snd).flatMap (foundInAll role) := by
  induction bs with
  | nil => rfl
  | cons b bs ih => rw [foundInBranches, ih, List.map_cons, List.flatMap_cons]

theorem found_of_ne {n : Node} (he : n.kind ≠ .element) (hs : n.kind ≠ .slot) (role : Role) :
    found role n = n.childLists.flatMap (foundInAll role) := by
  cases n with
  | element => exact absurd rfl he
  | slot => exact absurd rfl hs
  | conditional branches alternate d l =>
    cases alternate <;> rw [found, foundInBranches_eq] <;> simp [Node.childLists]
  | text | expression | comment | doctype | error => rfl
  | _ => exact (List.append_nil _).symm

theorem found_of_isKept {role : Role} {n : Node} (h : IsKept role n) :
    found role n = n.childLists.flatMap (foundInAll role) := by
  cases n with
  | element tag as children closing l =>
    have hd : directive? tag as children = none := h
    rw [found, hd]
    exact (List.append_nil _).symm
  | slot name fallback l =>
    cases role with
    | page => exact absurd rfl h
    | component | layout => exact (List.append_nil _).symm
  | _ => exact found_of_ne (by nofun) (by nofun) role

/-- A directive is an element of the tree. -/
theorem exists_element_of_found (role : Role) {n : Node} {f : Finding} (h : f ∈ found role n) :
    ∃ tag as closing, .element tag as f.content closing f.location ∈ n.descendants ∧
      directive? tag as f.content = some f.directive := by
  induction n using Node.induct_children with
  | node n ih =>
    have hchild (ns) (hns : ns ∈ n.childLists) (h : f ∈ foundInAll role ns) :
        ∃ tag as closing, .element tag as f.content closing f.location ∈ n.descendants ∧
          directive? tag as f.content = some f.directive := by
      rw [foundInAll_eq] at h
      obtain ⟨m, hm, h⟩ := List.mem_flatMap.1 h
      obtain ⟨tag, as, closing, hmem, hd⟩ := ih ns hns m hm h
      exact ⟨tag, as, closing, Node.mem_descendants.2 (.inr ⟨ns, hns, m, hm, hmem⟩), hd⟩
    cases n with
    | element tag as children closing l =>
      have hchild := hchild children (List.mem_singleton_self _)
      rw [found] at h
      split at h
      · next d hd =>
        obtain rfl | h := List.mem_cons.1 h
        · exact ⟨tag, as, closing, Node.mem_descendants.2 (.inl rfl), hd⟩
        · split at h
          · exact hchild h
          · cases h
      · exact hchild h
    | slot name fallback l =>
      cases role with
      | page => cases h
      | component | layout => exact hchild fallback (List.mem_singleton_self _) h
    | _ =>
      rw [found_of_ne (by nofun) (by nofun)] at h
      obtain ⟨ns, hns, h⟩ := List.mem_flatMap.1 h
      exact hchild ns hns h

theorem found_ofForms (role : Role) {n : Node} (h : n.OfForms F) :
    ∀ f ∈ found role n, ∀ m ∈ f.content, m.OfForms F := by
  intro f hf
  obtain ⟨tag, as, closing, hmem, -⟩ := exists_element_of_found role hf
  exact (Node.everywhere_element.1 (h.below hmem)).2

structure FindingsOfForms (F : Form → Prop) (fs : Findings) : Prop where
  inline : ∀ c ∈ fs.inlineComponents, ∀ n ∈ c.nodes, n.OfForms F
  early : ∀ d ∈ fs.diagnostics, d.IsEarly

theorem addTo_ofForms (path : String) {fs : Findings} {f : Finding} (h : FindingsOfForms F fs)
    (hf : ∀ n ∈ f.content, n.OfForms F) : FindingsOfForms F (f.addTo path fs) := by
  have note {severity : Severity} {problem : Problem} {message : String} :
      ∀ d ∈ fs.diagnostics ++
        [(Diagnostic.new .normalize problem severity message).placed path f.location],
        d.IsEarly :=
    List.forall_mem_append.2 ⟨h.early, List.forall_mem_singleton.2 nofun⟩
  unfold Finding.addTo
  dsimp only
  split
  · split
    · exact ⟨h.inline, note⟩
    · exact ⟨h.inline, h.early⟩
  · exact ⟨h.inline, h.early⟩
  · exact ⟨h.inline, note⟩
  · split
    · exact ⟨h.inline, note⟩
    · exact ⟨h.inline, h.early⟩
  · exact ⟨List.forall_mem_append.2 ⟨h.inline, List.forall_mem_singleton.2 hf⟩, h.early⟩
  · exact ⟨h.inline, note⟩
  · split
    · exact h
    · exact ⟨h.inline, h.early⟩
  · exact ⟨h.inline, h.early⟩
  · split
    · exact h
    · exact ⟨h.inline, h.early⟩
  · exact ⟨h.inline, note⟩

theorem findingsOf_ofForms (path : String) {found : List Finding}
    (h : ∀ f ∈ found, ∀ n ∈ f.content, n.OfForms F) :
    FindingsOfForms F (findingsOf path found) := by
  suffices hs : ∀ fs, FindingsOfForms F fs →
      FindingsOfForms F (found.foldl (Finding.addTo path) fs) from
    hs _ ⟨List.forall_mem_nil _, List.forall_mem_nil _⟩
  induction found with
  | nil => exact fun _ h => h
  | cons f found ih =>
    rw [List.forall_mem_cons] at h
    exact fun fs hfs => ih h.2 _ (addTo_ofForms path hfs h.1)

theorem ofNodes_findings (role : Role) (path : String) {nodes : List Node}
    (h : ∀ n ∈ nodes, n.OfForms F) :
    FindingsOfForms F (ofNodes role path nodes).findings := by
  have hf : ∀ f ∈ foundInAll role nodes, ∀ n ∈ f.content, n.OfForms F := by
    rw [foundInAll_eq]
    exact List.forall_mem_flatMap.2 fun n hn => found_ofForms role (h n hn)
  unfold ofNodes
  dsimp only
  split
  · exact findingsOf_ofForms path hf
  · exact findingsOf_ofForms path hf

theorem ofNodes_ofForms (role : Role) (path : String) (hc : G ⟨.comment, none⟩)
    (hF : ∀ f, (f.kind = .slot → role ≠ .page) → F f → G f) {nodes : List Node}
    (h : ∀ n ∈ nodes, n.OfForms F) : ∀ n ∈ (ofNodes role path nodes).nodes, n.OfForms G := by
  have hs := forall_mem_stripAll fun n hn => strip_ofForms hc hF (h n hn)
  unfold ofNodes
  dsimp only
  split
  · exact hs
  · exact forall_mem_stampAll fun n hn => stamp_ofForms _ (hs n hn)

end Template

end PageCompiler
