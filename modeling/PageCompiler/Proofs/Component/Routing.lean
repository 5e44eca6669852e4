import PageCompiler.Proofs.Component.Placement
import PageCompiler.Proofs.Component.Walk

/-!
Which slot each child of a usage is for. Slots get the expansions of what is written for them, in
the order of the source.
-/

namespace PageCompiler

open Markup (asciiLower)

namespace Text

/-! ### Names in lower case -/

theorem isUpper_iff {c : Char} : c.isUpper ↔ 65 ≤ c.toNat ∧ c.toNat ≤ 90 := by
  simp only [Char.isUpper, decide_eq_true_eq, ge_iff_le, UInt32.le_iff_toNat_le]
  rfl

theorem not_isUpper_ofNat {code : Nat} (h : code < 65 ∨ 90 < code) :
    ¬(Char.ofNat code).isUpper := by
  rw [isUpper_iff, Char.toNat_ofNat]
  split <;> omega

theorem not_isUpper_mapCase {c d : Char} (hc : 90 < c.toNat)
    (h : d ∈ mapCase lowerShifts lowerExpansions c) : ¬d.isUpper := by
  rw [mapCase] at h
  split at h
  · next codes hl =>
    have hcodes : ∀ p ∈ lowerExpansions, ∀ code ∈ p.2, ¬(Char.ofNat code).isUpper := by
      decide +kernel
    obtain ⟨code, hcode, rfl⟩ := List.mem_map.1 h
    obtain ⟨before, after, hp, -⟩ := List.lookup_eq_some_iff.1 hl
    exact hcodes (c.toNat, codes) (hp ▸ List.mem_append_right _ List.mem_cons_self) code hcode
  split at h
  · next code hs =>
    have hshifts : ∀ s ∈ lowerShifts, s.last + s.offset < 65 ∨ 90 < s.first + s.offset := by
      decide +kernel
    obtain rfl := List.mem_singleton.1 h
    obtain ⟨s, hmem, hs⟩ := List.exists_of_findSome?_eq_some hs
    rw [CaseShift.shifted?] at hs
    split at hs
    · have := hshifts s hmem
      cases hs
      exact not_isUpper_ofNat (by omega)
    · cases hs
  · obtain rfl := List.mem_singleton.1 h
    rw [isUpper_iff]
    omega

theorem not_isUpper_lowerChar {c d : Char} (h : d ∈ lowerChar c) : ¬d.isUpper := by
  rw [lowerChar] at h
  split at h
  · obtain rfl := List.mem_singleton.1 h
    simp
  · exact not_isUpper_mapCase (by omega) h

theorem not_isUpper_lowerAfter {before cs : List Char} :
    ∀ d ∈ lowerAfter before cs, ¬d.isUpper := by
  induction cs generalizing before with
  | nil => exact List.forall_mem_nil _
  | cons c cs ih =>
    rw [lowerAfter.eq_def]
    split
    · next h => cases h
    · next h =>
      cases h
      refine List.forall_mem_cons.2 ⟨?_, ih⟩
      split <;> decide
    · next h =>
      cases h
      exact List.forall_mem_append.2 ⟨fun d => not_isUpper_lowerChar, ih⟩

theorem asciiLower_lower (s : String) : asciiLower (lower s) = lower s := by
  have hmap : (lowerAfter [] s.toList).map Char.toLower = lowerAfter [] s.toList :=
    (List.map_congr_left fun d hd =>
      Char.toLower_eq_of_not_isUpper (not_isUpper_lowerAfter d hd)).trans (List.map_id _)
  rw [asciiLower, lower, String.toList_ofList, hmap]

end Text

namespace SlotContent

/-! ### Content by pieces -/

/-- The names of slots are in lower case. -/
def IsLower (named : List (String × List Node)) : Prop := ∀ p ∈ named, asciiLower p.1 = p.1

variable {named pieces : List (String × List Node)} {piece : String × List Node} {s : String}

theorem eqIgnoringAsciiCase_of_lower {n : String} (hn : asciiLower n = n) (hs : asciiLower s = s) :
    Text.eqIgnoringAsciiCase n s ↔ n = s := by
  rw [eqIgnoringAsciiCase_iff, hn, hs]

theorem IsLower.addNamed (h : IsLower named) (hp : asciiLower piece.1 = piece.1) :
    IsLower (addNamed named piece) := by
  rw [SlotContent.addNamed]
  split
  · refine List.forall_mem_map.2 fun p hmem => ?_
    dsimp only
    split <;> exact h p hmem
  · exact List.forall_mem_append.2 ⟨h, List.forall_mem_singleton.2 hp⟩

theorem takeNamed_of_lower (h : IsLower named) (hs : asciiLower s = s) :
    (takeNamed s named).1 = (named.lookup s).getD [] := by
  induction named with
  | nil => rfl
  | cons p named ih =>
    obtain ⟨n, nodes⟩ := p
    obtain ⟨hn, h⟩ := List.forall_mem_cons.1 h
    rw [takeNamed, List.lookup_cons]
    by_cases hns : n = s
    · subst hns
      simp [Text.eqIgnoringAsciiCase]
    · rw [if_neg (mt (eqIgnoringAsciiCase_of_lower hn hs).1 hns), beq_false_of_ne (Ne.symm hns)]
      exact ih h

theorem lookup_map_append (q : String) (more : List Node) (named : List (String × List Node)) :
    (named.map fun (n, nodes) => if n = q then (n, nodes ++ more) else (n, nodes)).lookup s =
      (named.lookup s).map fun nodes => if s = q then nodes ++ more else nodes := by
  induction named with
  | nil => rfl
  | cons p named ih =>
    obtain ⟨n, nodes⟩ := p
    by_cases hs : s = n
    · subst hs
      by_cases hq : s = q <;> simp [hq]
    · have hne : (s == n) = false := beq_false_of_ne hs
      by_cases hq : n = q
      · subst hq
        simp [List.lookup_cons, hne, ih]
      · simp [List.lookup_cons, hne, hq, ih]

theorem lookup_addNamed (named : List (String × List Node)) (piece : String × List Node) :
    ((addNamed named piece).lookup s).getD [] =
      (named.lookup s).getD [] ++ if piece.1 = s then piece.2 else [] := by
  obtain ⟨name, nodes⟩ := piece
  rw [addNamed]
  split
  · next hany =>
    rw [lookup_map_append]
    by_cases hs : name = s
    · subst hs
      obtain ⟨⟨n, old⟩, hmem, hn⟩ := List.any_eq_true.1 hany
      obtain rfl : n = name := of_decide_eq_true hn
      obtain ⟨old, hl⟩ : ∃ old, named.lookup n = some old :=
        Option.isSome_iff_exists.1 (List.lookup_isSome_iff.2 ⟨_, hmem, beq_self_eq_true n⟩)
      simp [hl]
    · simp [hs, Ne.symm hs]
  · next hany =>
    rw [List.lookup_append]
    by_cases hs : name = s
    · subst hs
      have hl : named.lookup name = none := by
        refine List.lookup_eq_none_iff.2 fun p hp => bne_iff_ne.2 fun hn => hany ?_
        exact List.any_eq_true.2 ⟨p, hp, decide_eq_true hn.symm⟩
      simp [hl]
    · have hne : (s == name) = false := beq_false_of_ne (Ne.symm hs)
      simp [List.lookup_cons, hne, hs]

/-- Pieces of one slot are put together in their order. -/
theorem lookup_foldl_addNamed (named pieces : List (String × List Node)) :
    ((pieces.foldl addNamed named).lookup s).getD [] =
      (named.lookup s).getD [] ++
        pieces.flatMap fun piece => if piece.1 = s then piece.2 else [] := by
  induction pieces generalizing named with
  | nil => simp
  | cons piece pieces ih =>
    rw [List.foldl_cons, ih, lookup_addNamed, List.flatMap_cons, List.append_assoc]

theorem IsLower.foldl_addNamed (h : IsLower named) (hp : IsLower pieces) :
    IsLower (pieces.foldl SlotContent.addNamed named) := by
  induction pieces generalizing named with
  | nil => exact h
  | cons piece pieces ih =>
    obtain ⟨hpiece, hp⟩ := List.forall_mem_cons.1 hp
    exact ih (h.addNamed hpiece) hp

/-- What a place gets of content that is put together from pieces. -/
theorem get_ofPieces (default : List Node) (hp : IsLower pieces) (hs : asciiLower s = s) :
    (ofPieces default pieces).get (some s) =
      pieces.flatMap fun piece => if piece.1 = s then piece.2 else [] := by
  have hlower : IsLower (ofPieces default pieces).named := IsLower.foldl_addNamed nofun hp
  rw [get, take]
  exact (takeNamed_of_lower hlower hs).trans (lookup_foldl_addNamed [] pieces)

end SlotContent

namespace Component

/-! ### Children of a usage -/

/-- The slot that a child of a usage of `parent` is for, and what of it is put there. -/
def routed (parent : String) : Node → Option String × List Node
  | .component name as children l =>
    match compoundSlot? parent name, slotAttribute? as with
    | some slot, _ => (some slot, children)
    | none, some slot => (some slot, [.component name (withoutSlot as) children l])
    | none, none => (none, [.component name as children l])
  | .element tag as children closing l =>
    match slotAttribute? as with
    | some slot => (some slot, [.element tag (withoutSlot as) children closing l])
    | none => (none, [.element tag as children closing l])
  | n => (none, [n])

/-- What is written for a slot at a usage of `parent`, in the order of the source. -/
def writtenFor (parent : String) (slot : Option String) (children : List Node) : List Node :=
  children.flatMap fun n => if (routed parent n).1 = slot then (routed parent n).2 else []

/-- The content that a usage of `parent` gives to the slots of the component. -/
def slotContent (setting : Setting) (inside : Option ExpandBody) (site : Site) (parent : String)
    (children : List Node) : Expanded SlotContent := do
  let pieces ← namedContent setting inside site parent children
  let rest ← defaultContent setting inside site parent children
  return SlotContent.ofPieces rest pieces

/-- What a slot gets at a usage of `parent`: the expansions of what is written for it. -/
def given (setting : Setting) (inside : Option ExpandBody) (site : Site) (parent : String)
    (children : List Node) (slot : Option String) : List Node :=
  (writtenFor parent slot children).map fun n => (expand setting inside site n).value

theorem asciiLower_compoundSlot? {parent name slot : String}
    (h : compoundSlot? parent name = some slot) : asciiLower slot = slot := by
  rw [compoundSlot?] at h
  split at h
  · split at h
    · cases h
    · rw [← Option.some.inj h, Text.asciiLower_lower]
  · cases h

theorem asciiLower_slotAttribute? {as : List Attribute} {slot : String}
    (h : slotAttribute? as = some slot) : asciiLower slot = slot := by
  obtain ⟨a, -, h⟩ := List.exists_of_findSome?_eq_some h
  rw [slotNamed?] at h
  split at h
  · split at h
    · rw [← Option.some.inj h, Text.asciiLower_lower]
    · cases h
  · cases h

theorem asciiLower_routed {parent : String} {n : Node} {slot : String}
    (h : (routed parent n).1 = some slot) : asciiLower slot = slot := by
  cases n with
  | component name as children l =>
    rw [routed] at h
    split at h
    · next hc =>
      cases h
      exact asciiLower_compoundSlot? hc
    · next hs =>
      cases h
      exact asciiLower_slotAttribute? hs
    · cases h
  | element tag as children closing l =>
    rw [routed] at h
    split at h
    · next hs =>
      cases h
      exact asciiLower_slotAttribute? hs
    · cases h
  | _ => cases h

theorem isNamedContent_iff {parent : String} {n : Node} :
    isNamedContent parent n ↔ (routed parent n).1 ≠ none := by
  cases n with
  | component name as children l =>
    rw [isNamedContent, routed]
    split <;> simp_all
  | element tag as children closing l =>
    rw [isNamedContent, routed]
    split <;> simp_all
  | _ => simp [isNamedContent, routed]

theorem routed_of_none {parent : String} {n : Node} (h : (routed parent n).1 = none) :
    routed parent n = (none, [n]) := by
  cases n with
  | component name as children l =>
    rw [routed] at h ⊢
    split <;> simp_all
  | element tag as children closing l =>
    rw [routed] at h ⊢
    split <;> simp_all
  | _ => rfl

theorem slotKey_routed (parent : String) (n : Node) :
    slotKey (routed parent n).1 = (routed parent n).1 := by
  cases h : (routed parent n).1 with
  | some slot => exact congrArg some (asciiLower_routed h)
  | none => rfl

variable {setting : Setting} {inside : Option ExpandBody} {site : Site}

theorem expand_component (name : String) (as : List Attribute) (children : List Node)
    (l : Location) : expand setting inside site (.component name as children l) =
      useName setting inside site name as (slotContent setting inside site name children) l := by
  rw [expand]
  rfl

theorem value_expandAll (ns : List Node) : (expandAll setting inside site ns).value =
    ns.map fun n => (expand setting inside site n).value := by
  induction ns with
  | nil => rfl
  | cons n ns ih =>
    rw [expandAll, List.map_cons, ← ih]
    rfl

theorem expandAll_singleton (n : Node) : expandAll setting inside site [n] =
    do return [← expand setting inside site n] := by
  simp [expandAll]

/-- Named content is what is written for its slot, expanded. -/
theorem namedContent_cons (parent : String) (n : Node) (ns : List Node) :
    namedContent setting inside site parent (n :: ns) =
      match (routed parent n).1 with
      | some slot => do
        let nodes ← expandAll setting inside site (routed parent n).2
        return (slot, nodes) :: (← namedContent setting inside site parent ns)
      | none => namedContent setting inside site parent ns := by
  cases n with
  | component name as children l =>
    rw [namedContent, routed]
    cases compoundSlot? parent name with
    | some slot => rfl
    | none =>
      cases slotAttribute? as with
      | some slot =>
        dsimp only
        rw [expandAll_singleton, expand_component, bind_assoc]
        simp only [pure_bind]
        rfl
      | none => rfl
  | element tag as children closing l =>
    rw [namedContent, routed]
    cases slotAttribute? as with
    | some slot =>
      dsimp only
      rw [expandAll_singleton, expand]
      simp only [bind_assoc, pure_bind]
    | none => rfl
  | _ => rfl

theorem defaultContent_cons (parent : String) (n : Node) (ns : List Node) :
    defaultContent setting inside site parent (n :: ns) =
      match (routed parent n).1 with
      | some _ => defaultContent setting inside site parent ns
      | none => do
        let n ← expand setting inside site n
        return n :: (← defaultContent setting inside site parent ns) := by
  rw [defaultContent]
  cases hn : (routed parent n).1 with
  | some slot => rw [if_pos (isNamedContent_iff.2 (by simp [hn]))]
  | none => rw [if_neg (by simp [isNamedContent_iff, hn])]

/-- A child as a piece of content, if it is for a named slot. -/
def piece? (setting : Setting) (inside : Option ExpandBody) (site : Site) (parent : String)
    (n : Node) : Option (String × List Node) :=
  (routed parent n).1.map fun slot =>
    (slot, (routed parent n).2.map fun n => (expand setting inside site n).value)

theorem value_namedContent (parent : String) (children : List Node) :
    (namedContent setting inside site parent children).value =
      children.filterMap (piece? setting inside site parent) := by
  induction children with
  | nil => rfl
  | cons n ns ih =>
    rw [namedContent_cons, List.filterMap_cons, ← ih, piece?]
    cases (routed parent n).1 with
    | some slot =>
      rw [Option.map_some, ← value_expandAll]
      rfl
    | none => rfl

theorem value_defaultContent (parent : String) (children : List Node) :
    (defaultContent setting inside site parent children).value =
      given setting inside site parent children none := by
  induction children with
  | nil => rfl
  | cons n ns ih =>
    rw [defaultContent_cons, given, writtenFor, List.flatMap_cons]
    cases hn : (routed parent n).1 with
    | some slot =>
      rw [if_neg (by simp), List.nil_append]
      exact ih
    | none =>
      rw [routed_of_none hn, if_pos rfl, List.singleton_append, List.map_cons]
      exact congrArg (_ :: ·) ih

theorem isLower_pieces (parent : String) (children : List Node) :
    SlotContent.IsLower (namedContent setting inside site parent children).value := by
  rw [value_namedContent]
  intro p hp
  obtain ⟨n, -, hn⟩ := List.mem_filterMap.1 hp
  obtain ⟨slot, hr, rfl⟩ := Option.map_eq_some_iff.1 hn
  exact asciiLower_routed hr

theorem isLower_slotContent (parent : String) (children : List Node) :
    SlotContent.IsLower (slotContent setting inside site parent children).value.named :=
  SlotContent.IsLower.foldl_addNamed nofun (isLower_pieces parent children)

/-- A slot gets the expansions of what is written for it. -/
theorem get_slotContent (parent : String) (children : List Node) {slot : Option String}
    (hs : slotKey slot = slot) :
    (slotContent setting inside site parent children).value.get slot =
      given setting inside site parent children slot := by
  cases slot with
  | none => exact value_defaultContent parent children
  | some slot =>
    have hvalue : (slotContent setting inside site parent children).value =
        .ofPieces (defaultContent setting inside site parent children).value
          (namedContent setting inside site parent children).value := rfl
    rw [hvalue, SlotContent.get_ofPieces _ (isLower_pieces parent children)
      (by simpa [slotKey] using hs), value_namedContent, given, writtenFor, List.map_flatMap,
      List.filterMap_eq_flatMap_toList, List.flatMap_assoc]
    refine List.flatMap_congr fun n _ => ?_
    rw [piece?]
    cases (routed parent n).1 with
    | some other => by_cases ho : other = slot <;> simp [ho]
    | none => simp

theorem diagnostics_expandAll (ns : List Node) : (expandAll setting inside site ns).diagnostics =
    ns.flatMap fun n => (expand setting inside site n).diagnostics := by
  induction ns with
  | nil => rfl
  | cons n ns ih =>
    rw [expandAll, List.flatMap_cons, ← ih]
    exact congrArg (_ ++ ·) (List.append_nil _)

theorem diagnostics_namedContent (parent : String) (children : List Node) :
    (namedContent setting inside site parent children).diagnostics =
      children.flatMap fun n =>
        if (routed parent n).1 = none then []
        else (expandAll setting inside site (routed parent n).2).diagnostics := by
  induction children with
  | nil => rfl
  | cons n ns ih =>
    rw [namedContent_cons, List.flatMap_cons, ← ih]
    cases (routed parent n).1 with
    | some slot => exact congrArg (_ ++ ·) (List.append_nil _)
    | none => rfl

theorem diagnostics_defaultContent (parent : String) (children : List Node) :
    (defaultContent setting inside site parent children).diagnostics =
      children.flatMap fun n =>
        if (routed parent n).1 = none then (expand setting inside site n).diagnostics else [] := by
  induction children with
  | nil => rfl
  | cons n ns ih =>
    rw [defaultContent_cons, List.flatMap_cons, ← ih]
    cases (routed parent n).1 with
    | some slot => rfl
    | none => exact congrArg (_ ++ ·) (List.append_nil _)

/-- Where nothing is reported for the content of a usage, nothing is reported for any part of it. -/
theorem diagnostics_routed {parent : String} {children : List Node}
    (h : (slotContent setting inside site parent children).diagnostics = []) {n m : Node}
    (hn : n ∈ children) (hm : m ∈ (routed parent n).2) :
    (expand setting inside site m).diagnostics = [] := by
  obtain ⟨hnamed, hrest⟩ := List.append_eq_nil_iff.1 h
  cases hr : (routed parent n).1 with
  | some slot =>
    rw [diagnostics_namedContent, List.flatMap_eq_nil_iff] at hnamed
    have hall := hnamed n hn
    rw [if_neg (by simp [hr]), diagnostics_expandAll, List.flatMap_eq_nil_iff] at hall
    exact hall m hm
  | none =>
    have hdefault := (List.append_eq_nil_iff.1 hrest).1
    rw [diagnostics_defaultContent, List.flatMap_eq_nil_iff] at hdefault
    have hone := hdefault n hn
    rw [if_pos hr] at hone
    rw [routed_of_none hr] at hm
    exact List.mem_singleton.1 hm ▸ hone

end Component

end PageCompiler
