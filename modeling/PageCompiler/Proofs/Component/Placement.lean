import Mathlib
import PageCompiler.Proofs.Component.Filling
import PageCompiler.Proofs.Markup

/-!
What becomes of the content of slots when it is put into the body of a component. The content of a
slot is placed as a whole and at most once. It is placed if the body has a place for the slot that
does not stand in the fallback of a place with content.
-/

namespace PageCompiler

open Markup (asciiLower)

/-- Slots are told apart by their names without regard to the case of ASCII letters. -/
def slotKey (slot : Option String) : Option String := slot.map asciiLower

theorem asciiLower_asciiLower (s : String) : asciiLower (asciiLower s) = asciiLower s := by
  rw [asciiLower, asciiLower, String.toList_ofList, List.map_map]
  congr 2
  funext c
  exact c.toLower_toLower_eq_toLower

@[simp] theorem slotKey_slotKey (slot : Option String) :
    slotKey (slotKey slot) = slotKey slot := by
  cases slot <;> simp [slotKey, asciiLower_asciiLower]

namespace SlotContent

/-- The content that a place for the slot would get. -/
def get (c : SlotContent) (slot : Option String) : List Node := (c.take slot).1

/-- There is content for the slot that is more than blanks. -/
def Has (c : SlotContent) (slot : Option String) : Prop := ¬(c.get slot).all Node.isBlank

variable {c : SlotContent} {s t : Option String}

theorem takeNamed_congr {name other : String} (h : asciiLower name = asciiLower other)
    (named : List (String × List Node)) : takeNamed name named = takeNamed other named := by
  have heq (n : String) :
      Text.eqIgnoringAsciiCase n name = Text.eqIgnoringAsciiCase n other := by
    rw [Bool.eq_iff_iff, eqIgnoringAsciiCase_iff, eqIgnoringAsciiCase_iff, h]
  induction named with
  | nil => rfl
  | cons p named ih => rw [takeNamed, takeNamed, heq, ih]

theorem takeNamed_takeNamed (name other : String) (named : List (String × List Node)) :
    (takeNamed other (takeNamed name named).2).1 =
      if asciiLower other = asciiLower name then [] else (takeNamed other named).1 := by
  induction named with
  | nil => simp [takeNamed]
  | cons p named ih =>
    obtain ⟨n, nodes⟩ := p
    by_cases hn : Text.eqIgnoringAsciiCase n name
    · rw [takeNamed, if_pos hn, takeNamed, takeNamed]
      rw [eqIgnoringAsciiCase_iff] at hn
      simp only [eqIgnoringAsciiCase_iff, hn, eq_comm (a := asciiLower other)]
      split <;> rfl
    · rw [takeNamed, if_neg hn]
      rw [eqIgnoringAsciiCase_iff] at hn
      by_cases ho : Text.eqIgnoringAsciiCase n other
      · rw [takeNamed, takeNamed, if_pos ho, if_pos ho, if_neg]
        exact fun h => hn ((eqIgnoringAsciiCase_iff.1 ho).trans h)
      · rw [takeNamed, takeNamed, if_neg ho, if_neg ho]
        exact ih

theorem get_congr (h : slotKey s = slotKey t) : c.get s = c.get t := by
  cases s with
  | none => cases t <;> simp_all [slotKey]
  | some name =>
    cases t with
    | none => simp [slotKey] at h
    | some other => rw [get, get, take, take, takeNamed_congr (by simpa [slotKey] using h)]

@[simp] theorem get_slotKey (c : SlotContent) (s : Option String) : c.get (slotKey s) = c.get s :=
  get_congr (slotKey_slotKey s)

@[simp] theorem has_slotKey : c.Has (slotKey s) ↔ c.Has s := by rw [Has, get_slotKey, Has]

/-- What is taken is gone, and all else stays. -/
theorem get_take (c : SlotContent) (s t : Option String) :
    (c.take s).2.get t = if slotKey t = slotKey s then [] else c.get t := by
  cases s with
  | none => cases t <;> simp [get, take, slotKey]
  | some name =>
    cases t with
    | none => simp [get, take, slotKey]
    | some other => simpa [get, take, slotKey] using takeNamed_takeNamed name other c.named

theorem has_take : (c.take s).2.Has t ↔ c.Has t ∧ slotKey t ≠ slotKey s := by
  rw [Has, get_take]
  split
  · simp_all
  · simp_all [Has]

end SlotContent

namespace Node

/-! ### Content and places in a tree -/

mutual

/-- The slot content in a node that was given to the `k`-th component instance around it, each
piece with all that is in it. -/
def held (k : Nat) : Node → List (List Node)
  | element _ _ children _ _ => listHeld k children
  | component _ _ children _ => listHeld k children
  | slot _ fallback _ => listHeld k fallback
  | loop _ _ body _ _ => listHeld k body
  | conditional branches alternate _ _ =>
    branchesHeld k branches ++
      match alternate with
      | some nodes => listHeld k nodes
      | none => []
  | island _ _ children _ => listHeld k children
  | isolated _ _ children _ => listHeld (k + 1) children
  | callerScope children =>
    match k with
    | 0 => [children]
    | k + 1 => listHeld k children
  | _ => []
termination_by structural n => n

def listHeld (k : Nat) : List Node → List (List Node)
  | [] => []
  | n :: ns => held k n ++ listHeld k ns
termination_by structural ns => ns

def branchesHeld (k : Nat) : List (String × List Node) → List (List Node)
  | [] => []
  | (_, body) :: rest => listHeld k body ++ branchesHeld k rest
termination_by structural bs => bs

end

theorem listHeld_eq (k : Nat) (ns : List Node) : listHeld k ns = ns.flatMap (held k) := by
  induction ns with
  | nil => rfl
  | cons n ns ih => rw [listHeld, ih, List.flatMap_cons]

theorem listHeld_append (k : Nat) (ns ms : List Node) :
    listHeld k (ns ++ ms) = listHeld k ns ++ listHeld k ms := by
  rw [listHeld_eq, List.flatMap_append, ← listHeld_eq, ← listHeld_eq]

theorem listHeld_flatten (k : Nat) (lists : List (List Node)) :
    listHeld k lists.flatten = lists.flatMap (listHeld k) := by
  induction lists with
  | nil => rfl
  | cons ns lists ih =>
    rw [List.flatten_cons, listHeld_append, ih, List.flatMap_cons]

theorem branchesHeld_eq (k : Nat) (bs : List (String × List Node)) :
    branchesHeld k bs = (bs.map Prod.snd).flatMap (listHeld k) := by
  induction bs with
  | nil => rfl
  | cons b bs ih => rw [branchesHeld, ih, List.map_cons, List.flatMap_cons]

theorem held_of_ne {n : Node} (hi : n.kind ≠ .isolated) (hc : n.kind ≠ .callerScope) (k : Nat) :
    n.held k = n.childLists.flatMap (listHeld k) := by
  cases n with
  | isolated => exact absurd rfl hi
  | callerScope => exact absurd rfl hc
  | conditional branches alternate d l =>
    cases alternate <;> simp [held, childLists, branchesHeld_eq]
  | _ => simp [held, childLists]

/-- The node has a place for the slot, and it does not stand in the fallback of a place for a slot
that is filled. -/
inductive Offers (filled : Option String → Prop) (s : Option String) : Node → Prop
  | here : slotKey name = slotKey s → Offers filled s (slot name fallback l)
  | fallback : ¬filled name → m ∈ fallback → Offers filled s m →
    Offers filled s (slot name fallback l)
  | inside : n.kind ≠ .slot → ns ∈ n.childLists → m ∈ ns → Offers filled s m → Offers filled s n

def ListOffers (filled : Option String → Prop) (s : Option String) (ns : List Node) : Prop :=
  ∃ n ∈ ns, n.Offers filled s

theorem Offers.imp {filled filled' : Option String → Prop} {s : Option String} {n : Node}
    (h : n.Offers filled s) (hf : ∀ t, filled' t → filled t) : n.Offers filled' s := by
  induction h with
  | here h => exact .here h
  | fallback hn hm _ ih => exact .fallback (mt (hf _) hn) hm ih
  | inside hk hns hm _ ih => exact .inside hk hns hm ih

theorem ListOffers.imp {filled filled' : Option String → Prop} {s : Option String}
    {ns : List Node} (h : ListOffers filled s ns) (hf : ∀ t, filled' t → filled t) :
    ListOffers filled' s ns := by
  obtain ⟨n, hn, ho⟩ := h
  exact ⟨n, hn, ho.imp hf⟩

theorem offers_iff {filled : Option String → Prop} {s : Option String} {n : Node}
    (hs : n.kind ≠ .slot) : n.Offers filled s ↔ ListOffers filled s n.childLists.flatten := by
  refine ⟨fun h => ?_, fun ⟨m, hm, ho⟩ => ?_⟩
  · cases h with
    | here | fallback => exact absurd rfl hs
    | inside _ hns hm ho => exact ⟨_, List.mem_flatten.2 ⟨_, hns, hm⟩, ho⟩
  · obtain ⟨ns, hns, hm⟩ := List.mem_flatten.1 hm
    exact .inside hs hns hm ho

end Node

namespace Slots

open Node (listHeld ListOffers)

/-! ### Filling a body -/

/-- From the content `c` the nodes `ns` become `ms`, in which the content of `slots` has its place,
and `c'` is left. -/
structure Fills (ns : List Node) (c : SlotContent) (ms : List Node) (c' : SlotContent)
    (slots : List (Option String)) : Prop where
  held : listHeld 0 ms = slots.map c.get
  nodup : slots.Nodup
  key : ∀ s ∈ slots, slotKey s = s
  has : ∀ s ∈ slots, c.Has s
  declared : ∀ s ∈ slots, ListOffers (fun _ => False) s ns
  /-- What has an open place is put into some place. -/
  offered : ∀ s, c.Has s → ListOffers c.Has s ns → slotKey s ∈ slots
  left : ∀ s, c'.Has s ↔ c.Has s ∧ slotKey s ∉ slots
  kept : ∀ s, c'.Has s → c'.get s = c.get s

namespace Fills

variable {ns ns' ms ms' : List Node} {c c' c'' : SlotContent} {slots slots' : List (Option String)}

theorem nil (c : SlotContent) : Fills [] c [] c [] where
  held := rfl
  nodup := .nil
  key := nofun
  has := nofun
  declared := nofun
  offered := nofun
  left := by simp
  kept _ _ := rfl

theorem append (h : Fills ns c ms c' slots) (h' : Fills ns' c' ms' c'' slots') :
    Fills (ns ++ ns') c (ms ++ ms') c'' (slots ++ slots') where
  held := by
    have hget : slots'.map c'.get = slots'.map c.get :=
      List.map_congr_left fun s hs => h.kept s (h'.has s hs)
    rw [Node.listHeld_append, h.held, h'.held, hget, List.map_append]
  nodup := by
    refine List.nodup_append'.2 ⟨h.nodup, h'.nodup, fun s hs hs' => ?_⟩
    exact ((h.left s).1 (h'.has s hs')).2 ((h.key s hs).symm ▸ hs)
  key := List.forall_mem_append.2 ⟨h.key, h'.key⟩
  has := List.forall_mem_append.2 ⟨h.has, fun s hs => ((h.left s).1 (h'.has s hs)).1⟩
  declared := by
    refine List.forall_mem_append.2 ⟨fun s hs => ?_, fun s hs => ?_⟩
    · obtain ⟨n, hn, ho⟩ := h.declared s hs
      exact ⟨n, List.mem_append_left ns' hn, ho⟩
    · obtain ⟨n, hn, ho⟩ := h'.declared s hs
      exact ⟨n, List.mem_append_right ns hn, ho⟩
  offered := by
    rintro s hs ⟨n, hn, ho⟩
    rw [List.mem_append]
    by_cases hslots : slotKey s ∈ slots
    · exact .inl hslots
    -- it is still there where its place comes, and what is still there had been there
    obtain hn | hn := List.mem_append.1 hn
    · exact .inl (h.offered s hs ⟨n, hn, ho⟩)
    · have ho' : n.Offers c'.Has s := ho.imp fun t ht => ((h.left t).1 ht).1
      exact .inr (h'.offered s ((h.left s).2 ⟨hs, hslots⟩) ⟨n, hn, ho'⟩)
  left s := by rw [h'.left, h.left, List.mem_append, not_or, and_assoc]
  kept s hs := (h'.kept s hs).trans (h.kept s ((h'.left s).1 hs).1)

/-- A place with content. -/
theorem here {name : Option String} {fallback : List Node} {l : Location} (h : c.Has name) :
    Fills [.slot name fallback l] c [.callerScope (c.get name)] (c.take name).2
      [slotKey name] where
  held := by simp [listHeld, Node.held]
  nodup := List.nodup_singleton _
  key := by simp
  has := by simpa using h
  declared := by
    refine List.forall_mem_singleton.2 ⟨_, List.mem_singleton_self _, .here ?_⟩
    rw [slotKey_slotKey]
  offered := by
    rintro s hs ⟨n, hn, ho⟩
    obtain rfl := List.mem_singleton.1 hn
    cases ho with
    | here hk => simp [hk]
    | fallback hn => exact absurd h hn
    | inside hk => exact absurd rfl hk
  left s := by rw [SlotContent.has_take, List.mem_singleton]
  kept s hs := by rw [SlotContent.get_take, if_neg (SlotContent.has_take.1 hs).2]

/-- A place without content shows its fallback. -/
theorem fallback {name : Option String} {fallback : List Node} {l : Location} (hn : ¬c.Has name)
    (h : Fills fallback (c.take name).2 ms c' slots) :
    Fills [.slot name fallback l] c ms c' slots := by
  have hhas (s) : (c.take name).2.Has s ↔ c.Has s := by
    rw [SlotContent.has_take, and_iff_left_iff_imp]
    intro hs hk
    rw [← SlotContent.has_slotKey, hk, SlotContent.has_slotKey] at hs
    exact hn hs
  have hget (s) (hs : c.Has s) : (c.take name).2.get s = c.get s := by
    rw [SlotContent.get_take, if_neg (SlotContent.has_take.1 ((hhas s).2 hs)).2]
  refine ⟨?_, h.nodup, h.key, fun s hs => (hhas s).1 (h.has s hs), ?_, ?_, ?_, ?_⟩
  · rw [h.held]
    exact List.map_congr_left fun s hs => hget s ((hhas s).1 (h.has s hs))
  · intro s hs
    obtain ⟨m, hm, ho⟩ := h.declared s hs
    exact ⟨_, List.mem_singleton_self _, .fallback not_false hm ho⟩
  · rintro s hs ⟨n, hmem, ho⟩
    obtain rfl := List.mem_singleton.1 hmem
    cases ho with
    | here hk => exact absurd (SlotContent.has_slotKey.1 (hk ▸ SlotContent.has_slotKey.2 hs)) hn
    | fallback _ hm ho =>
      exact h.offered s ((hhas s).2 hs) ⟨_, hm, ho.imp fun t ht => (hhas t).1 ht⟩
    | inside hk => exact absurd rfl hk
  · intro s
    rw [h.left, hhas]
  · intro s hs
    rw [h.kept s hs, hget s ((hhas s).1 ((h.left s).1 hs).1)]

theorem of_steps {lists outs : List (List Node)} (h : Steps (Runs fillAll) lists c outs c')
    (hf : ∀ ns ∈ lists, ∀ c, ∃ slots,
      Fills ns c ((fillAll ns).run c).1 ((fillAll ns).run c).2 slots) :
    ∃ slots, Fills lists.flatten c outs.flatten c' slots := by
  induction h with
  | nil => exact ⟨[], nil _⟩
  | @cons ns c ms c' lists outs c'' hr _ ih =>
    rw [List.forall_mem_cons] at hf
    obtain ⟨slots, h⟩ := hf.1 c
    obtain ⟨slots', h'⟩ := ih hf.2
    rw [Runs] at hr
    rw [hr] at h
    exact ⟨slots ++ slots', h.append h'⟩

theorem of_childLists {n m : Node} (hs : n.kind ≠ .slot) (hi : n.kind ≠ .isolated)
    (hc : n.kind ≠ .callerScope) (hm : m.shell = n.shell)
    (h : Fills n.childLists.flatten c m.childLists.flatten c' slots) :
    Fills [n] c [m] c' slots := by
  have hk : m.kind = n.kind := congrArg Node.Form.kind (Node.form_of_shell hm)
  have hoffers (filled : Option String → Prop) (s : Option String) :
      ListOffers filled s [n] ↔ ListOffers filled s n.childLists.flatten := by
    rw [← Node.offers_iff hs]
    simp [ListOffers]
  refine ⟨?_, h.nodup, h.key, h.has, fun s hs => (hoffers _ s).2 (h.declared s hs),
    fun s hs ho => h.offered s hs ((hoffers _ s).1 ho), h.left, h.kept⟩
  rw [← h.held, Node.listHeld_flatten, Node.listHeld_eq, List.flatMap_singleton,
    Node.held_of_ne (hk ▸ hi) (hk ▸ hc)]

end Fills

variable {ns : List Node}

/-- What comes of a place depends on the content for its slot. -/
theorem run_fill_slot (name : Option String) (fallback : List Node) (l : Location)
    (c : SlotContent) : (fill (.slot name fallback l)).run c =
      if (c.get name).all Node.isBlank then (fillAll fallback).run (c.take name).2
      else ([.callerScope (c.get name)], (c.take name).2) := by
  rw [fill]
  change StateT.run (if (c.get name).all Node.isBlank then fillAll fallback
    else pure [.callerScope (c.get name)]) (c.take name).2 = _
  split <;> rfl

theorem fillAll_fills (h : ∀ n ∈ ns, ∀ c, ∃ slots,
      Fills [n] c ((fill n).run c).1 ((fill n).run c).2 slots) (c : SlotContent) :
    ∃ slots, Fills ns c ((fillAll ns).run c).1 ((fillAll ns).run c).2 slots := by
  induction ns generalizing c with
  | nil => exact ⟨[], .nil c⟩
  | cons n ns ih =>
    rw [List.forall_mem_cons] at h
    obtain ⟨slots, hn⟩ := h.1 c
    obtain ⟨slots', hns⟩ := ih h.2 ((fill n).run c).2
    exact ⟨slots ++ slots', hn.append hns⟩

theorem fill_fills {n : Node} (hn : n.IsWritten) (c : SlotContent) :
    ∃ slots, Fills [n] c ((fill n).run c).1 ((fill n).run c).2 slots := by
  induction n using Node.induct_children generalizing c with
  | node n ih =>
    obtain ⟨hk, hn⟩ := Node.everywhere_iff.1 hn
    have hlist (ns) (hns : ns ∈ n.childLists) (c : SlotContent) :
        ∃ slots, Fills ns c ((fillAll ns).run c).1 ((fillAll ns).run c).2 slots :=
      fillAll_fills (fun m hm => ih ns hns m hm (hn ns hns m hm)) c
    by_cases hs : n.kind = .slot
    · cases n with
      | slot name fallback l =>
        rw [run_fill_slot]
        split
        · next hblank =>
          obtain ⟨slots, h⟩ := hlist fallback (List.mem_singleton_self _) (c.take name).2
          exact ⟨slots, h.fallback (not_not_intro hblank)⟩
        · next hc => exact ⟨[slotKey name], .here hc⟩
      | _ => cases hs
    · rw [fill_of_ne hs]
      obtain ⟨hshell, hsteps⟩ := Node.traverse_steps fillAll n c
      obtain ⟨slots, h⟩ := Fills.of_steps hsteps hlist
      exact ⟨slots, .of_childLists hs hk.1 hk.2 hshell h⟩

/-- What is placed when a body is filled. -/
theorem fillBody_fills (h : ∀ n ∈ ns, n.IsWritten) (c : SlotContent) :
    ∃ c' slots, Fills ns c (fillBody ns c) c' slots := by
  obtain ⟨slots, hf⟩ := fillAll_fills (fun n hn c => fill_fills (h n hn) c) c
  exact ⟨_, slots, hf⟩

end Slots

end PageCompiler
