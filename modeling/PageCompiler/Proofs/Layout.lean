import PageCompiler.Layout
import PageCompiler.Proofs.Discovery
import PageCompiler.Proofs.Traversal

/-!
A page in its layout has no slot, if the page has none.
-/

namespace PageCompiler.Layout

open Node (Form)

variable {F G : Form → Prop}

/-- The page that has no place yet has nodes with the property. -/
def PageOf (V : Node → Prop) (page : Option (List Node)) : Prop :=
  ∀ nodes ∈ page, ∀ n ∈ nodes, V n

variable {V : Node → Prop}

theorem keeps_fillAll {ns : List Node}
    (h : ∀ n ∈ ns, Keeps (PageOf V) (∀ m ∈ ·, V m) (fill n)) :
    Keeps (PageOf V) (∀ m ∈ ·, V m) (fillAll ns) := by
  induction ns with
  | nil => exact .pure (List.forall_mem_nil _)
  | cons n ns ih =>
    rw [List.forall_mem_cons] at h
    rw [fillAll]
    exact .bind h.1 fun _ ha => .bind (ih h.2) fun _ hb =>
      .pure (List.forall_mem_append.2 ⟨ha, hb⟩)

theorem fillBranches_eq (bs : List (String × List Node)) :
    fillBranches bs = bs.mapM fun b => do return (b.1, ← fillAll b.2) := by
  induction bs with
  | nil => rfl
  | cons b bs ih => simp [fillBranches, ih]

theorem fill_of_ne {n : Node} (hs : n.kind ≠ .slot) :
    fill n = do return [← n.traverse fillAll] := by
  cases n with
  | slot => exact absurd rfl hs
  | conditional branches alternate d l =>
    cases alternate <;> simp [fill, fillBranches_eq, Node.traverse]
  | _ => simp [fill, Node.traverse]

theorem keeps_fill_slot {name : Option String} {fallback : List Node} {l : Location}
    (h : Keeps (PageOf V) (∀ m ∈ ·, V m) (fillAll fallback)) :
    Keeps (PageOf V) (∀ m ∈ ·, V m) (fill (.slot name fallback l)) := by
  intro page hp
  cases name with
  | some name => exact h page hp
  | none =>
    cases page with
    | none => exact h none hp
    | some nodes => exact ⟨hp nodes rfl, nofun⟩

theorem fill_everywhere {p q : Node → Prop}
    (hq : ∀ n m, n.kind ≠ .slot → p n → m.shell = n.shell → q m) {n : Node} (h : n.Everywhere p) :
    Keeps (PageOf (·.Everywhere q)) (∀ m ∈ ·, m.Everywhere q) (fill n) := by
  induction n using Node.induct_children with
  | node n ih =>
    obtain ⟨hk, h⟩ := Node.everywhere_iff.1 h
    have hchild (ns) (hns : ns ∈ n.childLists) :
        Keeps (PageOf (·.Everywhere q)) (∀ m ∈ ·, m.Everywhere q) (fillAll ns) :=
      keeps_fillAll fun m hm => ih ns hns m hm (h ns hns m hm)
    by_cases hs : n.kind = .slot
    · cases n with
      | slot name fallback l => exact keeps_fill_slot (hchild fallback (List.mem_singleton_self _))
      | _ => cases hs
    · rw [fill_of_ne hs]
      exact .bind (.traverse hchild) fun m hm =>
        .pure (List.forall_mem_singleton.2 (hm.everywhere fun m => hq n m hs hk))

/-- What holds of the page in its layout, where `p` holds in the layout. -/
theorem apply_everywhere {p q : Node → Prop} {P : Diagnostic → Prop} {registry : Registry}
    {name : String} {page : List Node} {file : String}
    (hP : ∀ d, d.stage = .normalize → d.location = none → P d)
    (hr : ∀ d, registry.layout? name = some d → ∀ n ∈ d.nodes, n.Everywhere p)
    (hq : ∀ n m, n.kind ≠ .slot → p n → m.shell = n.shell → q m)
    (hpage : ∀ n ∈ page, n.Everywhere q) :
    (apply registry name page file).Sat (fun a => ∀ n ∈ a.nodes, n.Everywhere q) P := by
  unfold apply
  split
  · exact .bind (Reported.sat_report (hP _ rfl rfl)) fun _ _ => .pure hpage
  · next layout hl =>
    have hf := (keeps_fillAll fun n hn => fill_everywhere hq (hr layout hl n hn)) (some page)
      fun _ h => Option.some.inj h ▸ hpage
    split
    next nodes rest hrun =>
      have hn : ∀ n ∈ nodes, n.Everywhere q := by simpa only [hrun] using hf.1
      split
      · exact .bind (Reported.sat_report (hP _ rfl rfl)) fun _ _ => .pure hn
      · exact .pure hn

theorem apply_sat {registry : Registry} (hr : registry.OfForms G) (name : String)
    {page : List Node} (file : String) (hF : ∀ f, f.kind ≠ .slot → G f → F f)
    (hp : ∀ n ∈ page, n.OfForms F) :
    (apply registry name page file).Sat (fun a => ∀ n ∈ a.nodes, n.OfForms F)
      Diagnostic.IsEarly :=
  apply_everywhere (fun d hs _ => by simp [hs])
    (fun d hd => hr.layouts d (List.mem_of_find?_eq_some hd))
    (fun n _ hs hn hm => (Node.form_of_shell hm).symm ▸ hF n.form hs hn) hp

end PageCompiler.Layout
