import PageCompiler.Proofs.Discovery

/-!
Where the nodes of a document stand. Carrying out the directives moves nothing, and what is reported
of a document is reported of places in it: of its nodes and attributes, and of the lines of its
props.
-/

namespace PageCompiler

/-- The node and its attributes stand at places of `L`. -/
structure Node.At (L : Location → Prop) (n : Node) : Prop where
  location : n.kind ≠ .callerScope → L n.location
  given : ∀ a ∈ n.given, L a.location

abbrev Node.AllAt (L : Location → Prop) : Node → Prop := Everywhere (At L)

/-- If it tells a place the diagnostic is of that file, and the place is one of `L`. -/
def Diagnostic.StandsAt (file : String) (L : Location → Prop) (d : Diagnostic) : Prop :=
  ∀ l, d.location = some l → d.file = file ∧ L l

section

variable {L L' : Location → Prop} {file : String}

theorem Diagnostic.standsAt_placed {l : Location} (h : L l) (d : Diagnostic) :
    (d.placed file l).StandsAt file L :=
  fun _ hl => ⟨rfl, Option.some.inj hl ▸ h⟩

theorem Diagnostic.StandsAt.mono {d : Diagnostic} (h : d.StandsAt file L)
    (hL : ∀ l, L l → L' l) : d.StandsAt file L' :=
  fun l hl => (h l hl).imp_right (hL l)

namespace Node

variable {n m : Node}

theorem At.trims (h : n.At L) (ht : n.Trims m) : m.At L where
  location hc := by
    have hn : n.kind ≠ .callerScope := by
      rwa [← show m.kind = n.kind from congrArg Form.kind ht.form]
    exact ht.location hn ▸ h.location hn
  given a ha := h.given a (ht.given ha)

theorem At.mono (h : n.At L) (hL : ∀ l, L l → L' l) : n.At L' :=
  ⟨fun hc => hL _ (h.location hc), fun a ha => hL _ (h.given a ha)⟩

theorem Everywhere.imp {p q : Node → Prop} (h : n.Everywhere p) (hpq : ∀ m, p m → q m) :
    n.Everywhere q :=
  fun m hm => hpq m (h m hm)

theorem at_of_no_given (h : L n.location) (hn : n.given = []) : n.At L :=
  ⟨fun _ => h, by
    rw [hn]
    exact List.forall_mem_nil _⟩

end Node

end

namespace Template

variable {L : Location → Prop}

theorem ofNodes_allAt (hu : L .unknown) (role : Role) (path : String) {nodes : List Node}
    (h : ∀ n ∈ nodes, n.AllAt L) : ∀ n ∈ (ofNodes role path nodes).nodes, n.AllAt L := by
  have hstrip : ∀ n ∈ stripAll role nodes, n.AllAt L :=
    forall_mem_stripAll fun n hn => strip_everywhere (fun s => Node.at_of_no_given hu rfl)
      (fun n f _ hn => hn.trims (Node.trims_mapChildren f n)) (h n hn)
  unfold ofNodes
  dsimp only
  split
  · exact hstrip
  · refine forall_mem_stampAll fun n hn => stamp_everywhere ?_ ?_ (hstrip n hn)
    · intro tag as children closing l hn more hmore cs
      refine ⟨fun _ => hn.location nofun, List.forall_mem_append.2 ⟨hn.given, fun a ha => ?_⟩⟩
      rw [List.mem_singleton.1 (hmore ha)]
      exact hu
    · exact fun n f _ hn => hn.trims (Node.trims_mapChildren f n)

/-- What is reported of the directives stands where they stand, and props are those of one. -/
structure FindingsAt (path : String) (found : List Finding) (fs : Findings) : Prop where
  diagnostics : ∀ d ∈ fs.diagnostics, d.StandsAt path fun l => ∃ f ∈ found, f.location = l
  props : ∀ b ∈ fs.props, ∃ f ∈ found, f.directive = .props b.source ∧ f.location = b.location

theorem FindingsAt.addTo {path : String} {found : List Finding} {fs : Findings} {f : Finding}
    (h : FindingsAt path found fs) (hf : f ∈ found) : FindingsAt path found (f.addTo path fs) := by
  have note {severity : Severity} {problem : Problem} {message : String} :
      ∀ d ∈ fs.diagnostics ++
        [(Diagnostic.new .normalize problem severity message).placed path f.location],
        d.StandsAt path fun l => ∃ f ∈ found, f.location = l :=
    List.forall_mem_append.2 ⟨h.diagnostics,
      List.forall_mem_singleton.2 (Diagnostic.standsAt_placed ⟨f, hf, rfl⟩ _)⟩
  unfold Finding.addTo
  dsimp only
  split
  · split
    · exact ⟨note, h.props⟩
    · exact ⟨h.diagnostics, h.props⟩
  · exact ⟨h.diagnostics, h.props⟩
  · exact ⟨note, h.props⟩
  · next source hd =>
    split
    · exact ⟨note, h.props⟩
    · refine ⟨h.diagnostics, fun b hb => ?_⟩
      cases hb
      exact ⟨f, hf, hd, rfl⟩
  · exact ⟨h.diagnostics, h.props⟩
  · exact ⟨note, h.props⟩
  · split
    · exact h
    · exact ⟨h.diagnostics, h.props⟩
  · exact ⟨h.diagnostics, h.props⟩
  · split
    · exact h
    · exact ⟨h.diagnostics, h.props⟩
  · exact ⟨note, h.props⟩

theorem findingsOf_at (path : String) (found : List Finding) :
    FindingsAt path found (findingsOf path found) := by
  suffices h : ∀ (fs : Findings) (rest : List Finding), rest ⊆ found → FindingsAt path found fs →
      FindingsAt path found (rest.foldl (Finding.addTo path) fs) from
    h _ found (List.Subset.refl _) ⟨List.forall_mem_nil _, nofun⟩
  intro fs rest hrest h
  induction rest generalizing fs with
  | nil => exact h
  | cons f rest ih =>
    rw [List.cons_subset] at hrest
    exact ih _ hrest.2 (h.addTo hrest.1)

end Template

end PageCompiler
