import PageCompiler.Proofs.Pass

/-!
Compilers that are used again. Main statement: what a compiler remembers of earlier passes shows in
no result, as long as documents of one digest have one path and one markup.
-/

namespace PageCompiler

open Json (Object)

/-- The digest of a document tells its path and its markup. -/
def HashesTell (documents : List Document) : Prop :=
  ∀ d ∈ documents, ∀ e ∈ documents, d.hash = e.hash → d.path = e.path ∧ d.markup = e.markup

instance (documents : List Document) : Decidable (HashesTell documents) :=
  inferInstanceAs (Decidable (∀ d ∈ documents, ∀ e ∈ documents,
    d.hash = e.hash → d.path = e.path ∧ d.markup = e.markup))

def Document.parsed (d : Document) : Reported (List Node) := Markup.parse d.markup d.path

theorem HashesTell.parsed_eq {documents : List Document} (h : HashesTell documents)
    {d e : Document} (hd : d ∈ documents) (he : e ∈ documents) (hk : d.hash = e.hash) :
    d.parsed = e.parsed := by
  obtain ⟨hpath, hmarkup⟩ := h d hd e he hk
  rw [Document.parsed, Document.parsed, hpath, hmarkup]

namespace ParseTable

variable {t : ParseTable} {documents : List Document} {key : String} {r : Reported (List Node)}

def readAll (t : ParseTable) (documents : List Document) : ParseTable :=
  documents.foldl (fun t d => t.insert d.hash d.parsed) t

/-- The table of a pass over these documents. -/
def ofDocuments (documents : List Document) : ParseTable :=
  readAll [] (Discovery.inOrder documents)

/-- Whatever the table has for one of the documents is what reading it gives. -/
def IsRightFor (t : ParseTable) (documents : List Document) : Prop :=
  ∀ d ∈ documents, ∀ r ∈ t.lookup d.hash, r = d.parsed

theorem mem_insert {p : String × Reported (List Node)} (h : p ∈ t.insert key r) :
    p = (key, r) ∨ p ∈ t := by
  unfold insert at h
  split at h
  · obtain ⟨q, hq, rfl⟩ := List.mem_map.1 h
    dsimp only
    split
    · next hk => exact .inl (by rw [hk])
    · exact .inr hq
  · obtain hp | hp := List.mem_append.1 h
    · exact .inr hp
    · exact .inl (List.mem_singleton.1 hp)

theorem mem_readAll {p : String × Reported (List Node)} (h : p ∈ t.readAll documents) :
    (∃ d ∈ documents, p = (d.hash, d.parsed)) ∨ p ∈ t := by
  induction documents generalizing t with
  | nil => exact .inr h
  | cons d ds ih =>
    obtain ⟨e, he, hp⟩ | ht := ih h
    · exact .inl ⟨e, List.mem_cons_of_mem d he, hp⟩
    · obtain hp | ht := mem_insert ht
      · exact .inl ⟨d, List.mem_cons_self, hp⟩
      · exact .inr ht

theorem mem_ofDocuments {p : String × Reported (List Node)} (h : p ∈ ofDocuments documents) :
    ∃ d ∈ documents, p = (d.hash, d.parsed) := by
  obtain ⟨d, hd, hp⟩ | hn := mem_readAll h
  · exact ⟨d, List.mem_mergeSort.1 hd, hp⟩
  · cases hn

theorem mem_insert_self (t : ParseTable) (key : String) (r : Reported (List Node)) :
    (key, r) ∈ t.insert key r := by
  unfold insert
  split
  · next h =>
    obtain ⟨s, hs⟩ := Option.isSome_iff_exists.1 h
    obtain ⟨before, after, rfl, -⟩ := List.lookup_eq_some_iff.1 hs
    simp
  · exact List.mem_append_right t (List.mem_singleton_self _)

theorem mem_insert_of_mem {p : String × Reported (List Node)} (h : p ∈ t)
    (hk : p.1 = key → p.2 = r) : p ∈ t.insert key r := by
  unfold insert
  split
  · refine List.mem_map.2 ⟨p, h, ?_⟩
    dsimp only
    split
    · next he => rw [← hk he]
    · rfl
  · exact List.mem_append_left _ h

theorem mem_readAll_of_mem {p : String × Reported (List Node)} (h : p ∈ t)
    (hk : ∀ d ∈ documents, p.1 = d.hash → p.2 = d.parsed) : p ∈ t.readAll documents := by
  induction documents generalizing t with
  | nil => exact h
  | cons d ds ih =>
    rw [List.forall_mem_cons] at hk
    exact ih (mem_insert_of_mem h hk.1) hk.2

theorem mem_readAll_self (h : HashesTell documents) {ds : List Document} (hs : ds ⊆ documents)
    {d : Document} (hd : d ∈ ds) : (d.hash, d.parsed) ∈ t.readAll ds := by
  induction ds generalizing t with
  | nil => cases hd
  | cons e ds ih =>
    obtain ⟨he, hs'⟩ := List.cons_subset.1 hs
    obtain rfl | hd := List.mem_cons.1 hd
    · show (d.hash, d.parsed) ∈ (t.insert d.hash d.parsed).readAll ds
      exact mem_readAll_of_mem (mem_insert_self t _ _) fun f hf => h.parsed_eq he (hs' hf)
    · exact ih hs' hd

theorem isRightFor_nil (documents : List Document) : IsRightFor [] documents := nofun

theorem IsRightFor.subset {ds : List Document} (h : t.IsRightFor documents)
    (hs : ds ⊆ documents) : t.IsRightFor ds := fun d hd => h d (hs hd)

/-- A table of some documents is right for all. -/
theorem isRightFor_ofDocuments {all : List Document} (h : HashesTell all)
    (hs : documents ⊆ all) : (ofDocuments documents).IsRightFor all := by
  intro d hd r hr
  obtain ⟨before, after, ht, -⟩ := List.lookup_eq_some_iff.1 hr
  have hm : (d.hash, r) ∈ ofDocuments documents := ht ▸ List.mem_append_right _ List.mem_cons_self
  obtain ⟨e, he, hp⟩ := mem_ofDocuments hm
  obtain ⟨hk, rfl⟩ := Prod.mk.inj hp
  exact h.parsed_eq (hs he) hd hk.symm

theorem lookup_ofDocuments (h : HashesTell documents) {d : Document} (hd : d ∈ documents) :
    (ofDocuments documents).lookup d.hash = some d.parsed := by
  have hs : Discovery.inOrder documents ⊆ documents := fun _ => List.mem_mergeSort.1
  have hm : (d.hash, d.parsed) ∈ ofDocuments documents :=
    mem_readAll_self h hs (List.mem_mergeSort.2 hd)
  cases hl : (ofDocuments documents).lookup d.hash with
  | none =>
    have hne := List.lookup_eq_none_iff.1 hl _ hm
    simp at hne
  | some r => rw [isRightFor_ofDocuments h (List.Subset.refl _) d hd r hl]

end ParseTable

namespace Discovery

variable {path : String} {d : Discovery} {doc : Document} {nodes : List Node}

theorem parsed_addInline (c : InlineComponent) :
    (addInline path d c).value.parsed = d.parsed := by
  unfold addInline
  rw [Reported.value_bind]
  split <;> rfl

theorem parsed_addInlines (cs : List InlineComponent) :
    (cs.foldlM (addInline path) d).value.parsed = d.parsed := by
  induction cs generalizing d with
  | nil => rfl
  | cons c cs ih => rw [List.foldlM_cons, Reported.value_bind, ih, parsed_addInline]

theorem parsed_addDefinition (role : Role) :
    (addDefinition role doc nodes d).value.parsed = d.parsed := by
  unfold addDefinition
  simp only [Reported.value_bind]
  split <;> exact parsed_addInlines _

theorem parsed_addPage : (addPage doc nodes d).value.parsed = d.parsed := parsed_addInlines _

/-- Only the table of the documents changes with the reading of one. -/
theorem parsed_addDocument (known : ParseTable) :
    (addDocument known d doc).value.parsed =
      d.parsed.insert doc.hash ((known.lookup doc.hash).getD doc.parsed) := by
  unfold addDocument
  dsimp only
  rw [Reported.value_bind]
  split
  · exact parsed_addPage
  · exact parsed_addDefinition _

theorem addDocument_known {known : ParseTable} (h : ∀ r ∈ known.lookup doc.hash, r = doc.parsed)
    (d : Discovery) : addDocument known d doc = addDocument [] d doc := by
  have hr : (known.lookup doc.hash).getD doc.parsed = doc.parsed := by
    cases hl : known.lookup doc.hash with
    | none => rfl
    | some r => exact h r hl
  unfold addDocument
  rw [← Document.parsed, hr]
  rfl

theorem addDocuments_known {known : ParseTable} {documents : List Document}
    (h : known.IsRightFor documents) (d : Discovery) :
    documents.foldlM (addDocument known) d = documents.foldlM (addDocument []) d := by
  induction documents generalizing d with
  | nil => rfl
  | cons doc ds ih =>
    rw [List.foldlM_cons, List.foldlM_cons, addDocument_known (h doc List.mem_cons_self)]
    congr 1
    funext d
    exact ih (h.subset (List.subset_cons_self doc ds)) d

theorem parsed_addDocuments (documents : List Document) (d : Discovery) :
    (documents.foldlM (addDocument []) d).value.parsed = d.parsed.readAll documents := by
  induction documents generalizing d with
  | nil => rfl
  | cons doc ds ih =>
    rw [List.foldlM_cons, Reported.value_bind, ih, parsed_addDocument]
    rfl

end Discovery

/-- What is known of documents makes no difference where it is right. -/
theorem discover_known {known : ParseTable} {documents : List Document}
    (h : known.IsRightFor documents) : discover known documents = discover [] documents :=
  Discovery.addDocuments_known (h.subset fun _ hd => List.mem_mergeSort.1 hd) .empty

theorem parsed_discover (documents : List Document) :
    (discover [] documents).value.parsed = .ofDocuments documents :=
  Discovery.parsed_addDocuments _ .empty

namespace Compiler

/-- What is asked of a compiler in one pass. -/
structure Pass where
  documents : List Document
  data : Object

/-- The compiler behind passes, one after the other. -/
def after (c : Compiler) (passes : List Pass) : Compiler :=
  passes.foldl (fun c p => (c.compile p.documents p.data).2) c

variable {c : Compiler} {documents : List Document} {data : Object}

/-- One pass of a compiler whose memory is right for the documents. -/
theorem compile_known (h : c.cache.IsRightFor documents) :
    (c.compile documents data).1 = PageCompiler.compile c.options documents data ∧
    (c.compile documents data).2.cache =
      if isClean (c.compile documents data).1 then .ofDocuments documents else c.cache := by
  have hd : discover c.cache documents = discover (new c.options).cache documents :=
    discover_known h
  cases hs : selectPage c.options (discover c.cache documents).value with
  | error e =>
    obtain ⟨path, rfl⟩ := Page.select_eq_error hs
    rw [PageCompiler.compile, compile_of_error hs, compile_of_error (hd ▸ hs)]
    exact ⟨rfl, rfl⟩
  | ok selected =>
    rw [PageCompiler.compile, compile_of_ok hs, compile_of_ok (hd ▸ hs)]
    dsimp only
    refine ⟨by rw [hd]; rfl, ?_⟩
    rw [isClean_judge, hd, new, parsed_discover]
    split <;> simp_all

theorem options_after (passes : List Pass) : (c.after passes).options = c.options := by
  induction passes generalizing c with
  | nil => rfl
  | cons p passes ih => exact (@ih _).trans compile_options

/-- The memory of a compiler stays right for all documents of its passes. -/
theorem isRightFor_after {all : List Document} (ha : HashesTell all) {passes : List Pass}
    (hs : ∀ p ∈ passes, p.documents ⊆ all) (hc : c.cache.IsRightFor all) :
    (c.after passes).cache.IsRightFor all := by
  induction passes generalizing c with
  | nil => exact hc
  | cons p passes ih =>
    rw [List.forall_mem_cons] at hs
    refine ih hs.2 ?_
    rw [(compile_known (hc.subset hs.1)).2]
    split
    · exact ParseTable.isRightFor_ofDocuments ha hs.1
    · exact hc

/-- A pass behind any other passes gives what a new compiler gives. It remembers how each of its
documents was read if no error was reported, and else what was remembered before. -/
theorem compile_after (o : Options) (passes : List Pass) (p : Pass)
    (h : HashesTell ((passes ++ [p]).flatMap Pass.documents)) :
    let c := (new o).after passes
    let r := c.compile p.documents p.data
    r.1 = PageCompiler.compile o p.documents p.data ∧
    r.2.cache = (if isClean r.1 then .ofDocuments p.documents else c.cache) ∧
    ∀ d ∈ p.documents, (ParseTable.ofDocuments p.documents).lookup d.hash = some d.parsed := by
  have hs (q : Pass) (hq : q ∈ passes ++ [p]) :
      q.documents ⊆ (passes ++ [p]).flatMap Pass.documents :=
    fun d hd => List.mem_flatMap.2 ⟨q, hq, hd⟩
  have hc := isRightFor_after (c := new o) h (fun q hq => hs q (List.mem_append_left [p] hq))
    (ParseTable.isRightFor_nil _)
  have hp := hs p (List.mem_append_right passes (List.mem_singleton_self p))
  have hk := @compile_known _ p.documents p.data (hc.subset hp)
  rw [options_after] at hk
  have ht : HashesTell p.documents := fun d hd e he => h d (hp hd) e (hp he)
  exact ⟨hk.1, hk.2, fun d hd => ParseTable.lookup_ofDocuments ht hd⟩

/-- A page that is compiled again beside another one. -/
theorem compile_after_page :
    let a := Document.ofMarkup "a.html" "<p></p>"
    let b := Document.ofMarkup "b.html" "<Missing/>"
    let c := (new default).after [⟨[a], []⟩]
    HashesTell [a, a, b] ∧
      (c.compile [a, b] []).1 = PageCompiler.compile default [a, b] [] := by
  intro a b c
  have h : HashesTell [a, a, b] := by decide +kernel
  exact ⟨h, (compile_after default [⟨[a], []⟩] ⟨[a, b], []⟩ h).1⟩

end Compiler

end PageCompiler
