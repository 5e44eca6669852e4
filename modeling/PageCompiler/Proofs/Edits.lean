import Mathlib
import PageCompiler.Live
import PageCompiler.Proofs.Script

/-!
Edits, the buffer that they wait in and the store that they are applied to. Of several edits of a
path only the last one counts. Main statements: the buffer holds the last edit of each path, and
what a store has for a path follows from the last edit of it. A store with distinct paths is
determined by what it has for each path.
-/

namespace PageCompiler

/-- The markup of the last edit of a path. -/
def lastMarkup? (path : String) (edits : List Edit) : Option String :=
  (edits.findRev? fun e => e.path = path).map Edit.markup

section LastMarkup

variable {path : String} {es fs : List Edit}

@[simp] theorem lastMarkup?_nil : lastMarkup? path [] = none := rfl

@[simp] theorem lastMarkup?_singleton (e : Edit) :
    lastMarkup? path [e] = if e.path = path then some e.markup else none := by
  by_cases h : e.path = path <;> simp [lastMarkup?, List.findRev?, h]

@[simp] theorem lastMarkup?_append :
    lastMarkup? path (es ++ fs) = (lastMarkup? path fs).or (lastMarkup? path es) := by
  simp [lastMarkup?, List.findRev?_eq_find?_reverse, List.find?_append, Option.map_or]

theorem lastMarkup?_cons (e : Edit) :
    lastMarkup? path (e :: es) =
      (lastMarkup? path es).or (if e.path = path then some e.markup else none) := by
  rw [← lastMarkup?_singleton, ← lastMarkup?_append, List.singleton_append]

theorem lastMarkup?_eq_none : lastMarkup? path es = none ↔ path ∉ es.map Edit.path := by
  simp [lastMarkup?, List.findRev?_eq_find?_reverse]

theorem exists_mem_of_lastMarkup? {markup : String} (h : lastMarkup? path es = some markup) :
    ∃ e ∈ es, e.path = path ∧ e.markup = markup := by
  rw [lastMarkup?, List.findRev?_eq_find?_reverse, Option.map_eq_some_iff] at h
  obtain ⟨e, he, hm⟩ := h
  have hp : e.path = path := by simpa using List.find?_some he
  exact ⟨e, List.mem_reverse.1 (List.mem_of_find?_eq_some he), hp, hm⟩

theorem eq_nil_iff_lastMarkup? : es = [] ↔ ∀ path, lastMarkup? path es = none := by
  simp only [lastMarkup?_eq_none]
  refine ⟨fun h => h ▸ fun _ => List.not_mem_nil, fun h => ?_⟩
  rw [← List.map_eq_nil_iff (f := Edit.path)]
  exact List.eq_nil_iff_forall_not_mem.2 h

theorem lastMarkup?_cons_of_notMem {e : Edit} (h : e.path ∉ es.map Edit.path) :
    lastMarkup? path (e :: es) = lastMarkup? path (es ++ [e]) := by
  rw [lastMarkup?_cons, lastMarkup?_append, lastMarkup?_singleton]
  split
  · next hp => rw [← hp, lastMarkup?_eq_none.2 h, Option.none_or, Option.or_none]
  · rw [Option.none_or, Option.or_none]

/-- Where edits change places, nothing changes for a path that only one of the lists has. -/
theorem lastMarkup?_swap (es fs gs : List Edit) (path : String) :
    lastMarkup? path (fs ++ es ++ gs) = lastMarkup? path (es ++ fs ++ gs) ∨
      ∃ e ∈ es, ∃ f ∈ fs, e.path = path ∧ f.path = path ∧
        lastMarkup? path (fs ++ es ++ gs) = some e.markup := by
  simp only [lastMarkup?_append]
  cases hg : lastMarkup? path gs with
  | some m => exact .inl rfl
  | none =>
    cases he : lastMarkup? path es with
    | none => exact .inl (by rw [Option.or_none]; rfl)
    | some m =>
      cases hf : lastMarkup? path fs with
      | none => exact .inl rfl
      | some n =>
        obtain ⟨e, hem, hep, rfl⟩ := exists_mem_of_lastMarkup? he
        obtain ⟨f, hfm, hfp, -⟩ := exists_mem_of_lastMarkup? hf
        exact .inr ⟨e, hem, f, hfm, hep, hfp, rfl⟩

end LastMarkup

namespace EditBuffer

/-- At most one edit of each path, in the order of the paths. -/
def IsCoalesced (es : List Edit) : Prop := (es.map Edit.path).Pairwise (· < ·)

variable {es : List Edit} {e : Edit}

theorem mem_paths_insert {path : String} :
    path ∈ (insert e es).map Edit.path ↔ path = e.path ∨ path ∈ es.map Edit.path := by
  fun_induction insert e es with
  | case1 => simp
  | case2 f rest h => simp [h]
  | case3 f rest hne hlt => simp
  | case4 f rest hne hlt ih => simp only [List.map_cons, List.mem_cons, ih, or_left_comm]

theorem mem_of_mem_insert {f : Edit} (h : f ∈ insert e es) : f = e ∨ f ∈ es := by
  fun_induction insert e es with
  | case1 => exact .inl (List.mem_singleton.1 h)
  | case2 g rest hg => exact (List.mem_cons.1 h).imp_right (List.mem_cons_of_mem g)
  | case3 g rest hne hlt => exact List.mem_cons.1 h
  | case4 g rest hne hlt ih =>
    obtain rfl | h := List.mem_cons.1 h
    · exact .inr List.mem_cons_self
    · exact (ih h).imp_right (List.mem_cons_of_mem g)

theorem IsCoalesced.insert (h : IsCoalesced es) : IsCoalesced (insert e es) := by
  fun_induction EditBuffer.insert e es with
  | case1 => exact List.pairwise_singleton _ _
  | case2 f rest hf => rwa [IsCoalesced, List.map_cons, hf] at h
  | case3 f rest hne hlt =>
    refine List.pairwise_cons.2 ⟨fun p hp => ?_, h⟩
    obtain rfl | hp := List.mem_cons.1 hp
    · exact hlt
    · exact hlt.trans ((List.pairwise_cons.1 h).1 p hp)
  | case4 f rest hne hlt ih =>
    obtain ⟨hf, hr⟩ := List.pairwise_cons.1 h
    refine List.pairwise_cons.2 ⟨fun p hp => ?_, ih hr⟩
    obtain rfl | hp := mem_paths_insert.1 hp
    · exact lt_of_le_of_ne (not_lt.1 hlt) hne
    · exact hf p hp

/-- The edit that is put in is the last one of its path; for other paths nothing changes. -/
theorem lastMarkup?_insert (h : IsCoalesced es) (path : String) :
    lastMarkup? path (insert e es) = lastMarkup? path (es ++ [e]) := by
  fun_induction EditBuffer.insert e es with
  | case1 => rfl
  | case2 f rest hf =>
    obtain ⟨hr, -⟩ := List.pairwise_cons.1 h
    have hn : e.path ∉ rest.map Edit.path := fun hm => lt_irrefl _ (hf ▸ hr _ hm)
    rw [lastMarkup?_cons_of_notMem hn, List.cons_append, lastMarkup?_cons]
    by_cases hp : e.path = path <;> simp [hf, hp]
  | case3 f rest hne hlt =>
    obtain ⟨hr, -⟩ := List.pairwise_cons.1 h
    refine lastMarkup?_cons_of_notMem fun hm => ?_
    obtain heq | hm := List.mem_cons.1 hm
    · exact hne heq.symm
    · exact lt_asymm hlt (hr _ hm)
  | case4 f rest hne hlt ih =>
    rw [List.cons_append, lastMarkup?_cons, lastMarkup?_cons, ih (List.pairwise_cons.1 h).2]

/-- What is held is the last edit of its path. -/
theorem mem_iff_lastMarkup? (h : IsCoalesced es) :
    e ∈ es ↔ lastMarkup? e.path es = some e.markup := by
  induction es with
  | nil => simp
  | cons f rest ih =>
    obtain ⟨hf, hr⟩ := List.pairwise_cons.1 h
    have hn : f.path ∉ rest.map Edit.path := fun hm => lt_irrefl _ (hf _ hm)
    rw [lastMarkup?_cons_of_notMem hn, lastMarkup?_append, lastMarkup?_singleton, List.mem_cons]
    split
    · next hp =>
      have he : e ∉ rest := fun hm => hn (hp ▸ List.mem_map_of_mem hm)
      have hef : e = f ↔ f.markup = e.markup := by
        refine ⟨fun h => h ▸ rfl, fun hm => ?_⟩
        cases e
        cases f
        cases hp
        cases hm
        rfl
      rw [Option.some_or, Option.some_inj, hef, or_iff_left he]
    · next hp =>
      have he : e ≠ f := fun heq => hp (heq ▸ rfl)
      simp [he, ih hr]

variable {b : EditBuffer} {now : Nat}

theorem record_isCoalesced (h : IsCoalesced b.pending) : IsCoalesced (b.record e now).pending :=
  h.insert

theorem lastMarkup?_record (h : IsCoalesced b.pending) (path : String) :
    lastMarkup? path (b.record e now).pending = lastMarkup? path (b.pending ++ [e]) :=
  lastMarkup?_insert h path

def IsDue (b : EditBuffer) (now : Nat) : Prop := ∃ d ∈ b.deadline, d ≤ now

theorem drain_of_isDue (h : b.IsDue now) :
    b.drain now = (b.pending, { b with pending := [], deadline := none }) := by
  obtain ⟨d, hd, hle⟩ := h
  rw [drain, Option.mem_def.1 hd]
  exact if_pos hle

theorem drain_of_not_isDue (h : ¬b.IsDue now) : b.drain now = ([], b) := by
  unfold drain
  split
  · next d hd => exact if_neg fun hle => h ⟨d, hd, hle⟩
  · rfl

theorem drain_append (b : EditBuffer) (now : Nat) :
    (b.drain now).1 ++ (b.drain now).2.pending = b.pending := by
  by_cases h : b.IsDue now
  · rw [drain_of_isDue h, List.append_nil]
  · rw [drain_of_not_isDue h, List.nil_append]

theorem drain_isCoalesced (h : IsCoalesced b.pending) : IsCoalesced (b.drain now).2.pending := by
  by_cases hd : b.IsDue now
  · rw [drain_of_isDue hd]
    exact List.Pairwise.nil
  · rwa [drain_of_not_isDue hd]

end EditBuffer

namespace Document

def edited (path markup : String) : Option Document → Document
  | some d => { d with markup }
  | none => .ofMarkup path markup

end Document

namespace Store

variable {s t : Store} {e : Edit} {es fs : List Edit} {path : String} {ds : List Document}

def document? (s : Store) (path : String) : Option Document :=
  s.documents.find? fun d => d.path = path

def HasDistinctPaths (s : Store) : Prop := (s.documents.map Document.path).Nodup

def IsOrdered (s : Store) : Prop := s.documents.Pairwise fun d e => d.path ≤ e.path

theorem path_le_trans (c d e : Document) (h : decide (c.path ≤ d.path) = true)
    (h' : decide (d.path ≤ e.path) = true) : decide (c.path ≤ e.path) = true :=
  decide_eq_true ((of_decide_eq_true h).trans (of_decide_eq_true h'))

theorem path_le_total (d e : Document) :
    (decide (d.path ≤ e.path) || decide (e.path ≤ d.path)) = true := by
  simpa using le_total d.path e.path

theorem ofDocuments_isOrdered (ds : List Document) : (ofDocuments ds).IsOrdered :=
  (List.pairwise_mergeSort path_le_trans path_le_total ds).imp of_decide_eq_true

/-- Sorting keeps the documents of one path in their order, so that the first one stays first. -/
theorem document?_ofDocuments (ds : List Document) (path : String) :
    (ofDocuments ds).document? path = ds.find? fun d => d.path = path := by
  let isOfPath (d : Document) : Bool := d.path = path
  have hpath : ∀ d ∈ ds.filter isOfPath, d.path = path := fun d hd => by
    simpa [isOfPath] using (List.mem_filter.1 hd).2
  have hle : (ds.filter isOfPath).Pairwise fun d e => decide (d.path ≤ e.path) = true := by
    refine List.pairwise_of_forall_mem_list fun d hd e he => ?_
    simp [hpath d hd, hpath e he]
  have hsub : (ds.filter isOfPath).Sublist ((Discovery.inOrder ds).filter isOfPath) := by
    have h := (List.sublist_mergeSort path_le_trans path_le_total hle List.filter_sublist).filter
      isOfPath
    simp only [List.filter_filter, Bool.and_self] at h
    exact h
  have hperm := (List.mergeSort_perm ds fun d e => decide (d.path ≤ e.path)).filter isOfPath
  have heq := hsub.eq_of_length hperm.length_eq.symm
  rw [document?, ← List.head?_filter, ← List.head?_filter]
  exact congrArg List.head? heq.symm

theorem find?_applyEdit (e : Edit) (ds : List Document) (path : String) :
    ((applyEdit e ds).find? fun d => d.path = path) =
      if e.path = path then some (.edited path e.markup (ds.find? fun d => d.path = path))
      else ds.find? fun d => d.path = path := by
  induction ds with
  | nil => by_cases hp : e.path = path <;> simp [applyEdit, Document.ofMarkup, Document.edited, hp]
  | cons d ds ih =>
    by_cases hd : d.path = e.path
    · by_cases hp : e.path = path <;> simp [applyEdit, Document.edited, hd, hp]
    · rw [applyEdit, if_neg hd, List.find?_cons, List.find?_cons, ih]
      by_cases hp : d.path = path
      · have hne : e.path ≠ path := fun h => hd (hp.trans h.symm)
        simp [hp, hne]
      · simp [hp]

theorem find?_applyAll (es : List Edit) (ds : List Document) (path : String) :
    ((es.foldl (fun ds e => applyEdit e ds) ds).find? fun d => d.path = path) =
      ((lastMarkup? path es).map fun m => .edited path m (ds.find? fun d => d.path = path)).or
        (ds.find? fun d => d.path = path) := by
  induction es generalizing ds with
  | nil => rfl
  | cons e es ih =>
    rw [List.foldl_cons, ih, find?_applyEdit, lastMarkup?_cons]
    by_cases hp : e.path = path
    · cases lastMarkup? path es <;> cases ds.find? fun d => d.path = path <;>
        simp [hp, Document.edited, Document.ofMarkup]
    · simp [hp]

/-- The document of a path has the markup of the last edit, and all else as it was before. -/
theorem document?_applyEdits (s : Store) (es : List Edit) (path : String) :
    (s.applyEdits es).document? path =
      ((lastMarkup? path es).map fun m => .edited path m (s.document? path)).or
        (s.document? path) := by
  rw [applyEdits, document?_ofDocuments, find?_applyAll]
  rfl

theorem mem_applyEdit {d : Document} (h : d ∈ applyEdit e ds) :
    d ∈ ds ∨ d.path = e.path ∧ d.markup = e.markup := by
  induction ds with
  | nil =>
    obtain rfl := List.mem_singleton.1 h
    exact .inr ⟨rfl, rfl⟩
  | cons f ds ih =>
    unfold applyEdit at h
    split at h
    · next hf =>
      obtain rfl | h := List.mem_cons.1 h
      · exact .inr ⟨hf, rfl⟩
      · exact .inl (List.mem_cons_of_mem f h)
    · obtain rfl | h := List.mem_cons.1 h
      · exact .inl List.mem_cons_self
      · exact (ih h).imp_left (List.mem_cons_of_mem f)

theorem mem_applyAll {d : Document} (h : d ∈ es.foldl (fun ds e => applyEdit e ds) ds) :
    d ∈ ds ∨ ∃ e ∈ es, d.path = e.path ∧ d.markup = e.markup := by
  induction es generalizing ds with
  | nil => exact .inl h
  | cons e es ih =>
    obtain hd | ⟨f, hf, hdf⟩ := ih h
    · exact (mem_applyEdit hd).imp_right fun hde => ⟨e, List.mem_cons_self, hde⟩
    · exact .inr ⟨f, List.mem_cons_of_mem e hf, hdf⟩

/-- A document behind edits is there before them, or has the path and the markup of one of them. -/
theorem mem_applyEdits {d : Document} (h : d ∈ (s.applyEdits es).documents) :
    d ∈ s.documents ∨ ∃ e ∈ es, d.path = e.path ∧ d.markup = e.markup :=
  mem_applyAll (List.mem_mergeSort.1 h)

theorem paths_applyEdit (e : Edit) (ds : List Document) :
    (applyEdit e ds).map Document.path =
      if e.path ∈ ds.map Document.path then ds.map Document.path
      else ds.map Document.path ++ [e.path] := by
  induction ds with
  | nil => rfl
  | cons d ds ih =>
    by_cases hd : d.path = e.path
    · simp [applyEdit, hd]
    · have hne : e.path ≠ d.path := fun h => hd h.symm
      simp only [applyEdit, if_neg hd, List.map_cons, ih, List.mem_cons, hne, false_or]
      split <;> rfl

theorem nodup_applyEdit (h : (ds.map Document.path).Nodup) (e : Edit) :
    ((applyEdit e ds).map Document.path).Nodup := by
  rw [paths_applyEdit]
  split
  · exact h
  · next hn =>
    rw [List.nodup_append]
    refine ⟨h, List.nodup_singleton _, fun p hp q hq hpq => hn ?_⟩
    rwa [← List.mem_singleton.1 hq, ← hpq]

theorem nodup_applyAll (h : (ds.map Document.path).Nodup) (es : List Edit) :
    ((es.foldl (fun ds e => applyEdit e ds) ds).map Document.path).Nodup := by
  induction es generalizing ds with
  | nil => exact h
  | cons e es ih => exact ih (nodup_applyEdit h e)

theorem HasDistinctPaths.applyEdits (h : s.HasDistinctPaths) (es : List Edit) :
    (s.applyEdits es).HasDistinctPaths :=
  ((List.mergeSort_perm _ _).map Document.path).nodup_iff.2 (nodup_applyAll h es)

theorem applyEdits_isOrdered (s : Store) (es : List Edit) : (s.applyEdits es).IsOrdered :=
  ofDocuments_isOrdered _

theorem HasDistinctPaths.mem_iff (h : s.HasDistinctPaths) {d : Document} :
    d ∈ s.documents ↔ s.document? d.path = some d :=
  ⟨Island.find?_name h, List.mem_of_find?_eq_some⟩

/-- In order, a store with distinct paths is what it has for each path. -/
theorem HasDistinctPaths.ext (hs : s.HasDistinctPaths) (ht : t.HasDistinctPaths)
    (hs' : s.IsOrdered) (ht' : t.IsOrdered) (h : ∀ path, s.document? path = t.document? path) :
    s = t := by
  have hmem : ∀ d, d ∈ s.documents ↔ d ∈ t.documents := fun d => by
    rw [hs.mem_iff, ht.mem_iff, h]
  have hperm : s.documents.Perm t.documents :=
    (List.perm_ext_iff_of_nodup (.of_map _ hs) (.of_map _ ht)).2 hmem
  have hanti : ∀ d e, d ∈ s.documents → e ∈ t.documents → d.path ≤ e.path → e.path ≤ d.path →
      d = e := fun d e hd he hle hge =>
    List.inj_on_of_nodup_map hs hd ((hmem e).2 he) (le_antisymm hle hge)
  have heq : s.documents = t.documents := hperm.eq_of_pairwise hanti hs' ht'
  cases s
  exact congrArg Store.mk heq

theorem HasDistinctPaths.applyEdits_congr (h : s.HasDistinctPaths)
    (hes : ∀ path, lastMarkup? path es = lastMarkup? path fs) :
    s.applyEdits es = s.applyEdits fs := by
  refine (h.applyEdits es).ext (h.applyEdits fs) (applyEdits_isOrdered _ _)
    (applyEdits_isOrdered _ _) fun path => ?_
  rw [document?_applyEdits, document?_applyEdits, hes]

theorem HasDistinctPaths.applyEdits_append (h : s.HasDistinctPaths) (es fs : List Edit) :
    s.applyEdits (es ++ fs) = (s.applyEdits es).applyEdits fs := by
  refine (h.applyEdits _).ext ((h.applyEdits es).applyEdits fs) (applyEdits_isOrdered _ _)
    (applyEdits_isOrdered _ _) fun path => ?_
  rw [document?_applyEdits, document?_applyEdits, document?_applyEdits, lastMarkup?_append]
  cases lastMarkup? path fs <;> cases lastMarkup? path es <;> cases s.document? path <;>
    simp [Document.edited, Document.ofMarkup]

end Store

end PageCompiler
