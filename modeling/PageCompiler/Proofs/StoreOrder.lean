import Mathlib
import PageCompiler.Proofs.Edits
import PageCompiler.Proofs.PathOrder

/-!
The order of the documents in a store, which is made once and then replaced, edited or loaded again
and again. Main statement: the documents are in the order of their paths, unless they have been
loaded from a directory in which two paths part below a slash.
-/

namespace PageCompiler

namespace Store

/-- What is done to a store after it was made. -/
inductive Operation
  | replace (documents : List Document)
  | apply (edits : List Edit)
  | load (d : Directory) (root : List String)

namespace Operation

def perform (s : Store) : Operation → Store
  | replace documents => ofDocuments documents
  | apply edits => s.applyEdits edits
  | load d root => (s.load d root).2

/-- Only a load can fail. -/
def isDone : Operation → Bool
  | load d root => (d.load root).isOk
  | _ => true

end Operation

open Operation (perform)

def run (s : Store) (operations : List Operation) : Store := operations.foldl perform s

/-- The last operation that did not fail. -/
def lastDone? (operations : List Operation) : Option Operation :=
  operations.findRev? Operation.isDone

def paths (s : Store) : List String := s.documents.map Document.path

variable {s : Store} {d : Directory} {root : List String} {operations : List Operation}
  {o : Operation}

theorem load_eq_of_isOk (h : (d.load root).isOk) (s : Store) :
    d.load root = .ok (s.load d root).2.documents := by
  rw [load]
  cases hload : d.load root with
  | ok documents => rfl
  | error e =>
    rw [hload] at h
    cases h

theorem perform_of_not_isDone (h : o.isDone = false) (s : Store) : perform s o = s := by
  cases o with
  | replace documents => cases h
  | apply edits => cases h
  | load d root =>
    rw [Operation.isDone] at h
    rw [perform, load]
    cases hload : d.load root with
    | ok documents =>
      rw [hload] at h
      cases h
    | error e => rfl

theorem lastDone?_append (operations : List Operation) (o : Operation) :
    lastDone? (operations ++ [o]) = if o.isDone then some o else lastDone? operations := by
  rw [lastDone?, lastDone?, List.findRev?_eq_find?_reverse, List.findRev?_eq_find?_reverse,
    List.reverse_append, List.reverse_singleton, List.singleton_append, List.find?_cons]
  cases o.isDone <;> rfl

/-- A store is as it was made, or as the last operation that was done has left some store. -/
theorem run_eq (s : Store) (operations : List Operation) :
    lastDone? operations = none ∧ run s operations = s ∨
      ∃ o ∈ operations, o.isDone ∧ lastDone? operations = some o ∧
        ∃ t, run s operations = perform t o := by
  induction operations using List.reverseRecOn with
  | nil => exact .inl ⟨rfl, rfl⟩
  | append_singleton operations o ih =>
    have hrun : run s (operations ++ [o]) = perform (run s operations) o :=
      List.foldl_concat _ _ _ _
    rw [lastDone?_append, hrun]
    cases ho : o.isDone with
    | true =>
      apply Or.inr
      exact ⟨o, List.mem_append_right _ List.mem_cons_self, ho, if_pos rfl, _, rfl⟩
    | false =>
      rw [perform_of_not_isDone ho, if_neg Bool.false_ne_true]
      apply ih.imp_right
      rintro ⟨o', hmem, h⟩
      exact ⟨o', List.mem_append_left _ hmem, h⟩

theorem run_isOrdered (documents : List Document)
    (h : ∀ d root, lastDone? operations ≠ some (.load d root)) :
    (run (ofDocuments documents) operations).IsOrdered := by
  obtain ⟨-, hrun⟩ | ⟨o, -, -, hlast, t, hrun⟩ := run_eq (ofDocuments documents) operations
  · rw [hrun]
    exact ofDocuments_isOrdered documents
  · rw [hrun]
    cases o with
    | replace documents => exact ofDocuments_isOrdered documents
    | apply edits => exact applyEdits_isOrdered t edits
    | load d root => exact absurd hlast (h d root)

theorem run_of_load (h : lastDone? operations = some (.load d root)) (s : Store) :
    .load d root ∈ operations ∧ d.load root = .ok (run s operations).documents := by
  obtain ⟨hnone, -⟩ | ⟨o, hmem, hdone, hlast, t, hrun⟩ := run_eq s operations
  · rw [hnone] at h
    cases h
  · rw [hlast] at h
    cases h
    rw [hrun]
    exact ⟨hmem, load_eq_of_isOk hdone t⟩

theorem isOrdered_iff_paths : s.IsOrdered ↔ s.paths.Pairwise (· ≤ ·) := List.pairwise_map.symm

/-- What is made, replaced or edited is in the order of its paths. What is loaded is in the order of
its directories, and this is the order of its paths just if no two of these part below a slash. -/
theorem run_isOrdered_iff (documents : List Document) (operations : List Operation)
    (hvalid : ∀ d root, .load d root ∈ operations → d.IsValid) :
    let s := run (ofDocuments documents) operations
    (s.IsOrdered ↔
      ((∃ d root, lastDone? operations = some (.load d root)) → ¬HasParting s.paths)) ∧
    ∀ d root, lastDone? operations = some (.load d root) →
      d.load root = .ok s.documents ∧ s.paths.Pairwise PathLT ∧
        (s.paths.Pairwise (· < ·) ↔ ¬HasParting s.paths) := by
  intro s
  have hload {d : Directory} {root : List String}
      (hlast : lastDone? operations = some (.load d root)) :
      d.load root = .ok s.documents ∧ s.paths.Pairwise PathLT := by
    obtain ⟨hmem, hok⟩ := run_of_load hlast (ofDocuments documents)
    exact ⟨hok, Directory.load_pairwise (hvalid d root hmem) hok⟩
  constructor
  · by_cases hlast : ∃ d root, lastDone? operations = some (.load d root)
    · obtain ⟨d, root, h⟩ := id hlast
      rw [isOrdered_iff_paths, pairwise_iff_not_hasParting PathLT.le_iff (hload h).2]
      exact (imp_iff_right hlast).symm
    · apply iff_of_true
      · apply run_isOrdered
        intro d root h
        exact hlast ⟨d, root, h⟩
      · intro h
        exact absurd h hlast
  · intro d root hlast
    obtain ⟨hok, hpaths⟩ := hload hlast
    exact ⟨hok, hpaths, pairwise_iff_not_hasParting PathLT.lt_iff hpaths⟩

/-- A document, and another one in a directory of the same stem. -/
def nested : Directory := .ofFiles [⟨pathNames "a.ncl", .empty⟩, ⟨pathNames "a/b.ncl", .empty⟩]

theorem nested_isValid : nested.IsValid := by
  apply Directory.isValid_ofFiles
  simp [isNames_pathNames]

theorem load_nested (s : Store) :
    s.load nested [] = (.ok 2, ⟨[.ofMarkup "a/b.ncl" "", .ofMarkup "a.ncl" ""]⟩) := by
  have hbelow : (nested.below []).filter File.isDocument =
      [⟨["a.ncl"], .empty⟩, ⟨["a", "b.ncl"], .empty⟩] := rfl
  have hle : pathLE ["a.ncl"] ["a", "b.ncl"] = false := rfl
  have hfiles : nested.documentFiles [] = [⟨["a", "b.ncl"], .empty⟩, ⟨["a.ncl"], .empty⟩] := by
    simp [Directory.documentFiles, hbelow, List.mergeSort, hle]
  have hexists : nested.exists? [] = true := rfl
  have hload : nested.load [] = .ok [.ofMarkup "a/b.ncl" "", .ofMarkup "a.ncl" ""] := by
    rw [Directory.load_eq, if_pos hexists, hfiles]
    rfl
  rw [load, hload]
  rfl

theorem run_isOrdered_iff_nested :
    (∀ d root, .load d root ∈ [Operation.load nested []] → d.IsValid) ∧
      ((run (ofDocuments []) [.load nested []]).IsOrdered ↔
        ((∃ d root, lastDone? [.load nested []] = some (.load d root)) →
          ¬HasParting (run (ofDocuments []) [.load nested []]).paths)) := by
  have hvalid : ∀ d root, .load d root ∈ [Operation.load nested []] → d.IsValid := by
    intro d root h
    cases List.mem_singleton.1 h
    exact nested_isValid
  exact ⟨hvalid, (run_isOrdered_iff [] [.load nested []] hvalid).1⟩

/-- The document of the directory is first, as its name is before the other name, but its path is
not before the other path. -/
theorem run_not_isOrdered_nested :
    nested.IsValid ∧ (run (ofDocuments []) [.load nested []]).paths = ["a/b.ncl", "a.ncl"] ∧
      ¬(run (ofDocuments []) [.load nested []]).IsOrdered := by
  have hpaths : (run (ofDocuments []) [.load nested []]).paths = ["a/b.ncl", "a.ncl"] := by
    rw [run, List.foldl_cons, List.foldl_nil, perform, load_nested]
    rfl
  refine ⟨nested_isValid, hpaths, ?_⟩
  rw [isOrdered_iff_paths, hpaths]
  decide

end Store

end PageCompiler
