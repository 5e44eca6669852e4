import Mathlib
import PageCompiler.Directory
import PageCompiler.Proofs.Words

/-!
The order of paths. Texts are compared character by character, and some characters come before the
slash; the files of a directory are compared name by name, as if no character did. Main statements:
the two orders differ for a pair of paths just if these part where one has a slash and the other a
character before it, and the documents of a directory are in the order of names.
-/

namespace PageCompiler

/-- No name is empty, and none has a slash. -/
def IsNames (names : List String) : Prop := ∀ name ∈ names, name ≠ "" ∧ '/' ∉ name.toList

theorem isNames_pathNames (path : String) : IsNames (pathNames path) := by
  intro name hname
  obtain ⟨cs, hcs, rfl⟩ := List.mem_map.1 hname
  obtain ⟨hpiece, hne⟩ := List.mem_filter.1 hcs
  rw [String.toList_ofList]
  refine ⟨?_, Text.notMem_of_mem_splitOn '/' path.toList cs hpiece⟩
  intro hempty
  rw [String.ofList_eq_empty_iff] at hempty
  rw [hempty] at hne
  cases hne

theorem pathLE_iff {p q : List String} : pathLE p q ↔ p ≤ q := by
  rw [le_iff_lt_or_eq]
  induction p generalizing q with
  | nil =>
    cases q with
    | nil => exact iff_of_true rfl (.inr rfl)
    | cons b q => exact iff_of_true rfl (.inl .nil)
  | cons a p ih =>
    cases q with
    | nil => exact iff_of_false nofun (by rintro (h | h) <;> cases h)
    | cons b q =>
      have hlt : a :: p < b :: q ↔ a < b ∨ a = b ∧ p < q := List.cons_lex_cons_iff
      rw [pathLE, Bool.or_eq_true, Bool.and_eq_true, decide_eq_true_iff, decide_eq_true_iff, ih,
        hlt, List.cons.injEq, and_or_left, or_assoc]

theorem lt_of_append_lt {root ps qs : List String} (h : root ++ ps < root ++ qs) : ps < qs := by
  induction root with
  | nil => exact h
  | cons name root ih => exact ih (List.lex_cons_iff.1 h)

/-- The order of characters in which the slash comes first. -/
def SlashFirst (x y : Char) : Prop := y ≠ '/' ∧ (x = '/' ∨ x < y)

instance : Std.Asymm SlashFirst where
  asymm := by
    rintro x y ⟨hy, hxy⟩ ⟨hx, hyx⟩
    exact lt_asymm (hxy.resolve_left hx) (hyx.resolve_left hy)

/-- The order of path texts in which the slash comes before all other characters. -/
def PathLT (p q : String) : Prop := List.Lex SlashFirst p.toList q.toList

/-- The paths part where the first one has a slash and the second one a character before it. -/
def PartsBelowSlash (p q : String) : Prop :=
  ∃ stem rest c more, p.toList = stem ++ '/' :: rest ∧ q.toList = stem ++ c :: more ∧ c < '/'

section PathText

variable {p q : String} {ps : List String}

theorem PartsBelowSlash.pathLT (h : PartsBelowSlash p q) : PathLT p q := by
  obtain ⟨stem, rest, c, more, hp, hq, hc⟩ := h
  rw [PathLT, hp, hq]
  apply List.Lex.append_left
  exact .rel ⟨hc.ne, .inl rfl⟩

theorem PartsBelowSlash.lt (h : PartsBelowSlash p q) : q < p := by
  obtain ⟨stem, rest, c, more, hp, hq, hc⟩ := h
  rw [String.lt_iff_toList_lt, hp, hq]
  apply List.Lex.append_left
  exact .rel hc

theorem PathLT.lt_or_parts (h : PathLT p q) : p < q ∨ PartsBelowSlash p q := by
  rw [String.lt_iff_toList_lt, PartsBelowSlash]
  rw [PathLT] at h
  generalize p.toList = u, q.toList = v at h
  induction h with
  | nil => exact .inl .nil
  | @cons x u v _ ih =>
    apply ih.imp
    · exact .cons
    · rintro ⟨stem, rest, c, more, rfl, rfl, hc⟩
      exact ⟨x :: stem, rest, c, more, rfl, rfl, hc⟩
  | @rel x u y v hxy =>
    obtain ⟨hy, rfl | hlt⟩ := hxy
    · obtain hlt | hgt := lt_or_gt_of_ne hy
      · exact .inr ⟨[], u, y, v, rfl, rfl, hlt⟩
      · exact .inl (.rel hgt)
    · exact .inl (.rel hlt)

/-- The orders agree on two paths just if these do not part below a slash. -/
theorem PathLT.lt_iff (h : PathLT p q) : p < q ↔ ¬PartsBelowSlash p q :=
  ⟨fun hlt hparts => lt_asymm hlt hparts.lt, h.lt_or_parts.resolve_right⟩

theorem PathLT.le_iff (h : PathLT p q) : p ≤ q ↔ ¬PartsBelowSlash p q :=
  ⟨fun hle hparts => hle.not_gt hparts.lt, fun hparts => (h.lt_iff.2 hparts).le⟩

/-- There are paths that the two orders take in different rows. -/
def HasParting (ps : List String) : Prop := ∃ p ∈ ps, ∃ q ∈ ps, PartsBelowSlash p q

theorem pairwise_iff_not_hasParting {R : String → String → Prop}
    (hR : ∀ {p q}, PathLT p q → (R p q ↔ ¬PartsBelowSlash p q)) (h : ps.Pairwise PathLT) :
    ps.Pairwise R ↔ ¬HasParting ps := by
  -- The second path of a pair never parts below the first one, as it would come before it.
  have hapart : ps.Pairwise R ↔
      ps.Pairwise fun p q => ¬PartsBelowSlash p q ∧ ¬PartsBelowSlash q p := by
    constructor
    · intro hp
      apply (hp.and h).imp
      rintro p q ⟨hpq, hlt⟩
      refine ⟨(hR hlt).1 hpq, ?_⟩
      intro hparts
      exact asymm_of (List.Lex SlashFirst) hlt hparts.pathLT
    · intro hp
      apply (hp.and h).imp
      rintro p q ⟨hpq, hlt⟩
      exact (hR hlt).2 hpq.1
  rw [hapart, HasParting]
  constructor
  · rintro hp ⟨p, hmem, q, hmem', hparts⟩
    have : Std.Symm fun p q => ¬PartsBelowSlash p q ∧ ¬PartsBelowSlash q p :=
      ⟨fun _ _ => And.symm⟩
    have hself : ∀ p ∈ ps, ¬PartsBelowSlash p p ∧ ¬PartsBelowSlash p p := by
      intro p _
      exact ⟨fun hp => lt_irrefl _ hp.lt, fun hp => lt_irrefl _ hp.lt⟩
    exact (hp.forall_of_forall hself hmem hmem').1 hparts
  · intro hnone
    apply List.pairwise_of_forall_mem_list
    intro p hp q hq
    exact ⟨fun hparts => hnone ⟨p, hp, q, hq, hparts⟩, fun hparts => hnone ⟨q, hq, p, hp, hparts⟩⟩

end PathText

/-- The names with a slash in front of each. -/
def slashed (names : List String) : List Char := names.flatMap fun name => '/' :: name.toList

theorem toList_join_cons (name : String) (names : List String) :
    (Text.join "/" (name :: names)).toList = name.toList ++ slashed names := by
  induction names generalizing name with
  | nil => exact (List.append_nil _).symm
  | cons next names ih =>
    have hjoin : Text.join "/" (name :: next :: names) =
        name ++ "/" ++ Text.join "/" (next :: names) := rfl
    rw [hjoin, String.toList_append, String.toList_append, ih, List.append_assoc]
    rfl

theorem lex_append_slashed {a b : List Char} (h : List.Lex (· < ·) a b) (hb : '/' ∉ b)
    (ps qs : List String) : List.Lex SlashFirst (a ++ slashed ps) (b ++ slashed qs) := by
  induction h with
  | @nil c cs =>
    have hc : c ≠ '/' := fun hc => hb (hc ▸ List.mem_cons_self)
    cases ps with
    | nil => exact .nil
    | cons p ps => exact .rel ⟨hc, .inl rfl⟩
  | cons _ ih => exact .cons (ih fun hmem => hb (List.mem_cons_of_mem _ hmem))
  | @rel x u y v hxy =>
    have hy : y ≠ '/' := fun hy => hb (hy ▸ List.mem_cons_self)
    exact .rel ⟨hy, .inr hxy⟩

theorem lex_slashed {ps qs : List String} (hqs : IsNames qs) (h : ps < qs) :
    List.Lex SlashFirst (slashed ps) (slashed qs) := by
  induction h with
  | nil => exact .nil
  | @cons name ps qs _ ih =>
    apply List.Lex.cons
    apply List.Lex.append_left
    exact ih fun n hn => hqs n (List.mem_cons_of_mem _ hn)
  | @rel p ps q qs hpq =>
    apply List.Lex.cons
    exact lex_append_slashed (String.lt_iff_toList_lt.1 hpq) (hqs q List.mem_cons_self).2 ps qs

theorem pathLT_join {ps qs : List String} (hqs : IsNames qs) (h : ps < qs) :
    PathLT (Text.join "/" ps) (Text.join "/" qs) := by
  cases qs with
  | nil => cases h
  | cons q qs =>
    rw [PathLT, toList_join_cons]
    cases ps with
    | nil =>
      have hne : q.toList ≠ [] := by
        rw [ne_eq, String.toList_eq_nil_iff]
        exact (hqs q List.mem_cons_self).1
      obtain ⟨c, cs, hq⟩ := List.exists_cons_of_ne_nil hne
      rw [hq]
      exact .nil
    | cons p ps =>
      rw [toList_join_cons]
      exact List.lex_cons_iff.1 (lex_slashed hqs h)

theorem map_eq_of_mapM {α β γ ε : Type} {f : α → Except ε β} {g : β → γ} {k : α → γ}
    (hf : ∀ a b, f a = .ok b → g b = k a) {as : List α} {bs : List β} (h : as.mapM f = .ok bs) :
    bs.map g = as.map k := by
  induction as generalizing bs with
  | nil =>
    cases h
    rfl
  | cons a as ih =>
    rw [List.mapM_cons] at h
    cases ha : f a with
    | error e =>
      rw [ha] at h
      cases h
    | ok b =>
      cases hrest : as.mapM f with
      | error e =>
        rw [ha, hrest] at h
        cases h
      | ok cs =>
        rw [ha, hrest] at h
        cases h
        rw [List.map_cons, List.map_cons, hf a b ha, ih hrest]

namespace Directory

/-- No two files have one path, and every path is made of names. -/
def IsValid (d : Directory) : Prop :=
  (d.files.map File.path).Nodup ∧ ∀ f ∈ d.files, IsNames f.path

variable {d : Directory} {root : List String} {ds : List Document}

theorem isValid_ofFiles {files : List File} (h : ∀ f ∈ files, IsNames f.path) :
    (ofFiles files).IsValid := by
  rw [ofFiles]
  suffices ∀ fs : List File, (fs.map File.path).Nodup → (∀ f ∈ fs, IsNames f.path) →
      IsValid ⟨files.foldl (fun fs f => fs.filter (fun g => g.path ≠ f.path) ++ [f]) fs⟩ from
    this [] .nil fun _ => nofun
  induction files with
  | nil => exact fun fs hnodup hfs => ⟨hnodup, hfs⟩
  | cons f files ih =>
    rw [List.forall_mem_cons] at h
    intro fs hnodup hfs
    apply ih h.2
    · rw [List.map_append, List.map_singleton, List.nodup_append]
      refine ⟨hnodup.sublist (List.filter_sublist.map _), List.nodup_singleton _, ?_⟩
      intro p hp q hq
      obtain ⟨g, hg, rfl⟩ := List.mem_map.1 hp
      rw [List.mem_singleton.1 hq]
      exact of_decide_eq_true (List.mem_filter.1 hg).2
    · intro g hg
      obtain hg | hg := List.mem_append.1 hg
      · exact hfs g (List.mem_filter.1 hg).1
      · rw [List.mem_singleton.1 hg]
        exact h.1

/-- The files of the documents below a path, in the order of their names. -/
def documentFiles (d : Directory) (root : List String) : List File :=
  ((d.below root).filter File.isDocument).mergeSort fun f g => pathLE f.path g.path

theorem load_eq (d : Directory) (root : List String) :
    d.load root = if d.exists? root then (d.documentFiles root).mapM (d.document root)
      else .error .missing := rfl

theorem documentFiles_pairwise (h : d.IsValid) :
    (d.documentFiles root).Pairwise fun f g => f.path < g.path := by
  have hle : (d.documentFiles root).Pairwise fun f g => pathLE f.path g.path := by
    apply List.pairwise_mergeSort
    · intro f g k hfg hgk
      exact pathLE_iff.2 ((pathLE_iff.1 hfg).trans (pathLE_iff.1 hgk))
    · intro f g
      rw [Bool.or_eq_true, pathLE_iff, pathLE_iff]
      exact le_total f.path g.path
  have hne : (d.documentFiles root).Pairwise fun f g => f.path ≠ g.path := by
    rw [← List.pairwise_map (f := File.path) (R := (· ≠ ·))]
    apply ((List.mergeSort_perm _ _).map File.path).nodup_iff.2
    exact h.1.sublist ((List.filter_sublist.trans List.filter_sublist).map File.path)
  apply (hle.and hne).imp
  rintro f g ⟨hfg, hne⟩
  exact lt_of_le_of_ne (pathLE_iff.1 hfg) hne

theorem mem_documentFiles {f : File} (h : f ∈ d.documentFiles root) :
    f ∈ d.files ∧ f.path = root ++ f.path.drop root.length := by
  have hbelow := (List.mem_filter.1 (List.mem_mergeSort.1 h)).1
  obtain ⟨hmem, hprefix⟩ := List.mem_filter.1 hbelow
  exact ⟨hmem, List.prefix_append_drop (List.isPrefixOf_iff_prefix.1 hprefix)⟩

theorem paths_of_load (h : d.load root = .ok ds) :
    ds.map Document.path =
      (d.documentFiles root).map fun f => Text.join "/" (f.path.drop root.length) := by
  rw [load_eq] at h
  split at h
  · apply map_eq_of_mapM _ h
    intro f document hf
    rw [Directory.document] at hf
    split at hf
    · cases hf
    · cases hf
      rfl
  · cases h

theorem load_pairwise (hd : d.IsValid) (h : d.load root = .ok ds) :
    (ds.map Document.path).Pairwise PathLT := by
  rw [paths_of_load h, List.pairwise_map]
  apply (documentFiles_pairwise hd).imp_of_mem
  intro f g hf hg hlt
  obtain ⟨-, hf⟩ := mem_documentFiles hf
  obtain ⟨hmem, hg⟩ := mem_documentFiles hg
  apply pathLT_join
  · intro name hname
    exact hd.2 g hmem name (List.mem_of_mem_drop hname)
  · rw [hf, hg] at hlt
    exact lt_of_append_lt hlt

end Directory

end PageCompiler
