import PageCompiler.Proofs.Cache

/-!
What tells one document from another. Path and markup make one sequence of bytes, with a zero
between them. Main statement: two documents have the same bytes if they have the same path and the
same markup, and else only if the path of one goes on, behind a zero, as the markup of the other
begins. Where no path does so, what a compiler remembers is reused for the very document that it was
made from.
-/

namespace PageCompiler

section Bytes

variable {s t : String}

theorem toList_loop_bytes (bytes : ByteArray) (i : Nat) (read : List UInt8) :
    ByteArray.toList.loop bytes i read = read.reverse ++ bytes.data.toList.drop i := by
  fun_induction ByteArray.toList.loop bytes i read with
  | case1 i read hi ih =>
    have hlt : i < bytes.data.toList.length := by simpa using hi
    have hget : bytes.get! i = bytes.data.toList[i] := by simp [ByteArray.get!, hi]
    rw [ih, List.drop_eq_getElem_cons hlt, hget, List.reverse_cons, List.append_assoc,
      List.singleton_append]
  | case2 i read hi =>
    have hle : bytes.data.toList.length ≤ i := by simpa using hi
    rw [List.drop_of_length_le hle, List.append_nil]

theorem toList_bytes (bytes : ByteArray) : bytes.toList = bytes.data.toList := by
  rw [ByteArray.toList, toList_loop_bytes, List.reverse_nil, List.nil_append, List.drop_zero]

theorem toList_toUTF8_append (s t : String) :
    (s ++ t).toUTF8.toList = s.toUTF8.toList ++ t.toUTF8.toList := by
  rw [toList_bytes, toList_bytes, toList_bytes, String.toUTF8, String.toByteArray_append,
    ByteArray.data_append, Array.toList_append]
  rfl

theorem toList_toUTF8_inj : s.toUTF8.toList = t.toUTF8.toList ↔ s = t := by
  rw [toList_bytes, toList_bytes, Array.toList_inj, ← ByteArray.ext_iff]
  exact String.toByteArray_inj

/-- Of two texts with a separator in them that are the same, one has it where the other has it, or
the first place of one is behind that of the other. -/
theorem append_cons_eq_iff {α : Type} {x : α} {p q m n : List α} :
    p ++ x :: m = q ++ x :: n ↔
      p = q ∧ m = n ∨ (∃ t, q = p ++ x :: t ∧ m = t ++ x :: n) ∨
        ∃ t, p = q ++ x :: t ∧ n = t ++ x :: m := by
  constructor
  · intro h
    obtain ⟨t, rfl, ht⟩ | ⟨t, rfl, ht⟩ := List.append_eq_append_iff.1 h
    · obtain ⟨rfl, hmn⟩ | ⟨t, rfl, rfl⟩ := List.cons_eq_append_iff.1 ht
      · exact .inl ⟨(List.append_nil p).symm, (List.cons.inj hmn).2.symm⟩
      · exact .inr (.inl ⟨t, rfl, rfl⟩)
    · obtain ⟨rfl, hmn⟩ | ⟨t, rfl, rfl⟩ := List.cons_eq_append_iff.1 ht
      · exact .inl ⟨List.append_nil q, (List.cons.inj hmn).2⟩
      · exact .inr (.inr ⟨t, rfl, rfl⟩)
  · rintro (⟨rfl, rfl⟩ | ⟨t, rfl, rfl⟩ | ⟨t, rfl, rfl⟩) <;> simp

end Bytes

namespace Document

variable {d e : Document}

theorem identity_eq (d : Document) :
    d.identity = (d.path ++ "\x00" ++ d.markup).toUTF8.toList := by
  have hzero : "\x00".toUTF8.toList = [0] := by
    rw [toList_bytes]
    rfl
  rw [identity, toList_toUTF8_append, toList_toUTF8_append, hzero, List.append_assoc,
    List.singleton_append]

/-- The path of `e` is that of `d` up to a zero, and goes on as the markup of `d` begins; behind
another zero follows the markup of `e`. -/
def GoesOn (d e : Document) : Prop :=
  ∃ text, e.path = d.path ++ "\x00" ++ text ∧ d.markup = text ++ "\x00" ++ e.markup

theorem GoesOn.zero_mem_path (h : d.GoesOn e) : '\x00' ∈ e.path.toList := by
  obtain ⟨text, hpath, -⟩ := h
  simp [hpath]

theorem goesOn_iff : d.GoesOn e ↔ ∃ text, e.path.toList = d.path.toList ++ '\x00' :: text ∧
    d.markup.toList = text ++ '\x00' :: e.markup.toList := by
  constructor
  · rintro ⟨text, hpath, hmarkup⟩
    exact ⟨text.toList, by simp [hpath], by simp [hmarkup]⟩
  · rintro ⟨text, hpath, hmarkup⟩
    exact ⟨.ofList text, by simp [← String.toList_inj, hpath],
      by simp [← String.toList_inj, hmarkup]⟩

theorem identity_eq_iff : d.identity = e.identity ↔
    d.path = e.path ∧ d.markup = e.markup ∨ d.GoesOn e ∨ e.GoesOn d := by
  have hchars (d : Document) : (d.path ++ "\x00" ++ d.markup).toList =
      d.path.toList ++ '\x00' :: d.markup.toList := by simp
  rw [identity_eq, identity_eq, toList_toUTF8_inj, ← String.toList_inj, hchars, hchars,
    append_cons_eq_iff, String.toList_inj, String.toList_inj, ← goesOn_iff, ← goesOn_iff]

end Document

namespace Compiler

variable {c : Compiler} {all : List Document}

/-- Whatever a compiler remembers was made from a document of its passes. -/
theorem mem_cache_after (ha : HashesTell all) {passes : List Pass}
    (hs : ∀ p ∈ passes, p.documents ⊆ all) (hc : c.cache.IsRightFor all)
    {entry : String × Reported (List Node)} (h : entry ∈ (c.after passes).cache) :
    (∃ e ∈ passes.flatMap Pass.documents, entry = (e.hash, e.parsed)) ∨ entry ∈ c.cache := by
  induction passes generalizing c with
  | nil => exact .inr h
  | cons p passes ih =>
    rw [List.forall_mem_cons] at hs
    have hone : ∀ q ∈ [p], q.documents ⊆ all := List.forall_mem_singleton.2 hs.1
    have hright : (c.after [p]).cache.IsRightFor all := isRightFor_after ha hone hc
    obtain ⟨e, he, rfl⟩ | hm := ih hs.2 hright h
    · exact .inl ⟨e, by simp only [List.flatMap_cons, List.mem_append, he, or_true], rfl⟩
    · have hknown := (@compile_known c p.documents p.data (hc.subset hs.1)).2
      rw [after, List.foldl_cons, List.foldl_nil, hknown] at hm
      split at hm
      · obtain ⟨e, he, rfl⟩ := ParseTable.mem_ofDocuments hm
        exact .inl ⟨e, by simp only [List.flatMap_cons, List.mem_append, he, true_or], rfl⟩
      · exact .inr hm

theorem hashesTell_of_identity
    (hdigest : ∀ d ∈ all, ∀ e ∈ all, d.hash = e.hash → d.identity = e.identity)
    (hpaths : ∀ d ∈ all, ∀ e ∈ all, ¬d.GoesOn e) : HashesTell all := by
  intro d hd e he hk
  obtain hsame | hon | hon := Document.identity_eq_iff.1 (hdigest d hd e he hk)
  · exact hsame
  · exact absurd hon (hpaths d hd e he)
  · exact absurd hon (hpaths e he d hd)

/-- Documents have the same bytes if path and markup are the same, or if the path of one goes on as
the markup of the other, for which it needs a zero. Where none does and no digest belongs to two
sequences of bytes, what is remembered for a document was made from this path and this markup. -/
theorem remembers_own (o : Options) (passes : List Pass) (d e : Document) :
    (d.identity = e.identity ↔
      d.path = e.path ∧ d.markup = e.markup ∨ d.GoesOn e ∨ e.GoesOn d) ∧
    (d.GoesOn e → '\x00' ∈ e.path.toList) ∧
    let all := d :: passes.flatMap Pass.documents
    (∀ e ∈ all, ∀ f ∈ all, Sha256.hash e.identity = Sha256.hash f.identity →
      e.identity = f.identity) →
    (∀ e ∈ all, ∀ f ∈ all, ¬e.GoesOn f) →
    ∀ r, ((new o).after passes).cache.lookup d.hash = some r →
      r = d.parsed ∧ ∃ e ∈ passes.flatMap Pass.documents, e.path = d.path ∧ e.markup = d.markup := by
  refine ⟨Document.identity_eq_iff, Document.GoesOn.zero_mem_path, ?_⟩
  intro all hdigest hpaths r hr
  have ha : HashesTell all := hashesTell_of_identity hdigest hpaths
  have hs : ∀ p ∈ passes, p.documents ⊆ all := fun p hp e he =>
    List.mem_cons_of_mem d (List.mem_flatMap.2 ⟨p, hp, he⟩)
  have hc : (new o).cache.IsRightFor all := ParseTable.isRightFor_nil all
  refine ⟨isRightFor_after ha hs hc d List.mem_cons_self r hr, ?_⟩
  obtain ⟨before, behind, heq, -⟩ := List.lookup_eq_some_iff.1 hr
  have hm : (d.hash, r) ∈ ((new o).after passes).cache := by simp [heq]
  obtain ⟨e, he, hentry⟩ | hn := mem_cache_after ha hs hc hm
  · obtain ⟨hk, -⟩ := Prod.mk.inj hentry
    exact ⟨e, he, ha e (List.mem_cons_of_mem d he) d List.mem_cons_self hk.symm⟩
  · cases hn

/-- A page behind another one that has a zero in its markup. -/
theorem remembers_own_pages :
    let d := Document.ofMarkup "a.html" "<p></p>"
    let passes : List Pass := [⟨[.ofMarkup "b.html" "\x00"], []⟩, ⟨[d], []⟩]
    let all := d :: passes.flatMap Pass.documents
    (∀ e ∈ all, ∀ f ∈ all, Sha256.hash e.identity = Sha256.hash f.identity →
        e.identity = f.identity) ∧
      (∀ e ∈ all, ∀ f ∈ all, ¬e.GoesOn f) ∧
      ((new default).after passes).cache.lookup d.hash = some d.parsed := by
  intro d passes all
  have hdigest : ∀ e ∈ all, ∀ f ∈ all, Sha256.hash e.identity = Sha256.hash f.identity →
      e.identity = f.identity := by decide +kernel
  have hzero : ∀ f ∈ all, '\x00' ∉ f.path.toList := by decide
  have hpaths : ∀ e ∈ all, ∀ f ∈ all, ¬e.GoesOn f := fun e _ f hf hon =>
    hzero f hf hon.zero_mem_path
  have hsome : (((new default).after passes).cache.lookup d.hash).isSome := by decide +kernel
  obtain ⟨r, hr⟩ := Option.isSome_iff_exists.1 hsome
  obtain ⟨rfl, -⟩ := (remembers_own default passes d d).2.2 hdigest hpaths r hr
  exact ⟨hdigest, hpaths, hr⟩

/-- A zero in a path: another document has the same bytes, and a second pass shows its page. -/
theorem remembers_other :
    let d := Document.ofMarkup "index.ncl" "x\x00y"
    let e := Document.ofMarkup "index.ncl\x00x" "y"
    let html (r : Result) : Option String := r.toOption.map fun page => page.value.html
    d.identity = e.identity ∧ d.path ≠ e.path ∧ d.markup ≠ e.markup ∧
      html (((new default).after [⟨[e], []⟩]).compile [d] []).1 =
        html (PageCompiler.compile default [e] []) ∧
      html (((new default).after [⟨[e], []⟩]).compile [d] []).1 ≠
        html (PageCompiler.compile default [d] []) := by
  decide +kernel

end Compiler

end PageCompiler
