import PageCompiler.Proofs.Edits

/-!
The order in which documents are given. Main statement: it shows in nothing that is discovered or
compiled, if no two documents have the same path.
-/

namespace PageCompiler

open Json (Object)

namespace Discovery

variable {ds es : List Document}

/-- Documents with distinct paths have only one order by their paths. -/
theorem inOrder_congr (hp : ds.Perm es) (hn : (ds.map Document.path).Nodup) :
    inOrder ds = inOrder es := by
  have hsorted : (inOrder ds).Perm (inOrder es) :=
    ((List.mergeSort_perm ds _).trans hp).trans (List.mergeSort_perm es _).symm
  have hanti : ∀ d e, d ∈ inOrder ds → e ∈ inOrder es → d.path ≤ e.path → e.path ≤ d.path →
      d = e := fun d e hd he hle hge =>
    List.inj_on_of_nodup_map hn (List.mem_mergeSort.1 hd)
      (hp.mem_iff.2 (List.mem_mergeSort.1 he)) (le_antisymm hle hge)
  exact hsorted.eq_of_pairwise hanti (Store.ofDocuments_isOrdered ds)
    (Store.ofDocuments_isOrdered es)

end Discovery

variable {ds es : List Document}

/-- Documents in another order give the same registry, the same pages in the same order, the same
reports and the same parses, and any compiler makes the same result of them and remembers the
same. -/
theorem compile_perm (hp : ds.Perm es) (hn : (ds.map Document.path).Nodup) :
    (∀ known, discover known ds = discover known es) ∧
    (∀ (c : Compiler) (data : Object), c.compile ds data = c.compile es data) ∧
    ∀ (o : Options) (data : Object), compile o ds data = compile o es data := by
  have hdiscover (known : ParseTable) : discover known ds = discover known es := by
    rw [discover, discover, Discovery.inOrder_congr hp hn]
  have hcompile (c : Compiler) (data : Object) : c.compile ds data = c.compile es data := by
    rw [Compiler.compile, Compiler.compile, hdiscover]
  refine ⟨hdiscover, hcompile, fun o data => ?_⟩
  rw [compile, compile, hcompile]

/-- Two documents that define one component, in either order. -/
theorem compile_perm_duplicate :
    let a : Document := .ofMarkup "a/Card.html" "<p></p>"
    let b : Document := .ofMarkup "b/Card.html" "<b></b>"
    [a, b].Perm [b, a] ∧ ([a, b].map Document.path).Nodup ∧
      discover [] [a, b] = discover [] [b, a] := by
  intro a b
  have hp : [a, b].Perm [b, a] := .swap b a []
  have hn : ([a, b].map Document.path).Nodup := by decide
  exact ⟨hp, hn, (compile_perm hp hn).1 []⟩

end PageCompiler
