import PageCompiler.Compile
import PageCompiler.Proofs.Report

/-!
One pass of a compiler: either the page is not there and nothing happens, or the report of the page
decides the result and what is remembered.
-/

namespace PageCompiler

open Json (Object)

theorem Page.select_eq_error {entry : Option String} {pages : List Page} {e : CompileError}
    (h : select entry pages = .error e) : ∃ path, e = .entryNotFound path := by
  unfold select at h
  split at h
  · cases h
  · split at h
    · cases h
    · cases h
      exact ⟨_, rfl⟩

namespace Compiler

def selectPage (o : Options) (d : Discovery) : Except CompileError (Option Page) :=
  Page.select o.entry d.pages

def pageReport (o : Options) (data : Object) (discovery : Reported Discovery)
    (selected : Option Page) : Reported Compiled := do
  let d ← discovery
  compilePage o data d.registry (← Page.orEmpty selected)

variable {c : Compiler} {documents : List Document} {data : Object}

theorem compile_of_error {e : CompileError}
    (h : selectPage c.options (discover c.cache documents).value = .error e) :
    c.compile documents data = (.error e, c) := by
  unfold selectPage at h
  simp only [compile, h]

theorem compile_of_ok {selected : Option Page}
    (h : selectPage c.options (discover c.cache documents).value = .ok selected) :
    c.compile documents data =
      let d := discover c.cache documents
      let r := pageReport c.options data d selected
      (judge c.options.mode r, if hasErrors r then c else { c with cache := d.value.parsed }) := by
  unfold selectPage at h
  simp only [compile, h]
  rw [← pageReport]
  cases hasErrors (pageReport c.options data (discover c.cache documents) selected) <;> rfl

theorem compile_options : (c.compile documents data).2.options = c.options := by
  cases h : selectPage c.options (discover c.cache documents).value with
  | error e => rw [compile_of_error h]
  | ok selected =>
    rw [compile_of_ok h]
    dsimp only
    split <;> rfl

/-- The options name a page that is there, and nothing that has been reported is an error. -/
def isClean : Result → Bool
  | .ok page => !hasErrors page
  | .error (.refused ds) => !ds.any Diagnostic.isError
  | .error _ => false

theorem isClean_judge (mode : Mode) (r : Reported Compiled) :
    isClean (judge mode r) = !hasErrors r := by
  unfold judge
  split <;> rfl

/-- A pass that is not clean leaves the compiler as it was. -/
theorem compile_of_not_isClean (h : isClean (c.compile documents data).1 = false) :
    (c.compile documents data).2 = c := by
  cases hs : selectPage c.options (discover c.cache documents).value with
  | error e => rw [compile_of_error hs]
  | ok selected =>
    rw [compile_of_ok hs] at h ⊢
    dsimp only at h ⊢
    rw [isClean_judge, Bool.not_eq_false'] at h
    rw [if_pos h]

end Compiler

end PageCompiler
