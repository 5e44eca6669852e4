import PageCompiler.Diagnostic

/-!
Results of expanding components: a value, the components that have been used for it, in order, and
what has been reported.
-/

namespace PageCompiler

structure Expanded (α : Type u) where
  value : α
  used : List String
  diagnostics : List Diagnostic

namespace Expanded

variable {α β : Type u}

protected def pure (a : α) : Expanded α := ⟨a, [], []⟩

protected def bind (r : Expanded α) (f : α → Expanded β) : Expanded β :=
  let s := f r.value
  ⟨s.value, r.used ++ s.used, r.diagnostics ++ s.diagnostics⟩

instance : Monad Expanded where
  pure := Expanded.pure
  bind := Expanded.bind

def use (name : String) : Expanded PUnit := ⟨⟨⟩, [name], []⟩

def report (d : Diagnostic) : Expanded PUnit := ⟨⟨⟩, [], [d]⟩

end Expanded

end PageCompiler
