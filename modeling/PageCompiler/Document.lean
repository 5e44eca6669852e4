import PageCompiler.Text.Search
import PageCompiler.Digest.Sha256

/-!
The documents of a site: markup with an optional style sheet and script, under a path.
-/

namespace PageCompiler

/-- The last component of a path, where empty ones and single dots count for nothing. There is
none for a path that ends in two dots or names a root or the current directory. -/
def fileName? (path : String) : Option String :=
  match ((Text.splitOn '/' path.toList).filter fun c => !c.isEmpty && c != ['.']).getLast? with
  | some ['.', '.'] => none
  | some name => some (.ofList name)
  | none => none

/-- A file name up to its last point; a point at the beginning is no such point. -/
def stemOf (name : String) : String :=
  match (Text.splitOn '.' name.toList).reverse with
  | _ :: before =>
    let stem := Text.join "." (before.reverse.map .ofList)
    if stem.isEmpty then name else stem
  | [] => name

structure Document where
  path : String
  markup : String
  stylesheet : Option String
  script : Option String
  deriving DecidableEq, Repr

namespace Document

def ofMarkup (path markup : String) : Document := ⟨path, markup, none, none⟩

/-- The file name without directories and extension, or the whole path if it has no file name. -/
def stem (d : Document) : String := ((fileName? d.path).map stemOf).getD d.path

def isInDirectory (d : Document) (name : String) : Bool :=
  (Text.splitOn '/' (d.path.toList.map fun c => if c = '\\' then '/' else c)).dropLast.contains
    name.toList

/-- The bytes that tell one document's markup from another's: a zero stands between path and
markup. -/
def identity (d : Document) : List UInt8 :=
  d.path.toUTF8.toList ++ 0 :: d.markup.toUTF8.toList

def hash (d : Document) : String := Sha256.hash d.identity

end Document

end PageCompiler
