import PageCompiler.Document

/-!
Documents in a directory: every file with the extension `ncl` below it, together with the style
sheet and the script of the same name beside it.
-/

namespace PageCompiler

structure File where
  path : List String
  content : ByteArray

inductive LoadError
  | missing
  | unreadable
  deriving DecidableEq, Repr

/-- The names on a path; empty ones and single dots count for nothing. -/
def pathNames (path : String) : List String :=
  ((Text.splitOn '/' path.toList).filter fun c => !c.isEmpty && c != ['.']).map .ofList

/-- The order of paths, name by name; a directory comes before what is in it. -/
def pathLE : List String → List String → Bool
  | [], _ => true
  | _ :: _, [] => false
  | a :: as, b :: bs => a < b || (a = b && pathLE as bs)

def extension? (name : String) : Option String :=
  match (Text.splitOn '.' name.toList).reverse with
  | last :: _ => if stemOf name = name then none else some (.ofList last)
  | [] => none

namespace File

def name (f : File) : String := f.path.getLastD ""

def text? (f : File) : Option String := String.fromUTF8? f.content

def isDocument (f : File) : Bool := extension? f.name = some "ncl"

def beside (f : File) (extension : String) : List String :=
  f.path.dropLast ++ [stemOf f.name ++ "." ++ extension]

end File

structure Directory where
  files : List File

namespace Directory

/-- Of several files of one path the last counts. -/
def ofFiles (files : List File) : Directory :=
  ⟨files.foldl (fun fs f => fs.filter (fun g => g.path ≠ f.path) ++ [f]) []⟩

def text? (d : Directory) (path : List String) : Option String :=
  (d.files.find? fun f => f.path = path).bind File.text?

def below (d : Directory) (root : List String) : List File :=
  d.files.filter fun f => root.isPrefixOf f.path

/-- The directory itself always exists, others if there is a file in them. -/
def exists? (d : Directory) (root : List String) : Bool := root.isEmpty || !(d.below root).isEmpty

def document (d : Directory) (root : List String) (f : File) : Except LoadError Document :=
  match f.text? with
  | none => .error .unreadable
  | some markup => .ok
    { path := Text.join "/" (f.path.drop root.length), markup
      stylesheet := d.text? (f.beside "css")
      script := d.text? (f.beside "js") }

/-- The documents below a path, in the order of their paths, compared name by name. -/
def load (d : Directory) (root : List String) : Except LoadError (List Document) :=
  if d.exists? root then
    let files := (d.below root).filter File.isDocument
    (files.mergeSort fun f g => pathLE f.path g.path).mapM (d.document root)
  else .error .missing

end Directory

end PageCompiler
