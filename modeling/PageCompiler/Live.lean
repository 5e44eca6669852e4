import PageCompiler.Compile
import PageCompiler.Directory

/-!
Compilation while documents are being edited. Edits of a burst are collected and applied together
once it has been quiet for a while; only the newest pass is published.
-/

namespace PageCompiler

open Json (Object)

structure Edit where
  path : String
  markup : String
  deriving DecidableEq, Repr

/-- Edits that wait for the end of a burst, one for each path in the order of the paths. Times and
the `window` of quiet are in milliseconds. -/
structure EditBuffer where
  window : Nat
  pending : List Edit
  /-- The end of the burst, if nothing more comes. -/
  deadline : Option Nat

namespace EditBuffer

def new (window : Nat) : EditBuffer := ⟨window, [], none⟩

/-- Puts an edit in its place; one of the same path is replaced. -/
def insert (e : Edit) : List Edit → List Edit
  | [] => [e]
  | f :: rest =>
    if f.path = e.path then e :: rest
    else if e.path < f.path then e :: f :: rest
    else f :: insert e rest

/-- The deadline never moves back. -/
def record (e : Edit) (now : Nat) (b : EditBuffer) : EditBuffer :=
  let deadline := max (b.deadline.getD 0) (now + b.window)
  { b with pending := insert e b.pending, deadline := some deadline }

/-- The edits of a burst that is over, and the buffer without them. -/
def drain (now : Nat) (b : EditBuffer) : List Edit × EditBuffer :=
  match b.deadline with
  | some deadline =>
    if deadline ≤ now then (b.pending, { b with pending := [], deadline := none }) else ([], b)
  | none => ([], b)

end EditBuffer

structure Store where
  documents : List Document

namespace Store

def ofDocuments (documents : List Document) : Store := ⟨Discovery.inOrder documents⟩

/-- Puts the markup of an edit into the first document of that path, or adds a document. -/
def applyEdit (e : Edit) : List Document → List Document
  | [] => [.ofMarkup e.path e.markup]
  | d :: rest =>
    if d.path = e.path then { d with markup := e.markup } :: rest else d :: applyEdit e rest

def applyEdits (edits : List Edit) (s : Store) : Store :=
  ofDocuments (edits.foldl (fun documents e => applyEdit e documents) s.documents)

/-- The documents below a path take the place of all others. They are counted, and where they can
not be read nothing changes. -/
def load (d : Directory) (root : List String) (s : Store) : Except LoadError Nat × Store :=
  match d.load root with
  | .ok documents => (.ok documents.length, ⟨documents⟩)
  | .error e => (.error e, s)

end Store

structure Publication where
  ticket : Nat
  page : Reported Compiled

/-- A site that is compiled again and again. Passes are numbered from one. -/
structure Live where
  compiler : Compiler
  store : Store
  passes : Nat
  published : Option Publication

namespace Live

def new (o : Options) (store : Store) : Live := ⟨.new o, store, 0, none⟩

/-- Starts a pass, which makes all passes before it stale. -/
def begin (l : Live) : Nat × Live := (l.passes + 1, { l with passes := l.passes + 1 })

def isCurrent (l : Live) (ticket : Nat) : Bool := l.passes = ticket

/-- Publishes the page of the newest pass, and that only once. -/
def publish? (ticket : Nat) (page : Reported Compiled) (l : Live) : Option Live :=
  let done := l.published.any fun p => ticket ≤ p.ticket
  if l.isCurrent ticket && !done then some { l with published := some ⟨ticket, page⟩ } else none

def latest? (l : Live) : Option (Reported Compiled) := l.published.map Publication.page

/-- Compiles the documents of the store. There is no page if a newer pass has been started. -/
def recompile (data : Object) (l : Live) :
    Except CompileError (Option (Reported Compiled)) × Live :=
  let (ticket, l) := l.begin
  let (result, compiler) := l.compiler.compile l.store.documents data
  let l := { l with compiler }
  match result with
  | .error e => (.error e, l)
  | .ok page =>
    match l.publish? ticket page with
    | some l => (.ok (some page), l)
    | none => (.ok none, l)

def processEdits (now : Nat) (data : Object) (b : EditBuffer) (l : Live) :
    Except CompileError (Option (Reported Compiled)) × EditBuffer × Live :=
  let (edits, b) := b.drain now
  if edits.isEmpty then (.ok none, b, l)
  else
    let (result, l) := recompile data { l with store := l.store.applyEdits edits }
    (result, b, l)

end Live

end PageCompiler
