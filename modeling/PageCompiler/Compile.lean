import PageCompiler.Component.Expand
import PageCompiler.ControlFlow
import PageCompiler.Discovery
import PageCompiler.Interpolation
import PageCompiler.Island.Extract
import PageCompiler.Island.Registration
import PageCompiler.Layout
import PageCompiler.Options
import PageCompiler.Shell
import PageCompiler.Verification

/-!
Compilation of a page from a set of documents and its data. All stages report problems and go on;
only strict mode refuses a page with a report. A compiler remembers how documents were parsed: its
memory changes with passes that report no error, and never shows in a result.
-/

namespace PageCompiler

open Json (Object)

structure Compiled where
  html : String
  css : String
  script : String
  title : String
  islands : List Island.Module

inductive CompileError
  /-- Strict mode refuses a page with any diagnostic. -/
  | refused (diagnostics : List Diagnostic)
  | entryNotFound (path : String)
  | badOptions
  | badDocuments
  | badData
  | dataNotObject

namespace CompileError

/-- Stands for what is wrong with a JSON text. -/
def jsonProblem : String := "<json>"

def summary (diagnostics : List Diagnostic) : String :=
  "compilation failed with " ++ toString diagnostics.length ++ " diagnostic(s)" ++
    String.join (diagnostics.map fun d => "\n  " ++ d.text)

def message : CompileError → String
  | refused diagnostics => summary diagnostics
  | entryNotFound path => "invalid compile options: entry page `" ++ path ++ "` not found"
  | badOptions => "invalid compile options: " ++ jsonProblem
  | badDocuments => "invalid data context: documents: " ++ jsonProblem
  | badData => "invalid data context: " ++ jsonProblem
  | dataNotObject => "invalid data context: the data context must be a JSON object"

end CompileError

namespace Page

def empty : Page := ⟨"", [], none, none⟩

/-- The page at the entry path, or the first one. There is none where there are no pages. -/
def select (entry : Option String) (pages : List Page) : Except CompileError (Option Page) :=
  match entry with
  | none => .ok pages.head?
  | some path =>
    match pages.find? fun p => p.path = path with
    | some page => .ok (some page)
    | none => .error (.entryNotFound path)

def orEmpty : Option Page → Reported Page
  | some page => return page
  | none => do
    report (.error .discovery .structuralDirective "No page document to render.")
    return empty

end Page

/-- The nodes of a page with what goes into its head and to its end. -/
structure Arranged where
  nodes : List Node
  styles : List String
  scripts : List String

/-- Puts a page into its layout and the components into the page. Nothing is evaluated. The styles
of the layout come first, then those of the components in the order of their use, then those of
the page; the same holds for scripts. -/
def arrange (o : Options) (registry : Registry) (page : Page) (t : Template) :
    Reported Arranged := do
  let applied ←
    match t.findings.layout with
    | some name => Layout.apply registry name t.nodes page.path
    | none => pure ⟨t.nodes, [], []⟩
  let expanded := Component.expandNodes ⟨registry, o.maxComponentDepth⟩ page.path applied.nodes
  expanded.diagnostics.forM report
  let used := expanded.used.filterMap registry.component?
  return {
    nodes := expanded.value
    styles := applied.styles ++ used.flatMap Definition.styles ++ t.styles ++
      page.stylesheet.toList
    scripts := applied.scripts ++ used.flatMap Definition.scripts ++ t.findings.scripts ++
      page.script.toList }

/-- Evaluates all control flow and all expressions outside of islands. -/
def evaluateNodes (mode : Mode) (data : Object) (file : String) (nodes : List Node) :
    Reported (List Node) := do
  let nodes ← ControlFlow.expandNodes mode data file nodes
  Interpolation.resolveNodes mode data file nodes

/-- The tree that is written, and the modules of its islands. -/
def finishNodes (mode : Mode) (data : Object) (file : String) (nodes : List Node) :
    Reported (List Node × List Island.Module) := do
  let nodes ← evaluateNodes mode data file nodes
  let extracted := Island.extractIslands file nodes
  extracted.diagnostics.forM report
  (verify file extracted.nodes).forM report
  return (extracted.nodes, extracted.modules)

def Node.isDoctype : Node → Bool
  | .doctype .. => true
  | _ => false

def Node.isError : Node → Bool
  | .error .. => true
  | _ => false

/-- Blocks without blank ends and blank lines between them; blank blocks go. -/
def joinBlocks (blocks : List String) : String :=
  Text.join "\n\n" ((blocks.map Text.trimmed).filter fun b => !b.isEmpty)

def errorBlockStyle : String :=
  ".ncl-error\x7bdisplay:block;margin:.5rem 0;padding:.5rem .75rem;border:1px solid #d33;" ++
  "border-radius:4px;background:#fff1f1;color:#8a1010;font:14px/1.4 ui-monospace,monospace;" ++
  "white-space:pre-wrap\x7d"

def titleOf (o : Options) (data : Object) (file : String) (t : Template) : Reported String :=
  match t.findings.title with
  | some value => Interpolation.metadata o.mode data file value
  | none => return Text.escapeHtml o.defaultTitle

def descriptionOf (o : Options) (data : Object) (file : String) (t : Template) :
    Reported (Option String) :=
  match t.findings.description with
  | some value => do return some (← Interpolation.metadata o.mode data file value)
  | none => return none

def compilePage (o : Options) (data : Object) (registry : Registry) (page : Page) :
    Reported Compiled := do
  let t := Template.ofNodes .page page.path page.nodes
  t.findings.diagnostics.forM report
  let arranged ← arrange o registry page t
  let (nodes, islands) ← finishNodes o.mode data page.path arranged.nodes
  let title ← titleOf o data page.path t
  let description ← descriptionOf o data page.path t
  let nodes := nodes.filter fun n => !n.isDoctype
  let errorStyle :=
    if (Node.listDescendants nodes).any Node.isError then [errorBlockStyle] else []
  let css := joinBlocks (arranged.styles ++ errorStyle)
  let script := joinBlocks (arranged.scripts ++ [Island.hydrationScript islands])
  let shell : Shell :=
    { lang := o.lang, title, pageTitle := t.findings.title.isSome, description,
      stylesheets := o.stylesheets, css, scripts := o.scripts, inlineScript := script }
  let html := shell.document (Markup.renderAll nodes)
  return { html, css, script, title := Text.unescapeHtml title, islands }

/-- Options, and how the documents of the last pass without errors were parsed. -/
structure Compiler where
  options : Options
  cache : ParseTable

namespace Compiler

def new (o : Options) : Compiler := ⟨o, []⟩

abbrev Result := Except CompileError (Reported Compiled)

def hasErrors {α : Type} (r : Reported α) : Bool := r.diagnostics.any Diagnostic.isError

def judge (mode : Mode) (r : Reported Compiled) : Result :=
  if mode = .strict && !r.diagnostics.isEmpty then .error (.refused r.diagnostics) else .ok r

/-- A pass over a set of documents: the result, and the compiler after it. -/
def compile (c : Compiler) (documents : List Document) (data : Object) : Result × Compiler :=
  let discovery := discover c.cache documents
  match Page.select c.options.entry discovery.value.pages with
  | .error e => (.error e, c)
  | .ok selected =>
    let r : Reported Compiled := do
      let d ← discovery
      compilePage c.options data d.registry (← Page.orEmpty selected)
    let c := if hasErrors r then c else { c with cache := discovery.value.parsed }
    (judge c.options.mode r, c)

end Compiler

def compile (o : Options) (documents : List Document) (data : Object) : Compiler.Result :=
  ((Compiler.new o).compile documents data).1

end PageCompiler
