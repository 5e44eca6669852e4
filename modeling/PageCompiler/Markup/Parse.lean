import PageCompiler.Markup.Scan
import PageCompiler.Markup.Tag

/-!
From tokens to nodes. The lexemes are taken one at a time; what is open is a stack of frames. A
closing tag ends everything up to the nearest tag of its name, if one is open; the tags of control
flow between delimiters end only the innermost frame. What is ended too early is reported, and
what does not fit is reported and left out.
-/

namespace PageCompiler.Markup

/-- A construct whose end has not been read. -/
inductive Frame
  | tag (name : String) (attributes : List RawAttribute) (location : Location)
  /-- A tag that continues a conditional. -/
  | chained (name : String) (attributes : List RawAttribute) (location : Location) (chain : Chain)
  | loop (item source : String) (location : Location)
  /-- A branch of a conditional, behind those that are complete. -/
  | branch (complete : List (String × List Node)) (condition : String) (location : Location)
  | alternate (complete : List (String × List Node)) (location : Location)

namespace Frame

/-- The frame is a tag that such a closing tag closes. -/
def isClosedBy (name : String) : Frame → Bool
  | tag opened _ _ => Text.eqIgnoringAsciiCase opened name
  | chained opened _ _ _ => Text.eqIgnoringAsciiCase opened name
  | _ => false

def unclosed : Frame → Problem × String × Location
  | tag name _ l => (.structuralDirective, "Unclosed <" ++ name ++ ">.", l)
  | chained name _ l _ => (.structuralDirective, "Unclosed <" ++ name ++ ">.", l)
  | loop item source l =>
    (.controlFlowSyntax,
      "`" ++ (Block.loop item source).text ++ "` is missing `\x7b% endfor %\x7d`.", l)
  | branch _ _ l => (.controlFlowSyntax, "`\x7b% if %\x7d` is missing `\x7b% endif %\x7d`.", l)
  | alternate _ l => (.controlFlowSyntax, "`\x7b% if %\x7d` is missing `\x7b% endif %\x7d`.", l)

end Frame

/-- What has been read: the nodes of the innermost frame, last first; the frames around them, each
with the nodes in front of it; and a conditional of tags that may still go on. -/
structure Progress where
  nodes : List Node
  stack : List (Frame × List Node)
  chain : Option Chain

namespace Progress

def start : Progress := ⟨[], [], none⟩

def add (n : Node) (p : Progress) : Progress := { p with nodes := n :: p.nodes }

/-- The nodes before which a chain stands, with the chain and the blanks behind it. -/
def settled (nodes : List Node) : Option Chain → List Node
  | none => nodes
  | some c => c.blanks ++ .conditional c.branches none .tag c.location :: nodes

def settle (p : Progress) : Progress := { p with nodes := settled p.nodes p.chain, chain := none }

/-- A branch of a chain of tags: `else` ends the chain, a branch without condition is dropped. -/
def continueChain (file name : String) (raw : List RawAttribute) (location : Location)
    (chain : Chain) (body : List Node) : Reported Built :=
  if asciiLower name = "else" then
    return .node (.conditional chain.branches (some body) .tag chain.location)
  else
    match filledDirective? "condition" raw with
    | some condition =>
      return .chain { chain with branches := chain.branches ++ [(condition, body)], blanks := [] }
    | none => do
      report ((Diagnostic.error .parse .controlFlowSyntax
        "<elif> needs a `condition` attribute.").placed file location)
      return .chain { chain with blanks := [] }

def finish (file : String) (frame : Frame) (body : List Node) : Reported Built :=
  match frame with
  | .tag name raw l => build file name raw false body l
  | .chained name raw l chain => continueChain file name raw l chain body
  | .loop item source l => return .node (.loop item source body .delimiter l)
  | .branch complete condition l =>
    return .node (.conditional (complete ++ [(condition, body)]) none .delimiter l)
  | .alternate complete l => return .node (.conditional complete (some body) .delimiter l)

def place (nodes : List Node) (stack : List (Frame × List Node)) : Built → Progress
  | .node n => ⟨n :: nodes, stack, none⟩
  | .chain c => ⟨nodes, stack, some c⟩

def reportUnclosed (file : String) (frame : Frame) : Reported PUnit :=
  let (p, message, l) := frame.unclosed
  report ((Diagnostic.error .parse p message).placed file l)

/-- Ends the frames up to the nearest one that `name` closes. -/
def closeTo (file name : String) (nodes : List Node) :
    List (Frame × List Node) → Reported Progress
  | [] => return ⟨nodes, [], none⟩
  | (frame, before) :: outer =>
    if frame.isClosedBy name then do
      return place before outer (← finish file frame nodes.reverse)
    else do
      reportUnclosed file frame
      let p := place before outer (← finish file frame nodes.reverse)
      closeTo file name p.settle.nodes outer

def closeAll (file : String) (nodes : List Node) : List (Frame × List Node) → Reported (List Node)
  | [] => return nodes.reverse
  | (frame, before) :: outer => do
    reportUnclosed file frame
    let p := place before outer (← finish file frame nodes.reverse)
    closeAll file p.settle.nodes outer

def openFrame (frame : Frame) (p : Progress) : Progress :=
  ⟨[], (frame, p.nodes) :: p.stack, none⟩

def unexpected (file : String) (b : Block) (location : Location) (p : Progress) :
    Reported Progress := do
  let message :=
    match b with
    | .invalid text => "Unrecognized block tag `" ++ Block.delimited text ++ "`."
    | b => "Unexpected " ++ b.text ++ "."
  report ((Diagnostic.error .parse .controlFlowSyntax message).placed file location)
  return p

/-- A tag of control flow: it begins a frame, or ends the innermost one if it belongs to it. -/
def takeBlock (file : String) (b : Block) (location : Location) (p : Progress) :
    Reported Progress :=
  match b, p.stack with
  | .loop item source, _ => return p.openFrame (.loop item source location)
  | .branch condition, _ => return p.openFrame (.branch [] condition location)
  | .endLoop, (.loop item source l, before) :: outer => do
    return place before outer (← finish file (.loop item source l) p.nodes.reverse)
  | .otherBranch next, (.branch complete condition l, before) :: outer =>
    let complete := complete ++ [(condition, p.nodes.reverse)]
    return ⟨[], (.branch complete next l, before) :: outer, none⟩
  | .alternate, (.branch complete condition l, before) :: outer =>
    let complete := complete ++ [(condition, p.nodes.reverse)]
    return ⟨[], (.alternate complete l, before) :: outer, none⟩
  | .endBranch, (.branch complete condition l, before) :: outer => do
    return place before outer (← finish file (.branch complete condition l) p.nodes.reverse)
  | .endBranch, (.alternate complete l, before) :: outer => do
    return place before outer (← finish file (.alternate complete l) p.nodes.reverse)
  | b, _ => p.unexpected file b location

/-- A lexeme where no conditional of tags may go on. -/
def take (file : String) (x : Lexeme) (p : Progress) : Reported Progress :=
  let l := x.location
  match x.token with
  | .text s => return p.add (.text s l)
  | .rawText s => return p.add (.text s l)
  | .interpolation code raw => return p.add (.expression code raw l)
  | .comment s => return p.add (.comment s l)
  | .doctype s => return p.add (.doctype s l)
  | .openTag name raw selfClosing =>
    if selfClosing || isVoid name then do
      return place p.nodes p.stack (← build file name raw selfClosing [] l)
    else return p.openFrame (.tag name raw l)
  | .closeTag name =>
    if p.stack.any fun (frame, _) => frame.isClosedBy name then
      closeTo file name p.nodes p.stack
    else do
      report ((Diagnostic.warning .parse .structuralDirective
        ("Stray closing tag </" ++ name ++ ">.")).placed file l)
      return p
  | .block b => p.takeBlock file b l

def continuesChain (name : String) : Bool := asciiLower name = "elif" || asciiLower name = "else"

/-- One lexeme. Behind a conditional of tags, blank text waits for the next tag to decide. -/
def step (file : String) (p : Progress) (x : Lexeme) : Reported Progress :=
  match p.chain, x.token with
  | none, _ => p.take file x
  | some c, .text s =>
    if Text.isAllBlank s then
      return { p with chain := some { c with blanks := .text s x.location :: c.blanks } }
    else p.settle.take file x
  | some c, .openTag name raw selfClosing =>
    if continuesChain name then
      if selfClosing then do
        return place p.nodes p.stack (← continueChain file name raw x.location c [])
      else return ⟨[], (.chained name raw x.location c, p.nodes) :: p.stack, none⟩
    else p.settle.take file x
  | some _, _ => p.settle.take file x

end Progress

def parse (source file : String) : Reported (List Node) := do
  let lexemes ← scan source file
  let p ← lexemes.foldlM (Progress.step file) .start
  Progress.closeAll file p.settle.nodes p.stack

end PageCompiler.Markup
