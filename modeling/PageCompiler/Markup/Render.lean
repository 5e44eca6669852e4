import PageCompiler.Text.Html
import PageCompiler.Markup.Tag

/-!
Nodes as HTML. Text and attribute text are in HTML already; an expression that is left over shows
how it was written.
-/

namespace PageCompiler.Markup

def bracedCode (code : String) : String := Text.escapeHtml ("\x7b" ++ code ++ "\x7d")

def renderPart : Part → String
  | .text text => text
  | .expression code => bracedCode code

def renderParts (parts : List Part) : String := String.join (parts.map renderPart)

def renderAttribute (a : Attribute) : String :=
  match a.value with
  | .bare => " " ++ a.name
  | .static text => " " ++ a.name ++ "=\"" ++ Text.escapeQuotes text ++ "\""
  | .interpolated parts => " " ++ a.name ++ "=\"" ++ Text.escapeQuotes (renderParts parts) ++ "\""
  | .expression code => " " ++ a.name ++ "=\"" ++ bracedCode code ++ "\""

def renderAttributes (as : List Attribute) : String := String.join (as.map renderAttribute)

def renderError (problem : Problem) (message : String) : String :=
  "<div class=\"ncl-error\" data-ncl-error=\"" ++ problem.code ++ "\" role=\"alert\"><strong>" ++
    problem.name ++ "</strong>: " ++ Text.escapeHtml message ++ "</div>"

mutual

/-- The HTML of a node. Components, loops and conditionals have none. -/
def render : Node → String
  | .element tag as children _ _ =>
    "<" ++ tag ++ renderAttributes as ++ ">" ++
      if isVoid tag then "" else renderAll children ++ "</" ++ tag ++ ">"
  | .text text _ => text
  | .expression _ raw _ => Text.escapeHtml raw
  | .comment text _ => "<!--" ++ Text.replaced "--" "- -" text ++ "-->"
  | .doctype text _ => "<!" ++ text ++ ">"
  | .component .. => ""
  | .slot _ fallback _ => renderAll fallback
  | .loop .. => ""
  | .conditional .. => ""
  | .island _ _ children _ => renderAll children
  | .isolated _ _ children _ => renderAll children
  | .callerScope children => renderAll children
  | .error problem message _ => renderError problem message
termination_by structural n => n

def renderAll : List Node → String
  | [] => ""
  | n :: ns => render n ++ renderAll ns
termination_by structural ns => ns

end

end PageCompiler.Markup
