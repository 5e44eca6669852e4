import PageCompiler.Text.Blank
import PageCompiler.Text.Html

/-!
The HTML document around a page: its head, its styles and its scripts. Style sheets and scripts
must not end their own element.
-/

namespace PageCompiler

/-- What stands around a page. Title and description are in HTML already. -/
structure Shell where
  lang : String
  title : String
  /-- The title is the page's own, and not the one for pages without a title. -/
  pageTitle : Bool
  description : Option String
  stylesheets : List String
  css : String
  scripts : List String
  inlineScript : String

namespace Shell

/-- The letters of the element's name in either case; the long s is a form of the letter s. -/
def isScriptName (cs : List Char) : Bool :=
  (cs.map fun c => if c = 'ſ' then 's' else c.toLower) == "script".toList

/-- Keeps the end tag of a script apart from what it would end. -/
def escapeScriptEnd : List Char → List Char
  | '<' :: '/' :: cs =>
    if isScriptName (cs.take 6) then
      '<' :: '\\' :: '/' :: cs.take 6 ++ escapeScriptEnd (cs.drop 6)
    else '<' :: escapeScriptEnd ('/' :: cs)
  | c :: cs => c :: escapeScriptEnd cs
  | [] => []
termination_by cs => cs.length

/-- A script without what ends or comments out its element. -/
def escapeScript (js : String) : String :=
  Text.replaced "<!--" "<\\!--" (.ofList (escapeScriptEnd js.toList))

def escapeStyle (css : String) : String := Text.replaced "</style" "<\\/style" css

/-- A description is given to search engines and to those who link to the page. -/
def descriptionElements (s : Shell) : List String :=
  s.description.toList.flatMap fun text =>
    ["<meta name=\"description\" content=\"" ++ Text.escapeQuotes text ++ "\">\n",
      "<meta property=\"og:description\" content=\"" ++ Text.escapeQuotes text ++ "\">\n"]

def head (s : Shell) : List String :=
  ["<meta charset=\"utf-8\">\n",
    "<meta name=\"viewport\" content=\"width=device-width, initial-scale=1\">\n",
    "<title>" ++ s.title ++ "</title>\n"] ++
  (if s.pageTitle then
    ["<meta property=\"og:title\" content=\"" ++ Text.escapeQuotes s.title ++ "\">\n"]
  else []) ++
  s.descriptionElements ++
  s.stylesheets.map (fun href =>
    "<link rel=\"stylesheet\" href=\"" ++ Text.escapeHtml href ++ "\">\n") ++
  (if Text.isAllBlank s.css then []
  else ["<style>\n", escapeStyle s.css, "\n</style>\n"])

def scriptElements (s : Shell) : List String :=
  s.scripts.map (fun src => "<script src=\"" ++ Text.escapeHtml src ++ "\"></script>\n") ++
  (if Text.isAllBlank s.inlineScript then []
  else ["<script type=\"module\">\n", escapeScript s.inlineScript, "\n</script>\n"])

/-- The whole document; its body ends with a line feed. -/
def document (s : Shell) (body : String) : String :=
  "<!DOCTYPE html>\n<html lang=\"" ++ Text.escapeHtml s.lang ++ "\">\n<head>\n" ++
    String.join s.head ++ "</head>\n<body>\n" ++ body ++
    (if Text.endsWith body "\n" then "" else "\n") ++
    String.join s.scriptElements ++ "</body>\n</html>\n"

end Shell

end PageCompiler
