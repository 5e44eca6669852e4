import PageCompiler.Island.Script
import PageCompiler.Island.Mutation
import PageCompiler.Markup.Node

/-!
What an island needs at run time: when it starts, its values, and what its events do to them.
-/

namespace PageCompiler

def Strategy.name : Strategy → String
  | load => "load"
  | visible => "visible"
  | idle => "idle"
  | media _ => "media"

def Strategy.query? : Strategy → Option String
  | media query => some query
  | _ => none

namespace Island

open Json (Value)

structure Action where
  id : String
  event : String
  mutation : Mutation

structure Module where
  id : String
  strategy : Strategy
  script : Script
  actions : List Action

/-- The text of a value where a name is bound; a collection shows as JSON. -/
def displayText (v : Value) : String := v.scalarText?.getD v.text

end Island

end PageCompiler
