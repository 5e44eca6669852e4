import PageCompiler.Markup.Node

/-!
The check before a page is written: nothing that has no HTML of its own may be left in the tree.
-/

namespace PageCompiler

/-- What is wrong with a node, the nodes below it left aside. -/
def Node.leftover? : Node → Option String
  | .component name .. => some ("Unexpanded component <" ++ name ++ ">.")
  | .loop _ source .. => some ("Unexpanded loop over `" ++ source ++ "`.")
  | .conditional .. => some "Unexpanded conditional."
  | .isolated name .. => some ("Unflattened scope for <" ++ name ++ ">.")
  | .callerScope _ => some "Unflattened slot scope."
  | .slot .. => some "Unresolved slot placeholder."
  | _ => none

def Node.leftoverIn? (file : String) (n : Node) : Option Diagnostic :=
  n.leftover?.map fun message =>
    (Diagnostic.error .assembly .structuralDirective message).placed file n.location

def verify (file : String) (nodes : List Node) : List Diagnostic :=
  (Node.listDescendants nodes).filterMap (Node.leftoverIn? file)

end PageCompiler
