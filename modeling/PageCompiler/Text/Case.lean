import PageCompiler.Text.CaseTable

/-!
Upper and lower case of whole texts. One character may become several (`ß` is `SS` in upper case),
and a capital sigma becomes the final form `ς` where a word ends.
-/

namespace PageCompiler.Text

/-- The table's answer: a listed expansion, else the first shift that covers the character. -/
def mapCase (shifts : List CaseShift) (expansions : List (Nat × List Nat)) (c : Char) : List Char :=
  match expansions.lookup c.toNat with
  | some codes => codes.map Char.ofNat
  | none =>
    match shifts.findSome? (·.shifted? c.toNat) with
    | some code => [Char.ofNat code]
    | none => [c]

def upperChar (c : Char) : List Char :=
  if c.toNat < 128 then [c.toUpper] else mapCase upperShifts upperExpansions c

def lowerChar (c : Char) : List Char :=
  if c.toNat < 128 then [c.toLower] else mapCase lowerShifts lowerExpansions c

def isCased (c : Char) : Bool := inRanges casedRanges c.toNat

def isCaseIgnorable (c : Char) : Bool := inRanges caseIgnorableRanges c.toNat

/-- The first character that counts for casing is a cased one. -/
def meetsCased (cs : List Char) : Bool :=
  match cs.dropWhile isCaseIgnorable with
  | c :: _ => isCased c
  | [] => false

/-- A sigma ends a word if a cased letter stands before it and none after it. -/
def endsWord (before after : List Char) : Bool := meetsCased before && !meetsCased after

/-- Lower case of `cs`, where `before` is what stands in front, nearest character first. -/
def lowerAfter (before : List Char) : List Char → List Char
  | [] => []
  | 'Σ' :: cs => (if endsWord before cs then 'ς' else 'σ') :: lowerAfter ('Σ' :: before) cs
  | c :: cs => lowerChar c ++ lowerAfter (c :: before) cs

def upper (s : String) : String := .ofList (s.toList.flatMap upperChar)

def lower (s : String) : String := .ofList (lowerAfter [] s.toList)

/-- Equal when the ASCII letters of both are taken in lower case. -/
def eqIgnoringAsciiCase (s t : String) : Bool :=
  s.toList.map Char.toLower == t.toList.map Char.toLower

end PageCompiler.Text
