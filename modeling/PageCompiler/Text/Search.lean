/-!
Finding, cutting and replacing in lists of characters.
-/

namespace PageCompiler.Text

/-- What is left of `cs` after `p`, if it begins with `p`. -/
def after? : (p cs : List Char) → Option (List Char)
  | [], cs => some cs
  | _ :: _, [] => none
  | x :: p, c :: cs => if x = c then after? p cs else none

/-- The text in front of the first `p` and the text behind it. -/
def cutAt? (p : List Char) : List Char → Option (List Char × List Char)
  | [] => (after? p []).map fun rest => ([], rest)
  | c :: cs =>
    match after? p (c :: cs) with
    | some rest => some ([], rest)
    | none => (cutAt? p cs).map fun (before, rest) => (c :: before, rest)

def includes (p cs : List Char) : Bool := (cutAt? p cs).isSome

theorem length_dropWhile_le (p : Char → Bool) (cs : List Char) :
    (cs.dropWhile p).length ≤ cs.length :=
  (List.dropWhile_sublist p).length_le

theorem length_of_after? {p cs rest : List Char} (h : after? p cs = some rest) :
    cs.length = p.length + rest.length := by
  fun_induction after? p cs with
  | case1 => simp_all
  | case2 => simp at h
  | case3 x p cs ih => simp [ih h]; omega
  | case4 => simp at h

theorem length_of_cutAt? {p cs before rest : List Char} (h : cutAt? p cs = some (before, rest)) :
    cs.length = before.length + p.length + rest.length := by
  induction cs generalizing before with
  | nil =>
    simp only [cutAt?, Option.map_eq_some_iff] at h
    obtain ⟨r, hr, he⟩ := h
    have := length_of_after? hr
    grind
  | cons c cs ih =>
    simp only [cutAt?] at h
    split at h
    · have := length_of_after? (by assumption)
      grind
    · simp only [Option.map_eq_some_iff] at h
      obtain ⟨⟨b, r⟩, hr, he⟩ := h
      have := @ih b (by grind)
      grind

/-- Every occurrence of `p`, from left to right and without overlap, becomes `q`. -/
def replaceAll (p q cs : List Char) : List Char :=
  if hp : p = [] then cs
  else
    match h : cutAt? p cs with
    | none => cs
    | some (before, rest) =>
      have : rest.length < cs.length := by
        have := length_of_cutAt? h
        have := List.length_pos_iff.2 hp
        omega
      before ++ q ++ replaceAll p q rest
termination_by cs.length

/-- The pieces between the occurrences of `sep`: one more than there are of them. -/
def splitOn (sep : Char) : List Char → List (List Char)
  | [] => [[]]
  | c :: cs =>
    if c = sep then
      [] :: splitOn sep cs
    else
      match splitOn sep cs with
      | [] => [[c]]
      | piece :: pieces => (c :: piece) :: pieces

/-- The lines of a text: they end at a line feed, a carriage return in front of it is no part of
the line, and nothing after the last line feed is no line. -/
def lines (cs : List Char) : List (List Char) :=
  let pieces := splitOn '\n' cs
  let complete := pieces.dropLast.map fun l => if l.getLast? = some '\r' then l.dropLast else l
  match pieces.getLast? with
  | some [] | none => complete
  | some last => complete ++ [last]

def join (sep : String) : List String → String
  | [] => ""
  | [s] => s
  | s :: rest => s ++ sep ++ join sep rest

def replaced (p q s : String) : String := .ofList (replaceAll p.toList q.toList s.toList)

def contains (s p : String) : Bool := includes p.toList s.toList

def startsWith (s p : String) : Bool := (after? p.toList s.toList).isSome

def endsWith (s p : String) : Bool := (after? p.toList.reverse s.toList.reverse).isSome

def withoutStart? (p s : String) : Option String := (after? p.toList s.toList).map .ofList

def withoutEnd? (p s : String) : Option String :=
  (after? p.toList.reverse s.toList.reverse).map fun rest => .ofList rest.reverse

end PageCompiler.Text
