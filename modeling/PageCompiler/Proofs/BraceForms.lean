import PageCompiler.Interpolation
import PageCompiler.Proofs.Braces
import PageCompiler.Proofs.Expr.Lexed
import PageCompiler.Proofs.FirstNodes
import PageCompiler.Proofs.Fragment

/-!
An expression in single and in double braces. Main statement: what is an expression makes one node
in single braces, and the same one in double braces where no literal in it holds two closing braces;
the search for the end of double braces does not know of quotes.
-/

namespace PageCompiler.Markup

open Expr.Token (Lexed isCode)

section Braces

variable {cs : List Char}

/-- Where there are only code and literals, no brace stands outside of quotes. -/
theorem balanced_of_lexed (h : Lexed cs) : Balanced cs := by
  induction h with
  | nil => exact .nil
  | @code c _ hc _ ih =>
    have hne (d : Char) (hd : isCode d = false) : c ≠ d := by
      rintro rfl
      cases hc.symm.trans hd
    have hquote : isQuote c = false := by
      simp [isQuote, hne '"' rfl, hne '\'' rfl, hne '`' rfl]
    exact .plain (hne '\x7b' rfl) (hne '\x7d' rfl) hquote ih
  | literal hquote hquoted _ ih =>
    exact .quoted (isQuote_iff.2 (hquote.imp_right .inl)) hquoted ih

theorem inBraces?_lexed (h : Lexed cs) (rest : List Char) :
    inBraces? (cs ++ '\x7d' :: rest) = some cs := inBraces?_balanced (balanced_of_lexed h) rest

theorem head?_lexed (h : Lexed cs) : cs.head? ≠ some '\x7b' ∧ cs.head? ≠ some '%' := by
  cases h with
  | nil => simp
  | code hc =>
    constructor <;>
    · rintro ⟨⟩
      cases hc
  | literal hquote => obtain rfl | rfl := hquote <;> simp

theorem getLast?_lexed (h : Lexed cs) : cs.getLast? ≠ some '\x7d' := by
  induction h with
  | nil => simp
  | @code c cs hc _ ih =>
    cases cs with
    | nil =>
      rintro ⟨⟩
      cases hc
    | cons d cs => rwa [List.getLast?_cons_cons]
  | @literal quote text ds cs hquote hquoted _ ih =>
    rw [List.getLast?_cons, List.getLast?_append, hquoted.getLast?_eq]
    cases hlast : cs.getLast? with
    | none => obtain rfl | rfl := hquote <;> simp
    | some c => simpa [hlast] using ih

/-- What can be read as an expression is made of code and closed literals. -/
theorem lexed_of_parse {x : Expr} (h : Expr.parse (.ofList cs) = .ok x) : Lexed cs := by
  rw [Expr.parse, String.toList_ofList] at h
  cases hall : Expr.Token.all none cs with
  | error e =>
    rw [hall] at h
    cases h
  | ok ts => exact Expr.Token.lexed_of_all hall

end Braces

section Forms

variable {e : List Char} {x : Expr}

theorem scans_inBraces (hx : Expr.parse (.ofList e) = .ok x) (hline : '\n' ∉ e) (file : String)
    (l : Location) (rest : List Char) :
    let cs := '\x7b' :: (e ++ ['\x7d'])
    ∃ l', Scans file l cs rest [⟨.interpolation (codeOf e) (.ofList cs), l⟩] l' := by
  have hlexed := lexed_of_parse hx
  have hexpression : isExpression e := by rw [isExpression, hx]; rfl
  have hnext : Step.next l '\x7b' (e ++ '\x7d' :: rest) = .singleBrace (e ++ '\x7d' :: rest) := by
    obtain ⟨hbrace, hpercent⟩ := head?_lexed hlexed
    cases e with
    | nil => rfl
    | cons c e =>
      have hc : c ≠ '\x7b' ∧ c ≠ '%' := by simpa using And.intro hbrace hpercent
      simp [Step.next, hc]
  refine scans_one file l rest ?_
  rw [List.append_assoc, List.singleton_append, hnext, Step.singleBrace,
    inBraces?_lexed hlexed]
  simp [hline, hexpression]

/-- Where no literal holds two closing braces, the first two are those behind the expression. -/
theorem scans_inDoubleBraces_lexed (h : Lexed e) (hbraces : ¬['\x7d', '\x7d'] <:+: e)
    (file : String) (l : Location) (rest : List Char) :
    let cs := '\x7b' :: '\x7b' :: (e ++ ['\x7d', '\x7d'])
    ∃ l', Scans file l cs rest [⟨.interpolation (codeOf e) (.ofList cs), l⟩] l' :=
  scans_inDoubleBraces (Text.cutAt?_twice hbraces (getLast?_lexed h)) file l

theorem parse_of_interpolation {source file code : String} {l : Location}
    (h : Scans file .start source.toList [] [⟨.interpolation code source, .start⟩] l) :
    parse source file = pure [.expression code source .start] := by
  have hspells : Spells (joinText [⟨.interpolation code source, .start⟩])
      [.expression code source .start] := .interpolation .nil
  exact parse_of_scans hspells h

/-- The first two closing braces of a literal end double braces too early. -/
theorem scan_inDoubleBraces (hbraces : ['\x7d', '\x7d'] <:+: e) (file : String) :
    ∃ b raw xs, raw.length < e.length + 4 ∧
      (scan (.ofList ('\x7b' :: '\x7b' :: (e ++ ['\x7d', '\x7d']))) file).value =
        [⟨.interpolation b (.ofList raw), .start⟩] ++ xs := by
  obtain ⟨b, rest, hcut⟩ : ∃ b rest, Text.cutAt? ['\x7d', '\x7d'] e = some (b, rest) := by
    cases hcut : Text.cutAt? ['\x7d', '\x7d'] e with
    | none => exact absurd hbraces (Text.cutAt?_eq_none_iff.1 hcut)
    | some r => exact ⟨r.1, r.2, rfl⟩
  obtain rfl := Text.eq_of_cutAt? hcut
  have hfirst := Text.cutAt?_append_right hcut ['\x7d', '\x7d']
  rw [List.append_assoc, List.append_assoc] at hfirst
  obtain ⟨l, hs⟩ := scans_inDoubleBraces hfirst file .start
  refine ⟨codeOf b, '\x7b' :: '\x7b' :: (b ++ ['\x7d', '\x7d']),
    joinText (steps file l (rest ++ ['\x7d', '\x7d'])).value, by simp, ?_⟩
  rw [Scans] at hs
  simp only [List.cons_append, List.append_assoc] at hs ⊢
  rw [scan, String.toList_ofList, hs, Reported.value_map, Reported.value_map, List.nil_append,
    List.nil_append, joinText_cons fun hx => Bool.noConfusion hx]

end Forms

/-! ### Both forms -/

def singleBraces (e : String) : String := "\x7b" ++ e ++ "\x7d"

def doubleBraces (e : String) : String := "\x7b\x7b" ++ e ++ "\x7d\x7d"

section Both

open Interpolation (resolveNodes)

variable {e : String} {x : Expr}

theorem singleBraces_eq (e : String) :
    singleBraces e = .ofList ('\x7b' :: (e.toList ++ ['\x7d'])) := by
  simp [singleBraces, ← String.toList_inj]

theorem doubleBraces_eq (e : String) :
    doubleBraces e = .ofList ('\x7b' :: '\x7b' :: (e.toList ++ ['\x7d', '\x7d'])) := by
  simp [doubleBraces, ← String.toList_inj]

/-- How an expression is written does not show once it has a value, nor in strict mode. -/
theorem resolveNodes_expression {code : String} (hx : Expr.parse code = .ok x) {mode : Mode}
    {data : Json.Object} (h : mode = .strict ∨ (x.evaluate data.get?).isOk) (file raw raw' : String)
    (l : Location) :
    resolveNodes mode data file [.expression code raw l] =
      resolveNodes mode data file [.expression code raw' l] := by
  have hown : ¬Interpolation.isIslandExpression none x := by
    simp [Interpolation.isIslandExpression, Interpolation.isIslandName]
  let r := Interpolation.resolver mode file
  have hnode (raw : String) : resolveNodes mode data file [.expression code raw l] =
      (r.expression data.get? x code raw l >>= fun n => pure [n]) := by
    rw [resolveNodes, Interpolation.resolveAll, Interpolation.resolve, hx]
    simp only [if_neg hown]
    rfl
  have hraw : r.expression data.get? x code raw l = r.expression data.get? x code raw' l := by
    rw [Resolver.expression, Resolver.expression]
    obtain rfl | hok := h
    · rfl
    · cases hv : x.evaluate data.get? with
      | ok v => rfl
      | error u => simp [hv, Except.isOk, Except.toBool] at hok
  rw [hnode, hnode, hraw]

/-- What is an expression on one line makes one node in single braces, whatever its literals hold.
In double braces it makes that node exactly if two closing braces stand in no literal, and then
both forms mean the same. -/
theorem parse_braces (hx : Expr.parse e = .ok x) (hline : '\n' ∉ e.toList) (file : String) :
    parse (singleBraces e) file =
        pure [.expression (Text.trimmed e) (singleBraces e) .start] ∧
      (parse (doubleBraces e) file =
          pure [.expression (Text.trimmed e) (doubleBraces e) .start] ↔
        ¬"\x7d\x7d".toList <:+: e.toList) ∧
      (¬"\x7d\x7d".toList <:+: e.toList → ∀ (mode : Mode) (data : Json.Object),
        mode = .strict ∨ (x.evaluate data.get?).isOk →
          parse (singleBraces e) file >>= resolveNodes mode data file =
            parse (doubleBraces e) file >>= resolveNodes mode data file) := by
  have hchars : Expr.parse (.ofList e.toList) = .ok x := by rwa [String.ofList_toList]
  have hsingle : parse (singleBraces e) file =
      pure [.expression (Text.trimmed e) (singleBraces e) .start] := by
    obtain ⟨l, hs⟩ := scans_inBraces hchars hline file .start []
    refine parse_of_interpolation (l := l) ?_
    rw [singleBraces_eq, String.toList_ofList]
    exact hs
  have hdouble (hbraces : ¬"\x7d\x7d".toList <:+: e.toList) : parse (doubleBraces e) file =
      pure [.expression (Text.trimmed e) (doubleBraces e) .start] := by
    obtain ⟨l, hs⟩ := scans_inDoubleBraces_lexed (lexed_of_parse hchars) hbraces file .start []
    refine parse_of_interpolation (l := l) ?_
    rw [doubleBraces_eq, String.toList_ofList]
    exact hs
  refine ⟨hsingle, ⟨fun h hbraces => ?_, hdouble⟩, fun hbraces mode data h => ?_⟩
  · -- The node that was read first would have to be the whole text, and it is shorter.
    obtain ⟨b, raw, xs, hlt, hscan⟩ := scan_inDoubleBraces hbraces file
    rw [← doubleBraces_eq] at hscan
    have hfirst := prefix_parse hscan (.interpolation .nil)
    rw [h, Reported.value_pure, List.cons_prefix_cons, Node.expression.injEq, doubleBraces_eq,
      String.ofList_inj] at hfirst
    obtain ⟨⟨-, rfl, -⟩, -⟩ := hfirst
    simp at hlt
  · have htrimmed : Expr.parse (Text.trimmed e) = .ok x := by
      rw [Text.trimmed, Expr.parse_trim, hchars]
    rw [hsingle, hdouble hbraces, pure_bind, pure_bind]
    exact resolveNodes_expression htrimmed h file _ _ .start

/-- Braces in literals, and blanks around the expression. -/
theorem parse_braces_literals :
    let e := " user[\"\x7d\"] == '\x7b' "
    let user : Expr := .index (.ident "user") (.literal (.string "\x7d"))
    let x : Expr := .compare .eq user (.literal (.string "\x7b"))
    let code := "user[\"\x7d\"] == '\x7b'"
    let data : Json.Object := [("user", .object [("\x7d", .string "\x7b")])]
    Expr.parse e = .ok x ∧ '\n' ∉ e.toList ∧ ¬"\x7d\x7d".toList <:+: e.toList ∧
      (x.evaluate data.get?).isOk ∧
      parse (singleBraces e) "page" = pure [.expression code (singleBraces e) .start] ∧
      parse (doubleBraces e) "page" = pure [.expression code (doubleBraces e) .start] ∧
      parse (singleBraces e) "page" >>= resolveNodes .lenient data "page" =
        parse (doubleBraces e) "page" >>= resolveNodes .lenient data "page" := by
  intro e user x code data
  have hx : Expr.parse e = .ok x := by cbv
  have hline : '\n' ∉ e.toList := by decide
  have hbraces : ¬"\x7d\x7d".toList <:+: e.toList := by decide
  have hok : (x.evaluate data.get?).isOk := by decide
  have hcode : Text.trimmed e = code := by decide
  obtain ⟨hsingle, hdouble, hsame⟩ := parse_braces hx hline "page"
  rw [hcode] at hsingle hdouble
  exact ⟨hx, hline, hbraces, hok, hsingle, hdouble.2 hbraces,
    hsame hbraces .lenient data (.inr hok)⟩

/-- Two closing braces in a literal end the double braces. -/
theorem parse_doubleBraces_pair :
    let e := "\"\x7d\x7d\""
    Expr.parse e = .ok (.literal (.string "\x7d\x7d")) ∧ '\n' ∉ e.toList ∧
      (parse (doubleBraces e) "page").value =
        [.expression "\"" "\x7b\x7b\"\x7d\x7d" .start, .text "\"\x7d\x7d" ⟨1, 6⟩] ∧
      (parse (doubleBraces e) "page").value ≠
        [.expression (Text.trimmed e) (doubleBraces e) .start] := by
  intro e
  have hx : Expr.parse e = .ok (.literal (.string "\x7d\x7d")) := by cbv
  have hread : (parse (doubleBraces e) "page").value =
      [.expression "\"" "\x7b\x7b\"\x7d\x7d" .start, .text "\"\x7d\x7d" ⟨1, 6⟩] := by
    cbv
  exact ⟨hx, by decide, hread, by simp [hread]⟩

end Both

end PageCompiler.Markup
