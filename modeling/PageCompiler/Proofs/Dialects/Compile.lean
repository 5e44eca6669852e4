import PageCompiler.Proofs.Dialects.Written
import PageCompiler.Proofs.Ordinary
import PageCompiler.Proofs.Roots

/-!
The two ways to write control flow. Main statement: a loop or a conditional over a fragment is read
as the same node in either, and a page that is written in one comes out as the page that is written
in the other.
-/

namespace PageCompiler

open Json (Object)
open Node (IsOrdinaryTree)

/-! ### Evaluation -/

namespace Markup

/-- Fragments and control flow over them are ordinary. -/
theorem isOrdinary_of_isPiece {n : Node} (h : IsPiece IsOrdinaryTag n) : n.IsOrdinary := by
  cases n with
  | element tag as children closing l =>
    obtain ⟨hn, hraw⟩ := h
    have hmark (t : String) (ht : Text.startsWith t "n:") : asciiLower tag ≠ t :=
      fun he => hn (he ▸ ht)
    have hraw (t : String) (ht : t ∈ rawTextTags) (hlower : asciiLower t = t) :
        asciiLower tag ≠ t := fun he =>
      hraw (List.any_eq_true.2 ⟨t, ht, eqIgnoringAsciiCase_iff.2 (he.trans hlower.symm)⟩)
    have hstyle : asciiLower tag ≠ "style" := hraw "style" (by decide) (by decide)
    have hscript : asciiLower tag ≠ "script" := hraw "script" (by decide) (by decide)
    rw [Node.IsOrdinary, Template.directive?]
    split
    · next hv => exact absurd hv (hmark _ (by decide))
    · next hl => exact absurd hl (hmark _ (by decide))
    · next hp => exact absurd hp (hmark _ (by decide))
    · next hc => exact absurd hc (hmark _ (by decide))
    · next hs => exact absurd hs hstyle
    · next hs => exact absurd hs hscript
    · exact if_neg hn
  | text | expression => trivial
  | _ => exact h.elim

namespace Control

/-- A loop goes over what the names in its source mean in the data. -/
def IsBound (data : Object) : Control → Prop
  | loop _ source _ => ∀ e ∈ (Expr.parse (Text.trimmed source)).toOption,
    ∀ name ∈ e.roots, (data.get? name).isSome
  | conditional .. => True

variable {c : Control} {file : String} {d : Dialect} {n : Node}

theorem IsReading.isOrdinaryTree (h : c.IsReading file d n) : n.IsOrdinaryTree := by
  refine Node.everywhere_iff.2 ⟨?_, fun ns hns m hm k hk =>
    isOrdinary_of_isPiece (h.pieces ns hns m hm k hk)⟩
  have hn := h.unplaced
  cases n with
  | loop | conditional => trivial
  | _ => cases c <;> simp [Node.unplaced, node] at hn

/-- Only a loop over a name that is bound nowhere tells the dialects apart. -/
theorem expand_node (r : Resolver) {data : Object} (file : String) (h : c.IsBound data) :
    ControlFlow.expand r (.ofData data) (c.node file .tag) =
      ControlFlow.expand r (.ofData data) (c.node file .delimiter) := by
  cases c with
  | loop item source body =>
    have hcollection : ControlFlow.collection (.ofData data) (Text.trimmed source) .tag =
        ControlFlow.collection (.ofData data) (Text.trimmed source) .delimiter := by
      unfold ControlFlow.collection
      cases he : Expr.parse (Text.trimmed source) with
      | error e => rfl
      | ok e =>
        have hroots := h e (by rw [he]; rfl)
        obtain ⟨v, hv⟩ := Expr.exists_evaluate (f := (Scope.ofData data).get?) hroots
        simp only [hv]
    rw [node, node, ControlFlow.expand, ControlFlow.expand, hcollection]
  | conditional first others alternate =>
    cases alternate with
    | none => rfl
    | some body => rfl

/-- Read in one dialect and in the other, the construct is evaluated to the same up to its
places. -/
theorem IsReading.evaluateAlike {n m : Node} (hn : c.IsReading file .tag n)
    (hm : c.IsReading file .delimiter m) (mode : Mode) {data : Object} (h : c.IsBound data) :
    EvaluateAlike mode data file [n] [m] where
  left := List.forall_mem_singleton.2 hn.isOrdinaryTree
  right := List.forall_mem_singleton.2 hm.isOrdinaryTree
  evaluated := by
    have htag := evaluateNodes_unplaced mode data file [n]
    have hdelimiter := evaluateNodes_unplaced mode data file [m]
    have hnode : evaluateNodes mode data file [c.node file .tag] =
        evaluateNodes mode data file [c.node file .delimiter] := by
      simp only [evaluateNodes, ControlFlow.expandNodes, ControlFlow.expandAll,
        expand_node _ file h]
    rw [Node.listUnplaced, Node.listUnplaced, hn.unplaced, hnode] at htag
    rw [Node.listUnplaced, Node.listUnplaced, hm.unplaced] at hdelimiter
    exact htag.symm.trans hdelimiter

end Control

end Markup

/-! ### Pages, documents and sets of documents -/

/-- Pages that are evaluated to the same up to their places. -/
inductive Page.Alike (mode : Mode) (data : Object) : Page → Page → Prop
  | same : Page.Alike mode data page page
  | evaluated : EvaluateAlike mode data page.path page.nodes ms →
    Page.Alike mode data page { page with nodes := ms }

/-- Documents that are read as such pages, if they are not the same. -/
inductive Document.Alike (mode : Mode) (data : Object) : Document → Document → Prop
  | same : Document.Alike mode data doc doc
  | page : Discovery.roleOf doc = .page → Markup.parse doc.markup doc.path = pure ns →
    Markup.parse source doc.path = pure ms → EvaluateAlike mode data doc.path ns ms →
    Document.Alike mode data doc { doc with markup := source }

theorem Document.Alike.path {mode : Mode} {data : Object} {doc doc' : Document}
    (h : doc.Alike mode data doc') : doc'.path = doc.path := by
  cases h <;> rfl

structure Discovery.Alike (mode : Mode) (data : Object) (d e : Discovery) : Prop where
  registry : d.registry = e.registry
  pages : List.Forall₂ (Page.Alike mode data) d.pages e.pages

theorem Page.Alike.compilePage {o : Options} {data : Object} {page page' : Page}
    (h : page.Alike o.mode data page') (registry : Registry) :
    (compilePage o data registry page).SameTo (fun r => r)
      (compilePage o data registry page') := by
  cases h with
  | same => rfl
  | evaluated h => exact compilePage_sameTo o data registry h

namespace Discovery

open Reported (Related)

variable {mode : Mode} {data : Object} {d e : Discovery}

theorem addInline_related (path : String) (c : InlineComponent) (h : d.Alike mode data e) :
    (addInline path d c).Related (Discovery.Alike mode data) (addInline path e c) := by
  unfold addInline
  refine .bind (.eq _) fun definition definition' hd => ?_
  subst hd
  rw [h.registry]
  split
  · exact .pure ⟨rfl, h.pages⟩
  · exact .bind (.eq _) fun _ _ _ => .pure h

theorem addDefinition_related (role : Role) (doc : Document) (nodes : List Node)
    (h : d.Alike mode data e) :
    (addDefinition role doc nodes d).Related (Discovery.Alike mode data)
      (addDefinition role doc nodes e) := by
  unfold addDefinition
  refine .bind (.foldlM h fun c _ _ _ h => addInline_related doc.path c h) fun d e h => ?_
  refine .bind (.eq _) fun definition definition' hd => ?_
  subst hd
  rw [h.registry]
  dsimp only
  split
  · exact .pure ⟨rfl, h.pages⟩
  · exact .bind (.eq _) fun _ _ _ => .pure h

theorem addPage_related (doc : Document) (nodes : List Node) (h : d.Alike mode data e) :
    (addPage doc nodes d).Related (Discovery.Alike mode data) (addPage doc nodes e) := by
  unfold addPage
  refine .bind (.foldlM h fun c _ _ _ h => addInline_related doc.path c h) fun d e h => ?_
  exact .pure ⟨h.registry, List.rel_append h.pages (.cons .same .nil)⟩

theorem addDocument_related {doc doc' : Document} (hdoc : doc.Alike mode data doc')
    (h : d.Alike mode data e) :
    (addDocument [] d doc).Related (Discovery.Alike mode data) (addDocument [] e doc') := by
  cases hdoc with
  | same =>
    unfold addDocument
    refine .bind (.eq _) fun nodes nodes' hn => ?_
    subst hn
    dsimp only
    split
    · exact addPage_related doc nodes ⟨h.registry, h.pages⟩
    · exact addDefinition_related _ doc nodes ⟨h.registry, h.pages⟩
  | @page ns source ms hrole hns hms halike =>
    have hrole' : roleOf { doc with markup := source } = .page := hrole
    simp only [addDocument, List.lookup_nil, Option.getD_none, hns, hms, pure_bind, hrole, hrole',
      addPage_of_isOrdinary _ _ halike.left, addPage_of_isOrdinary _ _ halike.right]
    exact .pure ⟨h.registry, List.rel_append h.pages (.cons (.evaluated halike) .nil)⟩

end Discovery

theorem discover_related {mode : Mode} {data : Object} {ps : List (Document × Document)}
    (h : ∀ p ∈ ps, p.1.Alike mode data p.2) :
    (discover [] (ps.map Prod.fst)).Related (Discovery.Alike mode data)
      (discover [] (ps.map Prod.snd)) := by
  have hpath : ∀ p ∈ ps, p.2.path = p.1.path := fun p hp => (h p hp).path
  let sorted := ps.mergeSort fun p q => p.1.path ≤ q.1.path
  have hfst : Discovery.inOrder (ps.map Prod.fst) = sorted.map Prod.fst :=
    (List.map_mergeSort (f := Prod.fst) fun _ _ _ _ => rfl).symm
  have hsnd : Discovery.inOrder (ps.map Prod.snd) = sorted.map Prod.snd :=
    (List.map_mergeSort (f := Prod.snd) fun p hp q hq => by rw [hpath p hp, hpath q hq]).symm
  rw [discover, discover, hfst, hsnd, List.foldlM_map, List.foldlM_map]
  exact .foldlM ⟨rfl, .nil⟩ fun p hp d e hd =>
    Discovery.addDocument_related (h p (List.mem_mergeSort.1 hp)) hd

/-! ### Compilation -/

section Compilation

open Reported (Related)

variable {o : Options} {mode : Mode} {data : Object}

theorem Page.Alike.path {page page' : Page} (h : page.Alike mode data page') :
    page'.path = page.path := by
  cases h <;> rfl

/-- Among pages that are alike the same one is selected. -/
theorem Page.select_alike {ps qs : List Page} (h : List.Forall₂ (Page.Alike mode data) ps qs)
    (entry : Option String) :
    (∃ e, select entry ps = .error e ∧ select entry qs = .error e) ∨
      ∃ p q, select entry ps = .ok p ∧ select entry qs = .ok q ∧
        Option.Rel (Page.Alike mode data) p q := by
  cases entry with
  | none =>
    refine .inr ⟨_, _, rfl, rfl, ?_⟩
    cases h with
    | nil => exact .none
    | cons hpq => exact .some hpq
  | some path =>
    induction h with
    | nil => exact .inl ⟨_, rfl, rfl⟩
    | @cons p q ps qs hpq _ ih =>
      by_cases hp : p.path = path
      · have hq : q.path = path := hpq.path.trans hp
        exact .inr ⟨p, q, by simp [select, hp], by simp [select, hq], .some hpq⟩
      · have hq : q.path ≠ path := fun hq => hp (hpq.path.symm.trans hq)
        simpa [select, hp, hq] using ih

theorem Page.orEmpty_related {p q : Option Page} (h : Option.Rel (Page.Alike mode data) p q) :
    (orEmpty p).Related (Page.Alike mode data) (orEmpty q) := by
  cases h with
  | none => exact .bind (.eq _) fun _ _ _ => .pure .same
  | some h => exact .pure h

namespace Compiler

/-- A result without the places in its reports. -/
def unplaced : Result → Result
  | .ok page => .ok ⟨page.value, page.diagnostics.map Diagnostic.unplaced⟩
  | .error (.refused ds) => .error (.refused (ds.map Diagnostic.unplaced))
  | .error e => .error e

theorem unplaced_judge (mode : Mode) {r s : Reported Compiled} (h : r.SameTo (fun r => r) s) :
    unplaced (judge mode r) = unplaced (judge mode s) := by
  have hempty : r.diagnostics.isEmpty = s.diagnostics.isEmpty := by
    simpa using congrArg List.isEmpty h.diagnostics
  have hvalue : r.value = s.value := h.value
  rw [judge, judge, hempty]
  split <;> simp [unplaced, hvalue, h.diagnostics]

theorem pageReport_sameTo {d e : Reported Discovery} {p q : Option Page}
    (h : d.Related (Discovery.Alike o.mode data) e)
    (hpq : Option.Rel (Page.Alike o.mode data) p q) :
    (pageReport o data d p).SameTo (fun r => r) (pageReport o data e q) := by
  refine Related.bind h fun d e hde => .bind (Page.orEmpty_related hpq) fun page page' hpage => ?_
  rw [hde.registry]
  exact hpage.compilePage e.registry

/-- Sets of documents that are alike come out the same. -/
theorem compile_alike {ps : List (Document × Document)}
    (h : ∀ p ∈ ps, p.1.Alike o.mode data p.2) :
    unplaced (PageCompiler.compile o (ps.map Prod.fst) data) =
      unplaced (PageCompiler.compile o (ps.map Prod.snd) data) := by
  have hdiscovery := discover_related h
  have hselect := Page.select_alike hdiscovery.value.pages o.entry
  obtain ⟨e, hp, hq⟩ | ⟨p, q, hp, hq, hpq⟩ := hselect
  · rw [PageCompiler.compile, PageCompiler.compile, compile_of_error (c := .new o) hp,
      compile_of_error (c := .new o) hq]
  · rw [PageCompiler.compile, PageCompiler.compile, compile_of_ok (c := .new o) hp,
      compile_of_ok (c := .new o) hq]
    exact unplaced_judge o.mode (pageReport_sameTo hdiscovery hpq)

end Compiler

end Compilation

namespace Markup.Control

variable {c : Control} {gap : String}

/-- A page with the construct in one dialect is like the page with it in the other. -/
theorem document_alike (h : c.IsWellFormed) (hgap : ∀ c ∈ gap.toList, Text.isBlank c)
    {doc : Document} (hdoc : Discovery.roleOf doc = .page) {data : Object} (hdata : c.IsBound data)
    (mode : Mode) :
    Document.Alike mode data { doc with markup := c.written gap .tag }
      { doc with markup := c.written gap .delimiter } := by
  obtain ⟨n, hn, hreadn⟩ := parse_written h hgap .tag doc.path
  obtain ⟨m, hm, hreadm⟩ := parse_written h hgap .delimiter doc.path
  exact .page hdoc hn hm (hreadn.evaluateAlike hreadm mode hdata)

/-- Tags and delimiters are two ways to write the same. Without a report both are read as the same
node, up to its dialect and its places. Among whatever documents a page is written in one or the
other, the result is the same, up to the places in its reports. -/
theorem dialects_agree (h : c.IsWellFormed) (hgap : ∀ c ∈ gap.toList, Text.isBlank c) :
    (∀ d file, ∃ n, parse (c.written gap d) file = pure [n] ∧ n.unplaced = c.node file d) ∧
      ∀ (o : Options) (doc : Document) (before after : List Document) (data : Object),
        Discovery.roleOf doc = .page → c.IsBound data →
        let documents (d : Dialect) := before ++ { doc with markup := c.written gap d } :: after
        Compiler.unplaced (compile o (documents .tag) data) =
          Compiler.unplaced (compile o (documents .delimiter) data) := by
  constructor
  · intro d file
    obtain ⟨n, hn, hread⟩ := parse_written h hgap d file
    exact ⟨n, hn, hread.unplaced⟩
  · intro o doc before after data hdoc hdata
    let same (doc : Document) : Document × Document := (doc, doc)
    let page : Document × Document :=
      ({ doc with markup := c.written gap .tag }, { doc with markup := c.written gap .delimiter })
    have hsame (docs : List Document) : ∀ p ∈ docs.map same, p.1.Alike o.mode data p.2 :=
      List.forall_mem_map.2 fun _ _ => .same
    have halike : ∀ p ∈ before.map same ++ page :: after.map same, p.1.Alike o.mode data p.2 :=
      List.forall_mem_append.2 ⟨hsame before, List.forall_mem_cons.2
        ⟨document_alike h hgap hdoc hdata o.mode, hsame after⟩⟩
    simpa [same, page, Function.comp_def] using Compiler.compile_alike halike

theorem dialects_agree_list :
    let c : Control := .loop "x" "items"
      [.element "li" [] [.expression "x" (doubleBraced "x") .unknown] false .unknown]
    let doc (d : Dialect) : Document := .ofMarkup "index.html" (c.written "\n" d)
    let data : Object := [("items", .array [.string "a"])]
    c.IsWellFormed ∧ c.IsBound data ∧ Compiler.unplaced (compile .default [doc .tag] data) =
      Compiler.unplaced (compile .default [doc .delimiter] data) := by
  intro c doc data
  have hitem : IsIdentifier "x" := ⟨by decide +kernel, by simp [Text.continuesIdentifier]⟩
  have hsource : IsExpressionText "items" := by constructor <;> decide +kernel
  have hcode : IsPlainCode "x" := ⟨by simp [Text.escapeHtmlChar], by simp⟩
  have hname : IsElementName "li" :=
    ⟨by decide +kernel, by simp [Step.endsTagName, Text.isBlank], by decide +kernel⟩
  have hordinary : IsOrdinaryTag "li" := by
    unfold IsOrdinaryTag
    decide +kernel
  have hbody : Fragment IsOrdinaryTag
      [.element "li" [] [.expression "x" (doubleBraced "x") .unknown] false .unknown] :=
    .element hname hordinary (by decide +kernel) (by decide +kernel) (List.forall_mem_nil _)
      (.expression hcode .nil) .nil
  have hbound : c.IsBound data := by
    unfold IsBound
    decide +kernel
  have hc : c.IsWellFormed := ⟨hitem, hsource, hbody⟩
  have hgap : ∀ c ∈ "\n".toList, Text.isBlank c := by simp [Text.isBlank]
  exact ⟨hc, hbound, (dialects_agree hc hgap).2 .default (.ofMarkup "index.html" "") [] []
    data (by decide +kernel) hbound⟩

end Markup.Control

end PageCompiler
