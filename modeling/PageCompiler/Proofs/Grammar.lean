import PageCompiler.Markup.Parse

/-!
The grammar of templates, over tokens: tags and blocks between delimiters, each of which encloses
whole nodes of both kinds. Beside it stands a reader that keeps only the stack of what is open.
Main statement: the reader gets through a list of tokens and leaves nothing open just if the
grammar derives it.
-/

namespace PageCompiler.Markup

open Progress (continuesChain)

def Token.isLeaf : Token → Bool
  | .text _ | .rawText _ | .interpolation _ _ | .comment _ | .doctype _ => true
  | .openTag .. | .closeTag _ | .block _ => false

def Token.isBlank : Token → Bool
  | .text s => Text.isAllBlank s
  | _ => false

def Blanks (ts : List Token) : Prop := ∀ t ∈ ts, t.isBlank

def HasCondition (raw : List RawAttribute) : Prop := (filledDirective? "condition" raw).isSome

def HasItemAndSource (raw : List RawAttribute) : Prop :=
  (filledDirective? "item" raw).isSome ∧ (filledDirective? "in" raw).isSome

instance (raw : List RawAttribute) : Decidable (HasCondition raw) :=
  inferInstanceAs (Decidable (_ = true))

instance (raw : List RawAttribute) : Decidable (HasItemAndSource raw) :=
  inferInstanceAs (Decidable (_ ∧ _))

inductive Phrase
  /-- Any number of nodes. -/
  | nodes
  | node
  /-- A tag that stands alone, or one with nodes and the tag that closes it. -/
  | tag (name : String) (raw : List RawAttribute)
  /-- An `<if>`, and each `<elif>` that follows it. -/
  | chain
  /-- `{% if %}`, and each `{% elif %}` that follows, with their nodes. -/
  | branches

/-- The grammar. A tag stands alone if it closes itself or is void, and any other has to be
closed. -/
inductive Derives : Phrase → List Token → Prop
  | nil : Derives .nodes []
  | snoc : Derives .nodes ts → Derives .node us → Derives .nodes (ts ++ us)
  | leaf : t.isLeaf → Derives .node [t]
  | alone : selfClosing || isVoid name → Derives (.tag name raw) [.openTag name raw selfClosing]
  | closed : ¬isVoid name → Derives .nodes ts → Text.eqIgnoringAsciiCase name close →
    Derives (.tag name raw) (.openTag name raw false :: ts ++ [.closeTag close])
  | element : asciiLower name ∉ ["if", "elif", "else"] →
    (asciiLower name = "for" → HasItemAndSource raw) → Derives (.tag name raw) ts →
    Derives .node ts
  | first : asciiLower name = "if" → HasCondition raw → Derives (.tag name raw) ts →
    Derives .chain ts
  | next : Derives .chain ts → Blanks bs → asciiLower name = "elif" → HasCondition raw →
    Derives (.tag name raw) us → Derives .chain (ts ++ bs ++ us)
  | chain : Derives .chain ts → Derives .node ts
  | last : Derives .chain ts → Blanks bs → asciiLower name = "else" →
    Derives (.tag name raw) us → Derives .node (ts ++ bs ++ us)
  | loop : Derives .nodes ts →
    Derives .node (.block (.loop item source) :: ts ++ [.block .endLoop])
  | branch : Derives .nodes ts → Derives .branches (.block (.branch condition) :: ts)
  | otherBranch : Derives .branches ts → Derives .nodes us →
    Derives .branches (ts ++ .block (.otherBranch condition) :: us)
  | conditional : Derives .branches ts → Derives .node (ts ++ [.block .endBranch])
  | alternate : Derives .branches ts → Derives .nodes us →
    Derives .node (ts ++ .block .alternate :: us ++ [.block .endBranch])

def WellNested (ts : List Token) : Prop := Derives .nodes ts

/-- A frame without what it holds. -/
inductive Opening
  | tag (name : String) (raw : List RawAttribute)
  | chained (name : String) (raw : List RawAttribute)
  | loop
  | branch
  | alternate

namespace Opening

/-- What a tag opens, where a conditional of tags may go on or not. -/
def ofTag (goesOn : Bool) (name : String) (raw : List RawAttribute) : Opening :=
  if goesOn && continuesChain name then chained name raw else tag name raw

def isClosedBy (name : String) : Opening → Bool
  | tag opened _ => Text.eqIgnoringAsciiCase opened name
  | chained opened _ => Text.eqIgnoringAsciiCase opened name
  | _ => false

/-- Whether a conditional of tags may go on behind the end of what was open. There is no end of a
tag that is misplaced or lacks an attribute. -/
def continues? : Opening → Option Bool
  | tag name raw =>
    match asciiLower name with
    | "for" => if HasItemAndSource raw then some false else none
    | "if" => if HasCondition raw then some true else none
    | "elif" | "else" => none
    | _ => some false
  | chained name raw =>
    if asciiLower name = "else" then some false
    else if HasCondition raw then some true else none
  | _ => some false

/-- What a tag becomes is decided by its name and whether a conditional goes on in front of it. -/
theorem continues?_ofTag {goesOn e : Bool} {name : String} {raw : List RawAttribute} :
    (ofTag goesOn name raw).continues? = some e ↔
      (asciiLower name ∉ ["if", "elif", "else"] ∧
        (asciiLower name = "for" → HasItemAndSource raw)) ∧ e = false ∨
      (asciiLower name = "if" ∧ HasCondition raw) ∧ e = true ∨
      goesOn = true ∧ ((asciiLower name = "elif" ∧ HasCondition raw) ∧ e = true ∨
        asciiLower name = "else" ∧ e = false) := by
  by_cases hif : asciiLower name = "if"
  · simp [ofTag, continuesChain, continues?, hif, eq_comm]
  by_cases helif : asciiLower name = "elif"
  · cases goesOn <;> simp [ofTag, continuesChain, continues?, helif, eq_comm]
  by_cases helse : asciiLower name = "else"
  · cases goesOn <;> simp [ofTag, continuesChain, continues?, helse, eq_comm]
  have ho : ofTag goesOn name raw = tag name raw := by
    simp [ofTag, continuesChain, helif, helse]
  rw [ho]
  by_cases hfor : asciiLower name = "for"
  · simp [continues?, hfor, eq_comm]
  · simp [continues?, hif, helif, helse, hfor, eq_comm]

theorem isClosedBy_ofTag (goesOn : Bool) (name close : String) (raw : List RawAttribute) :
    (ofTag goesOn name raw).isClosedBy close = Text.eqIgnoringAsciiCase name close := by
  unfold ofTag
  split <;> rfl

end Opening

/-- What decides of a state of the parser which tokens may follow. -/
structure Reading where
  stack : List Opening
  goesOn : Bool

namespace Reading

/-- The end of a tag, with the stack around it. -/
def closed (o : Opening) (stack : List Opening) : Option Reading :=
  o.continues?.map fun g => ⟨stack, g⟩

def nextBlock : Block → List Opening → Option Reading
  | .loop .., stack => some ⟨.loop :: stack, false⟩
  | .branch _, stack => some ⟨.branch :: stack, false⟩
  | .endLoop, .loop :: stack => some ⟨stack, false⟩
  | .otherBranch _, .branch :: stack => some ⟨.branch :: stack, false⟩
  | .alternate, .branch :: stack => some ⟨.alternate :: stack, false⟩
  | .endBranch, .branch :: stack => some ⟨stack, false⟩
  | .endBranch, .alternate :: stack => some ⟨stack, false⟩
  | _, _ => none

/-- The state behind a token. There is none if the token does not fit. -/
def next (r : Reading) : Token → Option Reading
  | .text s => some ⟨r.stack, r.goesOn && Text.isAllBlank s⟩
  | .openTag name raw selfClosing =>
    let o := Opening.ofTag r.goesOn name raw
    if selfClosing || isVoid name then closed o r.stack else some ⟨o :: r.stack, false⟩
  | .closeTag name =>
    match r.stack with
    | o :: stack => if o.isClosedBy name then closed o stack else none
    | [] => none
  | .block b => nextBlock b r.stack
  | _ => some ⟨r.stack, false⟩

end Reading

namespace Reading

theorem closed_eq {o : Opening} {e : Bool} (h : o.continues? = some e) (stack : List Opening) :
    closed o stack = some ⟨stack, e⟩ := by
  rw [closed, h, Option.map_some]

/-- What the tokens of a phrase do to any state. -/
def Takes (ts : List Token) : Phrase → Prop
  | .nodes | .node => ∀ r, ∃ g, ts.foldlM next r = some ⟨r.stack, g⟩
  | .tag name raw => ∀ r, ts.foldlM next r = closed (.ofTag r.goesOn name raw) r.stack
  | .chain => ∀ r, ts.foldlM next r = some ⟨r.stack, true⟩
  | .branches => ∀ r, ∃ g, ts.foldlM next r = some ⟨.branch :: r.stack, g⟩

theorem next_leaf (r : Reading) {t : Token} (h : t.isLeaf) : ∃ g, r.next t = some ⟨r.stack, g⟩ := by
  cases t <;> simp_all [Token.isLeaf, next]

theorem foldlM_blanks (stack : List Opening) {bs : List Token} (h : Blanks bs) :
    bs.foldlM next ⟨stack, true⟩ = some ⟨stack, true⟩ := by
  induction bs with
  | nil => rfl
  | cons t ts ih =>
    obtain ⟨ht, hts⟩ := List.forall_mem_cons.1 h
    have hnext : next ⟨stack, true⟩ t = some ⟨stack, true⟩ := by
      cases t <;> simp_all [Token.isBlank, next]
    rw [List.foldlM_cons, hnext]
    exact ih hts

end Reading

open Opening (continues?_ofTag) in
open Reading in
/-- What is derived is read: by induction over the derivation, in any state. -/
theorem Derives.takes {phrase : Phrase} {ts : List Token} (h : Derives phrase ts) :
    Takes ts phrase := by
  induction h with
  | nil => exact fun r => ⟨r.goesOn, rfl⟩
  | snoc _ _ ih ih' =>
    intro r
    obtain ⟨g, hg⟩ := ih r
    obtain ⟨g', hg'⟩ := ih' ⟨r.stack, g⟩
    exact ⟨g', by simp [List.foldlM_append, hg, hg']⟩
  | leaf h =>
    intro r
    obtain ⟨g, hg⟩ := next_leaf r h
    exact ⟨g, by simp [hg]⟩
  | alone h =>
    intro r
    simp [Reading.next, h]
  | @closed name ts close raw hv _ hn ih =>
    intro r
    obtain ⟨g, hg⟩ := ih ⟨.ofTag r.goesOn name raw :: r.stack, false⟩
    simp [List.foldlM_append, Reading.next, hv, hg, Opening.isClosedBy_ofTag, hn]
  | element hc hf _ ih =>
    intro r
    exact ⟨false, by rw [ih r, closed_eq (continues?_ofTag.2 (.inl ⟨⟨hc, hf⟩, rfl⟩))]⟩
  | first hn hc _ ih =>
    intro r
    rw [ih r, closed_eq (continues?_ofTag.2 (.inr (.inl ⟨⟨hn, hc⟩, rfl⟩)))]
  | next _ hb hn hc _ ih ih' =>
    intro r
    have he := continues?_ofTag.2 (.inr (.inr ⟨rfl, .inl ⟨⟨hn, hc⟩, rfl⟩⟩))
    simp [List.foldlM_append, ih r, foldlM_blanks _ hb, ih' ⟨r.stack, true⟩, closed_eq he]
  | chain _ ih => exact fun r => ⟨true, ih r⟩
  | @last ts bs name raw us _ hb hn _ ih ih' =>
    intro r
    have he : (Opening.ofTag true name raw).continues? = some false :=
      continues?_ofTag.2 (.inr (.inr ⟨rfl, .inr ⟨hn, rfl⟩⟩))
    refine ⟨false, ?_⟩
    simp [List.foldlM_append, ih r, foldlM_blanks _ hb, ih' ⟨r.stack, true⟩, closed_eq he]
  | loop _ ih =>
    intro r
    obtain ⟨g, hg⟩ := ih ⟨.loop :: r.stack, false⟩
    exact ⟨false, by simp [List.foldlM_append, Reading.next, nextBlock, hg]⟩
  | branch _ ih =>
    intro r
    obtain ⟨g, hg⟩ := ih ⟨.branch :: r.stack, false⟩
    exact ⟨g, by simp [Reading.next, nextBlock, hg]⟩
  | otherBranch _ _ ih ih' =>
    intro r
    obtain ⟨g, hg⟩ := ih r
    obtain ⟨g', hg'⟩ := ih' ⟨.branch :: r.stack, false⟩
    exact ⟨g', by simp [List.foldlM_append, Reading.next, nextBlock, hg, hg']⟩
  | conditional _ ih =>
    intro r
    obtain ⟨g, hg⟩ := ih r
    exact ⟨false, by simp [List.foldlM_append, Reading.next, nextBlock, hg]⟩
  | alternate _ _ ih ih' =>
    intro r
    obtain ⟨g, hg⟩ := ih r
    obtain ⟨g', hg'⟩ := ih' ⟨.alternate :: r.stack, false⟩
    exact ⟨false, by simp [List.foldlM_append, Reading.next, nextBlock, hg, hg']⟩

theorem Derives.blanks {ts bs : List Token} (h : Derives .nodes ts) (hb : Blanks bs) :
    Derives .nodes (ts ++ bs) := by
  induction bs generalizing ts with
  | nil => rwa [List.append_nil]
  | cons t bs ih =>
    obtain ⟨ht, hbs⟩ := List.forall_mem_cons.1 hb
    have hleaf : t.isLeaf := by cases t <;> simp_all [Token.isBlank, Token.isLeaf]
    rw [← List.singleton_append, ← List.append_assoc]
    exact ih (h.snoc (.leaf hleaf)) hbs

/-- What has been read inside of the innermost construct: nodes, and behind them a conditional of
tags that may go on. -/
inductive Body : Bool → List Token → Prop
  | settled : Derives .nodes ts → Body false ts
  | goesOn : Derives .nodes ts → Derives .chain us → Blanks bs → Body true (ts ++ us ++ bs)

namespace Body

variable {g e : Bool} {ts us : List Token}

theorem nodes (h : Body g ts) : Derives .nodes ts := by
  cases h with
  | settled h => exact h
  | goesOn h hc hb => exact (h.snoc (.chain hc)).blanks hb

theorem snoc (h : Body g ts) (hu : Derives .node us) : Body false (ts ++ us) :=
  .settled (h.nodes.snoc hu)

theorem text (h : Body g ts) (s : String) :
    Body (g && Text.isAllBlank s) (ts ++ [.text s]) := by
  cases h with
  | settled h => exact (Body.settled h).snoc (.leaf rfl)
  | goesOn h hc hb =>
    cases hs : Text.isAllBlank s with
    | false => exact (Body.goesOn h hc hb).snoc (.leaf rfl)
    | true =>
      rw [List.append_assoc]
      exact .goesOn h hc (List.forall_mem_append.2 ⟨hb, List.forall_mem_singleton.2 hs⟩)

theorem tag {name : String} {raw : List RawAttribute} (h : Body g ts)
    (ht : Derives (.tag name raw) us) (he : (Opening.ofTag g name raw).continues? = some e) :
    Body e (ts ++ us) := by
  -- A tag is a node by itself, or it begins a conditional, goes on with one, or ends it.
  obtain ⟨⟨hn, hf⟩, rfl⟩ | ⟨⟨hn, hc⟩, rfl⟩ | ⟨rfl, ⟨⟨hn, hc⟩, rfl⟩ | ⟨hn, rfl⟩⟩ :=
    Opening.continues?_ofTag.1 he
  · exact h.snoc (.element hn hf ht)
  · simpa using Body.goesOn h.nodes (.first hn hc ht) (List.forall_mem_nil _)
  · cases h with
    | goesOn h hchain hb =>
      simpa using Body.goesOn h (.next hchain hb hn hc ht) (List.forall_mem_nil _)
  · cases h with
    | goesOn h hchain hb => simpa using Body.settled (h.snoc (.last hchain hb hn ht))

end Body

/-- The tokens `vs` begin a construct: nodes and its end, or the next tag of it, may follow. -/
def Opens (g : Bool) (vs : List Token) : Opening → Prop
  | .loop => ∀ ws, Derives .nodes ws → Derives .node (vs ++ ws ++ [.block .endLoop])
  | .branch => ∀ ws, Derives .nodes ws → Derives .branches (vs ++ ws)
  | .alternate => ∀ ws, Derives .nodes ws → Derives .node (vs ++ ws ++ [.block .endBranch])
  | o => ∃ name raw, o = .ofTag g name raw ∧ ∀ ws close, Derives .nodes ws →
      o.isClosedBy close → Derives (.tag name raw) (vs ++ ws ++ [.closeTag close])

namespace Opens

variable {g : Bool}

theorem tag {name : String} (h : ¬isVoid name) (raw : List RawAttribute) :
    Opens g [.openTag name raw false] (.ofTag g name raw) := by
  cases ho : Opening.ofTag g name raw with
  | tag | chained =>
    refine ⟨name, raw, ho.symm, fun ws close hw hc => .closed h hw ?_⟩
    rwa [← ho, Opening.isClosedBy_ofTag] at hc
  | loop | branch | alternate =>
    unfold Opening.ofTag at ho
    split at ho <;> cases ho

theorem of_isClosedBy {vs : List Token} {o : Opening} {close : String} (h : Opens g vs o)
    (hc : o.isClosedBy close) :
    ∃ name raw, o = .ofTag g name raw ∧ ∀ ws, Derives .nodes ws →
      Derives (.tag name raw) (vs ++ ws ++ [.closeTag close]) := by
  cases o with
  | tag name raw | chained name raw =>
    obtain ⟨name', raw', ho, h⟩ := h
    exact ⟨name', raw', ho, fun ws hw => h ws close hw hc⟩
  | loop | branch | alternate => cases hc

end Opens

/-- The tokens that have been read up to the inside of the innermost construct. -/
inductive Before : List Opening → List Token → Prop
  | start : Before [] []
  | opened : Before stack ts → Body g us → Opens g vs o → Before (o :: stack) (ts ++ us ++ vs)

namespace Reading

/-- The tokens `ts` lead to `r`, and all that is closed in them is well nested. -/
def Holds (ts : List Token) (r : Reading) : Prop :=
  ∃ us vs, ts = us ++ vs ∧ Before r.stack us ∧ Body r.goesOn vs

variable {r r' : Reading} {ts us vs : List Token} {stack : List Opening} {o : Opening} {g : Bool}

theorem holds_open (hb : Before stack us) (hv : Body g vs) (ho : Opens g ts o) :
    Holds (us ++ vs ++ ts) ⟨o :: stack, false⟩ :=
  ⟨us ++ vs ++ ts, [], (List.append_nil _).symm, .opened hb hv ho, .settled .nil⟩

theorem holds_tag {name : String} {raw : List RawAttribute} (hb : Before stack us)
    (hv : Body g vs) (ht : Derives (.tag name raw) ts)
    (h : closed (.ofTag g name raw) stack = some r) : Holds (us ++ vs ++ ts) r := by
  obtain ⟨e, he, rfl⟩ := Option.map_eq_some_iff.1 h
  exact ⟨us, vs ++ ts, List.append_assoc .., hb, hv.tag ht he⟩

/-- The end of a construct that is a node makes one with all that has been read of it. -/
theorem holds_end {t : Token} (hb : Before (o :: stack) us)
    (h : ∀ {g vs}, Opens g vs o → Derives .node (vs ++ ts ++ [t])) :
    Holds (us ++ ts ++ [t]) ⟨stack, false⟩ := by
  cases hb with
  | @opened _ us₀ _ ws vs _ hb hw ho =>
    exact ⟨us₀, ws ++ (vs ++ ts ++ [t]), by simp, hb, hw.snoc (h ho)⟩

theorem holds_branch {t : Token} (hb : Before (.branch :: stack) us) (hv : Derives .nodes ts)
    (h : ∀ {vs}, Derives .branches vs → ∀ {g}, Opens g (vs ++ [t]) o) :
    Holds (us ++ ts ++ [t]) ⟨o :: stack, false⟩ := by
  cases hb with
  | opened hb hw ho => simpa using holds_open hb hw (h (ho ts hv))

theorem holds_nextBlock {b : Block} (hb : Before stack us) (hv : Body g vs)
    (h : nextBlock b stack = some r) : Holds (us ++ vs ++ [.block b]) r := by
  unfold nextBlock at h
  split at h <;> cases h
  · exact holds_open hb hv fun ws hw => .loop hw
  · exact holds_open hb hv fun ws hw => .branch hw
  · exact holds_end hb fun ho => ho _ hv.nodes
  · exact holds_branch hb hv.nodes fun hvs _ ws hw => by simpa using hvs.otherBranch hw
  · exact holds_branch hb hv.nodes fun hvs _ ws hw => by simpa using hvs.alternate hw
  · exact holds_end hb fun ho => .conditional (ho _ hv.nodes)
  · exact holds_end hb fun ho => ho _ hv.nodes

/-- One token keeps what has been read well nested. -/
theorem Holds.next {t : Token} (h : Holds ts r) (hn : r.next t = some r') :
    Holds (ts ++ [t]) r' := by
  obtain ⟨us, vs, rfl, hb, hv⟩ := h
  have hleaf (ht : t.isLeaf) : Holds (us ++ vs ++ [t]) ⟨r.stack, false⟩ :=
    ⟨us, vs ++ [t], List.append_assoc .., hb, hv.snoc (.leaf ht)⟩
  cases t with
  | text s =>
    cases hn
    exact ⟨us, vs ++ [.text s], List.append_assoc .., hb, hv.text s⟩
  | openTag name raw selfClosing =>
    simp only [Reading.next] at hn
    split at hn
    · next h => exact holds_tag hb hv (.alone h) hn
    · next h =>
      simp only [Bool.or_eq_true, not_or, Bool.not_eq_true] at h
      cases hn
      rw [h.1]
      exact holds_open hb hv (.tag (by simp [h.2]) raw)
  | closeTag name =>
    obtain ⟨stack, g⟩ := r
    cases hb with
    | start => cases hn
    | opened hb hw ho =>
      simp only [Reading.next] at hn
      split at hn
      · next hc =>
        -- What is open last is a tag of this name, and together they enclose nodes.
        obtain ⟨name', raw, rfl, h⟩ := ho.of_isClosedBy hc
        simpa using holds_tag hb hw (h vs hv.nodes) hn
      · cases hn
  | block b => exact holds_nextBlock hb hv hn
  | _ =>
    cases hn
    exact hleaf rfl

theorem Holds.foldlM {us : List Token} (h : Holds ts r) (hn : us.foldlM Reading.next r = some r') :
    Holds (ts ++ us) r' := by
  induction us generalizing ts r with
  | nil => cases hn; rwa [List.append_nil]
  | cons t us ih =>
    rw [List.foldlM_cons] at hn
    obtain ⟨q, hq, hn⟩ := Option.bind_eq_some_iff.1 hn
    simpa using ih (h.next hq) hn

end Reading

def IsRead (ts : List Token) : Prop :=
  ∃ r, ts.foldlM Reading.next ⟨[], false⟩ = some r ∧ r.stack = []

theorem isRead_iff {ts : List Token} : IsRead ts ↔ WellNested ts where
  mp h := by
    obtain ⟨⟨stack, g⟩, hr, rfl⟩ := h
    have hstart : Reading.Holds [] ⟨[], false⟩ := ⟨[], [], rfl, .start, .settled .nil⟩
    obtain ⟨us, vs, hts, hb, hv⟩ := hstart.foldlM hr
    cases hb
    obtain rfl : ts = vs := hts
    exact hv.nodes
  mpr h := by
    obtain ⟨g, hg⟩ := h.takes ⟨[], false⟩
    exact ⟨_, hg, rfl⟩

end PageCompiler.Markup
