import PageCompiler.Proofs.Discovery

/-!
Values of the types of props. What text or a value becomes for a type is a value of the type, and so
is each declared default. The names of the props of a definition differ.
-/

namespace PageCompiler

open Json (Value Number)

/-- The value is nothing, or it is of the type. -/
inductive PropType.Admits : PropType → Value → Prop
  | null : Admits type .null
  | string : Admits string (.string s)
  | bool : Admits bool (.bool b)
  | int : Number.leastInteger ≤ i → i ≤ Number.greatestSigned → Admits int (.number (.integer i))
  | float : Admits float (.number n)
  | any : Admits any v

theorem Double.toInt_range (x : Float) :
    Number.leastInteger ≤ Double.toInt x ∧ Double.toInt x ≤ Number.greatestSigned := by
  have hl := Int64.le_toInt x.toModel.toInt64
  have hg := Int64.toInt_lt x.toModel.toInt64
  simp only [Number.leastInteger, Number.greatestSigned, Double.toInt]
  omega

namespace PropType

variable {type : PropType} {v w : Value}

theorem admits_ofText {text : String} (h : type.ofText text = .ok v) : type.Admits v := by
  cases type with
  | string =>
    cases h
    exact .string
  | any => exact .any
  | bool =>
    simp only [ofText] at h
    split at h
    · cases h
      exact .bool
    · split at h
      · cases h
        exact .bool
      · cases h
  | int =>
    simp only [ofText] at h
    split at h
    · next n hn =>
      cases h
      obtain ⟨-, hrange⟩ := Option.filter_eq_some_iff.1 hn
      obtain ⟨hl, hg⟩ := of_decide_eq_true hrange
      exact .int hl hg
    · cases h
  | float =>
    simp only [ofText] at h
    split at h
    · cases h
      exact .float
    · cases h

theorem integerOf_range {n : Number} {i : Int} (h : integerOf n = .ok i) :
    Number.leastInteger ≤ i ∧ i ≤ Number.greatestSigned := by
  cases n with
  | integer j =>
    simp only [integerOf] at h
    split at h
    · next hj =>
      cases h
      exact hj
    · cases h
      exact Double.toInt_range _
  | float x =>
    simp only [integerOf] at h
    split at h
    · cases h
      exact Double.toInt_range x
    · cases h

theorem admits_ofValue (h : type.ofValue v = .ok w) : type.Admits w := by
  unfold ofValue at h
  split at h
  · cases h
    exact .null
  · exact .any
  · split at h
    · cases h
      exact .string
    · cases h
  · cases h
    exact .bool
  · next n =>
    cases hi : integerOf n with
    | error m =>
      rw [hi] at h
      cases h
    | ok i =>
      rw [hi] at h
      cases h
      obtain ⟨hl, hg⟩ := integerOf_range hi
      exact .int hl hg
  · cases h
    exact .float
  · exact admits_ofText h
  · cases h

end PropType

/-- The default of a prop, if it has one, is of its type. -/
def PropDefinition.IsTyped (p : PropDefinition) : Prop := ∀ v, p.default = some v → p.type.Admits v

namespace Props

variable {type : PropType}

theorem admits_readDefault {text : List Char} {v : Value} (h : readDefault type text = .ok v) :
    type.Admits v := by
  unfold readDefault at h
  dsimp only at h
  split at h
  · exact PropType.admits_ofText h
  · exact PropType.admits_ofValue h
  · exact PropType.admits_ofText h

theorem admits_defaultOf {optional : Bool} {text : Option (List Char)} {v : Value}
    (h : defaultOf type optional text = .ok (some v)) : type.Admits v := by
  cases text with
  | none => cases h
  | some text =>
    rw [defaultOf] at h
    split at h
    · cases h
      exact .null
    · cases hd : readDefault type text with
      | error m =>
        rw [hd] at h
        cases h
      | ok w =>
        rw [hd] at h
        cases h
        exact admits_readDefault hd

/-- A line declares a prop of a new name. -/
theorem readLine_ok {declared : List PropDefinition} {line : List Char} {p : PropDefinition}
    (h : readLine declared line = .ok p) :
    p.IsTyped ∧ p.name ∉ declared.map PropDefinition.name := by
  unfold readLine at h
  split at h
  · cases h
  · split at h
    · cases h
    · split at h
      · cases h
      · next hnew =>
        split at h
        · next hd =>
          cases h
          refine ⟨fun v hv => admits_defaultOf (hd.trans (congrArg _ hv)), ?_⟩
          simpa using hnew
        · cases h

structure AreTyped (ps : List PropDefinition) : Prop where
  nodup : (ps.map PropDefinition.name).Nodup
  typed : ∀ p ∈ ps, p.IsTyped

theorem areTyped_nil : AreTyped [] := ⟨List.nodup_nil, List.forall_mem_nil _⟩

theorem readLines_areTyped (file : String) (number : Nat) {declared : List PropDefinition}
    (h : AreTyped declared) (lines : List (List Char)) :
    AreTyped (readLines file number declared lines).value := by
  induction lines generalizing number declared with
  | nil => exact h
  | cons line lines ih =>
    rw [readLines]
    split
    · exact ih _ h
    · split
      · next p hp =>
        obtain ⟨htyped, hnew⟩ := readLine_ok hp
        refine ih _ ⟨?_, List.forall_mem_append.2 ⟨h.typed, List.forall_mem_singleton.2 htyped⟩⟩
        rw [List.map_append, List.map_singleton]
        refine List.nodup_append.2 ⟨h.nodup, by simp, ?_⟩
        rintro name hname _ hp rfl
        exact hnew (List.mem_singleton.1 hp ▸ hname)
      · exact ih _ h

end Props

theorem Definition.areTyped_ofTemplate (name : String) (t : Template) :
    Props.AreTyped (ofTemplate name t).value.props := by
  simp only [ofTemplate, Reported.value_bind]
  cases t.findings.props with
  | none => exact Props.areTyped_nil
  | some block => exact Props.readLines_areTyped _ _ Props.areTyped_nil _

theorem discover_areTyped (known : ParseTable) (documents : List Document) :
    (discover known documents).value.registry.Each fun d => Props.AreTyped d.props :=
  discover_each Definition.areTyped_ofTemplate (fun _ _ _ h => h) known documents

end PageCompiler
