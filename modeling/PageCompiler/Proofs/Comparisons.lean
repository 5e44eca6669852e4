import PageCompiler.Proofs.Expr.Text
import PageCompiler.Proofs.Rounding

/-!
Comparisons of integers. They are made on 64-bit numbers, which stand for the integers next to them
that have 53 bits. Main statement: a comparison of two names is that of these integers, and so it is
exact for all operators unless two different integers have the same one.
-/

namespace PageCompiler

namespace Double

section Nearest

variable {m n : Int}

theorem nearest_natCast (n : Nat) : nearest n = nearestNat n := by
  obtain rfl | hn := n.eq_zero_or_pos
  · rfl
  · rw [nearest, Int.sign_eq_one_of_pos (by simpa using hn), Int.one_mul, Int.natAbs_natCast]

theorem nearest_neg (n : Int) : nearest (-n) = -nearest n := by
  rw [nearest, nearest, Int.sign_neg, Int.natAbs_neg, Int.neg_mul]

theorem nearest_mono (h : m ≤ n) : nearest m ≤ nearest n := by
  obtain ⟨a, rfl | rfl⟩ := m.eq_nat_or_neg <;> obtain ⟨b, rfl | rfl⟩ := n.eq_nat_or_neg
  · rw [nearest_natCast, nearest_natCast]
    exact_mod_cast nearestNat_mono (by omega)
  · obtain ⟨rfl, rfl⟩ : a = 0 ∧ b = 0 := by omega
    exact le_rfl
  · rw [nearest_neg, nearest_natCast, nearest_natCast]
    omega
  · rw [nearest_neg, nearest_neg, nearest_natCast, nearest_natCast]
    have := nearestNat_mono (show b ≤ a by omega)
    omega

theorem natAbs_nearest (n : Int) : (nearest n).natAbs = nearestNat n.natAbs := by
  obtain ⟨a, rfl | rfl⟩ := n.eq_nat_or_neg
  · rw [nearest_natCast, Int.natAbs_natCast, Int.natAbs_natCast]
  · rw [nearest_neg, nearest_natCast, Int.natAbs_neg, Int.natAbs_natCast, Int.natAbs_neg,
      Int.natAbs_natCast]

theorem nearest_of_lt (h : n.natAbs < 2 ^ 53) : nearest n = n := by
  rw [nearest, nearestNat_of_lt h, Int.sign_mul_natAbs]

/-- An integer that has at most 53 bits is next to no other one. -/
theorem eq_of_nearest (h : m.natAbs < 2 ^ 53) (hmn : nearest m = nearest n) : m = n := by
  have hn : n.natAbs < 2 ^ 53 := by
    by_contra hn
    have hle := two_pow_le_nearestNat (by omega : 2 ^ 53 ≤ n.natAbs)
    rw [← natAbs_nearest, ← hmn, nearest_of_lt h] at hle
    omega
  rwa [nearest_of_lt h, nearest_of_lt hn] at hmn

end Nearest

section Order

variable {x y : Float} {i j : Int} (hx : StandsFor x.toModel.unpack i)
  (hy : StandsFor y.toModel.unpack j)

include hx hy

theorem beq_eq : (x == y) = (i == j) := by
  show (x.toModel.unpack.compare y.toModel.unpack == some .eq) = _
  rw [hx.compare_eq hy, Bool.eq_iff_iff, beq_iff_eq, Option.some_inj, Int.compare_eq_eq,
    beq_iff_eq]

theorem lt_iff : x < y ↔ i < j := by
  have hmodel : x < y ↔ x.toModel < y.toModel := by
    show x.lt y = true ↔ _
    exact decide_eq_true_iff
  have hcompare : x.toModel < y.toModel ↔
      (x.toModel.unpack.compare y.toModel.unpack == some .lt) = true := Iff.rfl
  rw [hmodel, hcompare, hx.compare_eq hy, beq_iff_eq, Option.some_inj, Int.compare_eq_lt]

theorem le_iff : x ≤ y ↔ i ≤ j := by
  have hmodel : x ≤ y ↔ x.toModel ≤ y.toModel := by
    show x.le y = true ↔ _
    exact decide_eq_true_iff
  have hcompare : x.toModel ≤ y.toModel ↔
      (x.toModel.unpack.compare y.toModel.unpack).any (·.isLE) = true := Iff.rfl
  rw [hmodel, hcompare, hx.compare_eq hy, Option.any_some, Int.isLE_compare]

/-- An operator says of two numbers what it says of the integers that they stand for. -/
theorem holds_eq (op : Comparison) : op.holds x y = op.holds i j := by
  cases op with
  | eq => exact beq_eq hx hy
  | ne => exact congrArg Bool.not (beq_eq hx hy)
  | lt => exact decide_eq_decide.2 (lt_iff hx hy)
  | le => exact decide_eq_decide.2 (le_iff hx hy)
  | gt => exact decide_eq_decide.2 (lt_iff hy hx)
  | ge => exact decide_eq_decide.2 (le_iff hy hx)

end Order

/-- An order is kept by what does not make different integers the same. -/
theorem holds_nearest_iff {l r : Int} :
    (∀ op : Comparison, op.holds (nearest l) (nearest r) = op.holds l r) ↔
      (nearest l = nearest r → l = r) := by
  constructor
  · intro h hnearest
    have heq := h .eq
    rw [hnearest] at heq
    exact eq_of_beq (heq.symm.trans (beq_self_eq_true _))
  · intro h op
    have hl : l ≤ r → nearest l ≤ nearest r := nearest_mono
    have hr : r ≤ l → nearest r ≤ nearest l := nearest_mono
    have heq : nearest l = nearest r ↔ l = r := ⟨h, congrArg nearest⟩
    have hbeq : (nearest l == nearest r) = (l == r) := by
      rw [Bool.eq_iff_iff, beq_iff_eq, beq_iff_eq, heq]
    cases op with
    | eq => exact hbeq
    | ne => exact congrArg Bool.not hbeq
    | lt => exact decide_eq_decide.2 (by omega)
    | le => exact decide_eq_decide.2 (by omega)
    | gt => exact decide_eq_decide.2 (by omega)
    | ge => exact decide_eq_decide.2 (by omega)

end Double

namespace Json.Number

/-- An integer that a document can hold. -/
def InRange (n : Int) : Prop := leastInteger ≤ n ∧ n ≤ greatestInteger

theorem InRange.log2_le {n : Int} (h : InRange n) : n.natAbs.log2 ≤ 900 := by
  obtain ⟨hl, hg⟩ := h
  rw [leastInteger] at hl
  rw [greatestInteger] at hg
  obtain hn | hn := n.natAbs.eq_zero_or_pos
  · rw [hn]
    decide
  · have h64 : n.natAbs < 2 ^ 64 := by omega
    have := (Nat.log2_lt hn.ne').2 h64
    omega

end Json.Number

namespace Expr

open Double (nearest)
open Json.Number (InRange)

variable {lookup : String → Option Json.Value} {x y : String} {l r : Int}

/-- The text of a comparison of two names. -/
def comparisonText (op : Comparison) (x y : String) : String :=
  x ++ " " ++ .ofList (Token.compare op).text ++ " " ++ y

theorem spells_comparisonText (hx : IsName x) (hy : IsName y) (op : Comparison) :
    Text.Spells Token.Spelled [.ident x, .compare op, .ident y]
      (comparisonText op x y).toList := by
  have htext : (comparisonText op x y).toList =
      [] ++ (x.toList ++ ([' '] ++ ((Token.compare op).text ++ ([' '] ++ (y.toList ++ []))))) := by
    simp [comparisonText]
  have hblank : ∀ c ∈ [' '], Text.isBlank c := List.forall_mem_singleton.2 rfl
  rw [htext]
  exact .token nofun (.ident hx rfl) <| .token hblank (Token.isSpelled_compare op _) <|
    .token hblank (.ident hy rfl) <| .blank nofun

theorem parse_comparisonText (hx : IsName x) (hx' : x ∉ reservedWords) (hy : IsName y)
    (hy' : y ∉ reservedWords) (op : Comparison) :
    parse (comparisonText op x y) = .ok (.compare op (.ident x) (.ident y)) := by
  have hphrase : Phrase 2 (.compare op (.ident x) (.ident y))
      ([.ident x] ++ .compare op :: [.ident y]) :=
    .compare (.of_le (by decide) (.ident hx hx')) (.of_le (by decide) (.ident hy hy'))
  exact (hphrase.of_le (Nat.zero_le _)).parse_eq (spells_comparisonText hx hy op)

theorem evaluate_compare (hl : lookup x = some (.number (.integer l)))
    (hr : lookup y = some (.number (.integer r))) (hlr : InRange l) (hrr : InRange r)
    (op : Comparison) :
    (Expr.compare op (.ident x) (.ident y)).evaluate lookup =
      .ok (.bool (op.holds (nearest l) (nearest r))) := by
  have htest : op.test (.number (.integer l)) (.number (.integer r)) =
      op.holds (nearest l) (nearest r) :=
    Double.holds_eq (Double.ofInt_standsFor hlr.log2_le) (Double.ofInt_standsFor hrr.log2_le) op
  simp only [evaluate, hl, hr]
  exact congrArg (fun b => Except.ok (Json.Value.bool b)) htest

/-- A comparison of two integers by their names is made on the integers with 53 bits next to them.
It is exact for all operators if and only if these tell the integers apart, as they do if one of the
two has no more bits itself. -/
theorem evaluate_comparison (hx : IsName x) (hx' : x ∉ reservedWords) (hy : IsName y)
    (hy' : y ∉ reservedWords) (hl : lookup x = some (.number (.integer l)))
    (hr : lookup y = some (.number (.integer r))) (hlr : InRange l) (hrr : InRange r) :
    (∀ op, ∃ e, parse (comparisonText op x y) = .ok e ∧
        e.evaluate lookup = .ok (.bool (op.holds (nearest l) (nearest r)))) ∧
      ((∀ op : Comparison, op.holds (nearest l) (nearest r) = op.holds l r) ↔
        (nearest l = nearest r → l = r)) ∧
      (l.natAbs < 2 ^ 53 ∨ r.natAbs < 2 ^ 53 → nearest l = nearest r → l = r) := by
  refine ⟨fun op => ?_, Double.holds_nearest_iff, ?_⟩
  · exact ⟨_, parse_comparisonText hx hx' hy hy' op, evaluate_compare hl hr hlr hrr op⟩
  · rintro (h | h) hnearest
    · exact Double.eq_of_nearest h hnearest
    · exact (Double.eq_of_nearest h hnearest.symm).symm

/-- Above `2 ^ 53`, even numbers stay apart from each other, but not from the odd ones. -/
theorem evaluate_comparison_ids :
    let l : Int := 9007199254740992
    let r : Int := 9007199254740994
    let lookup := Json.Object.get? [("l", .number (.integer l)), ("r", .number (.integer r))]
    ((∀ op, ∃ e, parse (comparisonText op "l" "r") = .ok e ∧
        e.evaluate lookup = .ok (.bool (op.holds (nearest l) (nearest r)))) ∧
      ∀ op : Comparison, op.holds (nearest l) (nearest r) = op.holds l r) ∧
      nearest (l + 1) = nearest l := by
  intro l r lookup
  have hname {name : String} {c : Char} (h : name.toList = [c]) (hc : Token.startsName c)
      (hword : name ∉ operatorWords) : IsName name := ⟨⟨c, [], h, hc, rfl⟩, hword⟩
  have hl : lookup "l" = some (.number (.integer l)) := rfl
  have hr : lookup "r" = some (.number (.integer r)) := rfl
  obtain ⟨heval, hexact, -⟩ := evaluate_comparison (hname rfl rfl (by decide)) (by decide)
    (hname rfl rfl (by decide)) (by decide) hl hr ⟨by decide, by decide⟩ ⟨by decide, by decide⟩
  have hne : nearest l ≠ nearest r := by decide +kernel
  exact ⟨⟨heval, hexact.2 fun h => absurd h hne⟩, by decide +kernel⟩

/-- Two integers next to each other are equal in a comparison, where lists of them are not. -/
theorem evaluate_comparison_neighbours :
    let l : Int := 9007199254740993
    let r : Int := 9007199254740992
    let lookup := Json.Object.get? [("l", .number (.integer l)), ("r", .number (.integer r))]
    InRange l ∧ InRange r ∧
      (∃ e, parse "l == r" = .ok e ∧ e.evaluate lookup = .ok (.bool true)) ∧
      Comparison.test .eq (.array [.number (.integer l)]) (.array [.number (.integer r)]) = false ∧
      Comparison.eq.holds l r = false := by
  intro l r lookup
  have hparse : parse "l == r" = .ok (.compare .eq (.ident "l") (.ident "r")) := by cbv
  have htest : Comparison.test .eq (.number (.integer l)) (.number (.integer r)) = true := by
    decide +kernel
  refine ⟨⟨by decide, by decide⟩, ⟨by decide, by decide⟩, ⟨_, hparse, ?_⟩, by decide +kernel,
    by decide⟩
  exact congrArg (fun b => Except.ok (Json.Value.bool b)) htest

end Expr

end PageCompiler
