import PageCompiler.Expr.Basic

/-!
Formulas: the bodies of computed values. The value that a formula starts from is its only
variable. Every formula has a value; what cannot be computed is `null`.
-/

namespace PageCompiler.Island

open Json (Value)

inductive Arithmetic
  | add
  | sub
  | mul
  | div
  | rem
  deriving DecidableEq, Repr

inductive Operator
  | arithmetic (op : Arithmetic)
  | compare (op : Comparison)
  | and
  | or
  deriving DecidableEq, Repr

inductive Formula
  | parameter
  | literal (value : Value)
  | negated (operand : Formula)
  | not (operand : Formula)
  | binary (op : Operator) (left right : Formula)

/-- The result of a calculation: a whole number below `9 · 10 ^ 15` is an integer. -/
def ofResult (x : Float) : Value :=
  let bound : Int := 9000000000000000
  if Double.isWhole x && Double.ofInt (-bound) < x && x < Double.ofInt bound then
    .number (.integer (Double.toInt x))
  else if x.isFinite then .number (.float x)
  else .null

def textOrEmpty (v : Value) : String := v.scalarText?.getD ""

/-- Numbers are calculated with; addition joins the texts of all other values. -/
def Arithmetic.apply (op : Arithmetic) (left right : Value) : Value :=
  match op, left, right with
  | add, .number l, .number r => ofResult (l.toDouble + r.toDouble)
  | sub, .number l, .number r => ofResult (l.toDouble - r.toDouble)
  | mul, .number l, .number r => ofResult (l.toDouble * r.toDouble)
  | div, .number l, .number r =>
    if r.toDouble == 0 then .null else ofResult (l.toDouble / r.toDouble)
  | rem, .number l, .number r =>
    if r.toDouble == 0 then .null else ofResult (Double.remainder l.toDouble r.toDouble)
  | add, l, r => .string (textOrEmpty l ++ textOrEmpty r)
  | _, _, _ => .null

def Operator.apply (op : Operator) (left right : Value) : Value :=
  match op with
  | arithmetic op => op.apply left right
  | compare op => .bool (op.test left right)
  | and => .bool (left.isTruthy && right.isTruthy)
  | or => .bool (left.isTruthy || right.isTruthy)

/-- The negative of a number; other values have none. -/
def negativeOf (v : Value) : Value :=
  match v with
  | .number n => ofResult (Double.negated n.toDouble)
  | _ => .null

def Formula.evaluate (start : Value) : Formula → Value
  | parameter => start
  | literal value => value
  | negated operand => negativeOf (operand.evaluate start)
  | not operand => .bool !(operand.evaluate start).isTruthy
  | binary op left right => op.apply (left.evaluate start) (right.evaluate start)

end PageCompiler.Island
