import PageCompiler.Island.Formula.Token

/-!
Reading formulas. The tokens are taken one at a time, and what waits for an operand is a stack of
frames. All binary operators associate to the left; signs and `!` bind closer than any of them.
-/

namespace PageCompiler.Island

/-- The binding strength of an operator: the closer it binds, the greater. -/
def Operator.level : Operator → Nat
  | or => 1
  | and => 2
  | compare .eq => 3
  | compare .ne => 3
  | compare _ => 4
  | arithmetic .add => 5
  | arithmetic .sub => 5
  | arithmetic _ => 6

namespace Formula

/-- A construct of which an operand is still missing. -/
inductive Frame
  | group
  | negated
  | not
  | binary (left : Formula) (op : Operator)

/-- What has been read: an operand is due, maybe behind a star, or one has been read. -/
inductive Progress
  | operand (stack : List Frame)
  | starred (stack : List Frame)
  | operator (stack : List Frame) (f : Formula)

/-- Ends everything that binds at least as closely as `level`, up to the next open bracket. -/
def close (level : Nat) : List Frame → Formula → List Frame × Formula
  | .negated :: stack, f => close level stack (.negated f)
  | .not :: stack, f => close level stack (.not f)
  | .binary left op :: stack, f =>
    if level ≤ op.level then close level stack (.binary op left f)
    else (.binary left op :: stack, f)
  | stack, f => (stack, f)

namespace Progress

/-- What is missed where a formula does not go on: the end of the group around it, or the end of
the text `source`. -/
def stuck (source : String) : List Frame → ParseError
  | [] => .trailingInput source
  | _ => .missingCloseParen

def ofWord (parameter name : String) : Except ParseError Formula :=
  match name with
  | "true" => .ok (.literal (.bool true))
  | "false" => .ok (.literal (.bool false))
  | "null" | "None" => .ok (.literal .null)
  | name => if name = parameter then .ok .parameter else .error (.unavailable name parameter)

def onOperand (parameter : String) (stack : List Frame) : Token → Except ParseError Progress
  | .literal value => .ok (operator stack (.literal value))
  | .word name => (ofWord parameter name).map (operator stack)
  | .openParen => .ok (operand (.group :: stack))
  | .bang => .ok (operand (.not :: stack))
  | .operator (.arithmetic .sub) => .ok (operand (.negated :: stack))
  | .operator (.arithmetic .mul) => .ok (starred stack)
  | .operator op => .error (.unexpectedOperator op.symbol)
  | .closeParen => .error .unexpectedCloseParen

def onOperator (source : String) (stack : List Frame) (f : Formula) :
    Token → Except ParseError Progress
  | .operator op =>
    let (stack, f) := close op.level stack f
    .ok (operand (.binary f op :: stack))
  | .closeParen =>
    match close 0 stack f with
    | (.group :: stack, f) => .ok (operator stack f)
    | (stack, _) => .error (stuck source stack)
  | _ => .error (stuck source (close 0 stack f).1)

/-- A star may stand in front of the parameter, and nowhere else. -/
def onStarred (parameter : String) (stack : List Frame) : Token → Except ParseError Progress
  | .word name =>
    if name = parameter then .ok (operator stack .parameter) else .error .strayDereference
  | _ => .error .strayDereference

def step (source parameter : String) : Progress → Token → Except ParseError Progress
  | operand stack, t => onOperand parameter stack t
  | starred stack, t => onStarred parameter stack t
  | operator stack f, t => onOperator source stack f t

def finish : Progress → Except ParseError Formula
  | operand _ => .error .unexpectedEnd
  | starred _ => .error .strayDereference
  | operator stack f =>
    match close 0 stack f with
    | ([], f) => .ok f
    | _ => .error .missingCloseParen

end Progress

def parseTokens (source parameter : String) (tokens : List Token) : Except ParseError Formula := do
  (← tokens.foldlM (Progress.step source parameter) (.operand [])).finish

def parse (source parameter : String) : Except ParseError Formula := do
  parseTokens (Text.trimmed source) parameter (← Token.all source.toList)

end Formula

end PageCompiler.Island
