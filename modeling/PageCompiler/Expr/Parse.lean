import PageCompiler.Expr.Token

/-!
Reading expressions. The tokens are taken one at a time; what has been begun and waits for its
end is a stack of frames. Postfix operators bind closest, then `not`, comparisons (which do not
chain), `and` and `or`.
-/

namespace PageCompiler.Expr

/-- A construct of which an operand is still missing. -/
inductive Frame
  | group
  | index (base : Expr)
  | not
  | compare (left : Expr) (op : Comparison)
  | and (left : Expr)
  | or (left : Expr)

/-- What has been read: an operand is due, or one has been read, maybe with a point and a name. -/
inductive Progress
  | operand (stack : List Frame)
  | operator (stack : List Frame) (e : Expr)
  | point (stack : List Frame) (e : Expr)
  | member (stack : List Frame) (e : Expr) (name : String)
  | arguments (stack : List Frame) (e : Expr) (name : String)

def closeNot : List Frame → Expr → List Frame × Expr
  | .not :: stack, e => closeNot stack (.not e)
  | stack, e => (stack, e)

def closeCompare (stack : List Frame) (e : Expr) : List Frame × Expr :=
  match closeNot stack e with
  | (.compare left op :: stack, e) => (stack, .compare op left e)
  | closed => closed

def closeAnd (stack : List Frame) (e : Expr) : List Frame × Expr :=
  match closeCompare stack e with
  | (.and left :: stack, e) => (stack, .and left e)
  | closed => closed

/-- Ends everything up to the next open bracket. -/
def closeOr (stack : List Frame) (e : Expr) : List Frame × Expr :=
  match closeAnd stack e with
  | (.or left :: stack, e) => (stack, .or left e)
  | closed => closed

namespace Progress

/-- What is missed where an expression does not go on: the end of the bracket around it, or the
end of the text `source`. -/
def stuck (source : String) : List Frame → ParseError
  | .group :: _ => .expectedCloseParen
  | .index _ :: _ => .expectedCloseBracket
  | _ => .trailingInput source

def literalOrIdent : String → Expr
  | "true" => .literal (.bool true)
  | "false" => .literal (.bool false)
  | "null" | "None" | "undefined" => .literal .null
  | name => .ident name

def onOperand (stack : List Frame) : Token → Except ParseError Progress
  | .ident name => .ok (operator stack (literalOrIdent name))
  | .number n => .ok (operator stack (.literal (.number n)))
  | .string s => .ok (operator stack (.literal (.string s)))
  | .openParen => .ok (operand (.group :: stack))
  | .bang => .ok (operand (.not :: stack))
  | t => .error (.unexpectedToken t.name)

def onOperator (source : String) (stack : List Frame) (e : Expr) :
    Token → Except ParseError Progress
  | .dot => .ok (point stack e)
  | .openBracket => .ok (operand (.index e :: stack))
  | .compare op =>
    match closeNot stack e with
    | (.compare .. :: _, _) => .error (stuck source (closeOr stack e).1)
    | (stack, e) => .ok (operand (.compare e op :: stack))
  | .and =>
    let (stack, e) := closeAnd stack e
    .ok (operand (.and e :: stack))
  | .or =>
    let (stack, e) := closeOr stack e
    .ok (operand (.or e :: stack))
  | .closeParen =>
    match closeOr stack e with
    | (.group :: stack, e) => .ok (operator stack e)
    | (stack, _) => .error (stuck source stack)
  | .closeBracket =>
    match closeOr stack e with
    | (.index base :: stack, e) => .ok (operator stack (.index base e))
    | (stack, _) => .error (stuck source stack)
  | _ => .error (stuck source (closeOr stack e).1)

def step (source : String) : Progress → Token → Except ParseError Progress
  | operand stack, t => onOperand stack t
  | operator stack e, t => onOperator source stack e t
  | point stack e, .ident name => .ok (member stack e name)
  | point .., _ => .error .expectedFieldName
  | member stack e name, .openParen => .ok (arguments stack e name)
  | member stack e name, t => onOperator source stack (.field e name) t
  | arguments stack e name, .closeParen =>
    match Method.ofName? name with
    | some method => .ok (operator stack (.call e method))
    | none => .error (.unsupportedMethod name)
  | arguments .., _ => .error .expectedNoArguments

def finishOperator (source : String) (stack : List Frame) (e : Expr) : Except ParseError Expr :=
  match closeOr stack e with
  | ([], e) => .ok e
  | (stack, _) => .error (stuck source stack)

def finish (source : String) : Progress → Except ParseError Expr
  | operand _ => .error .unexpectedEnd
  | operator stack e => finishOperator source stack e
  | point .. => .error .expectedFieldName
  | member stack e name => finishOperator source stack (.field e name)
  | arguments .. => .error .expectedNoArguments

end Progress

def parseTokens (source : String) (tokens : List Token) : Except ParseError Expr := do
  if tokens.isEmpty then .error .emptyExpression
  else (← tokens.foldlM (Progress.step source) (.operand [])).finish source

def parse (source : String) : Except ParseError Expr := do
  parseTokens (Text.trimmed source) (← Token.all none source.toList)

def parseLiteral? (source : String) : Option Json.Value :=
  match parse source with
  | .ok (.literal value) => some value
  | _ => none

end PageCompiler.Expr
