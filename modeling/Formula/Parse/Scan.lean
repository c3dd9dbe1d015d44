/-
Formula.Parse.Scan — the scan of one list of tokens.

A list is read once, from left to right. The scan keeps an operator stack
with an output queue, knows whether an operand has to follow, and counts
the parentheses and calls that are open. It refuses a token that does not
fit, so what it puts out is a formula in postfix order.

The name of a function is read in two steps: the name itself, and the token
after it, which has to open or to be its arguments.
-/
import Formula.Parse.Operand
import Formula.Parse.Yard

namespace Formula

/-- The state between two tokens of a list. -/
structure Scan where
  yard : Yard
  /-- The token read last. The name of a function counts only together with
  what follows it. -/
  previous : Option Token
  /-- Whether an operand has to follow: nothing was read yet, or an operator,
  an opening parenthesis or a separator was read last. -/
  awaiting : Bool
  /-- The name of a function that still needs its arguments. -/
  called : Option Lexeme
  /-- How many calls have an open argument list. -/
  openCalls : Nat
  /-- How many parentheses are open, those of calls included. -/
  openParens : Nat

namespace Scan

/-- The state before the first token. -/
def start : Scan := ⟨.empty, none, true, none, 0, 0⟩

/-! ## 1. Operands -/

/-- Fails unless an operand may start here. -/
def needOperand (s : Scan) (token : Token) : Except ParseError Unit :=
  if s.awaiting then .ok ()
  else .error (.malformedExpression (.missingOperatorBefore token.text))

/-- The state after an operand that ends with the given token. -/
def pushValue (s : Scan) (v : Measured) (last : Token) : Scan :=
  { s with
    yard := s.yard.pushValue v
    previous := some last
    awaiting := false }

/-! ## 2. Parentheses and separators -/

/-- Fails if one more open parenthesis is too many. -/
def needRoom (s : Scan) (ctx : Context) : Except ParseError Unit :=
  if ctx.room < s.openParens + 1 then .error (.nestingTooDeep ctx.limits.maxDepth) else .ok ()

/-- An opening parenthesis that groups. -/
def leftParen (s : Scan) (ctx : Context) (paren : Lexeme) : Except ParseError Scan := do
  s.needOperand (.lexeme paren)
  s.needRoom ctx
  .ok { s with
    yard := s.yard.pushParen paren
    previous := some (.lexeme paren)
    openParens := s.openParens + 1 }

/-- A closing parenthesis. It may stand where an operand is awaited only
directly after the opening one. -/
def rightParen (s : Scan) (paren : Lexeme) : Except ParseError Scan :=
  let empty := s.previous.bind Token.kind? == some .leftParen
  if s.awaiting && !empty then
    .error (.malformedExpression (.missingOperandBefore paren.text))
  else do
    let (yard, closesCall) ← s.yard.closeParen paren empty
    .ok { s with
      yard := yard
      previous := some (.lexeme paren)
      awaiting := false
      openCalls := if closesCall then s.openCalls - 1 else s.openCalls
      openParens := s.openParens - 1 }

/-- A separator between the arguments of a call. -/
def separator (s : Scan) (sep : Lexeme) : Except ParseError Scan :=
  if s.openCalls = 0 then .error (.unexpectedSeparator sep.text)
  else if s.awaiting then .error (.malformedExpression (.emptyArgumentBefore sep.text))
  else do
    let yard ← s.yard.separate sep
    .ok { s with
      yard := yard
      previous := some (.lexeme sep)
      awaiting := true }

/-! ## 3. Operators -/

/-- An operator. Where an operand has to follow only a sign can stand. -/
def operator (s : Scan) (l : Lexeme) : Except ParseError Scan :=
  if s.awaiting && l.kind != .plus && l.kind != .minus then
    .error (.malformedExpression (.missingLeftOperand l.text))
  else
    match Operator.ofKind? l.kind s.awaiting with
    | none => .error (.internal (.notAnOperator l.text))
    | some op =>
      .ok { s with
        yard := s.yard.pushOperator op l
        previous := some (.lexeme l)
        awaiting := true }

/-! ## 4. Functions -/

/-- The name of a function. -/
def functionName (s : Scan) (ctx : Context) (name : Lexeme) : Except ParseError Scan := do
  s.needOperand (.lexeme name)
  if ctx.environment.isFunction name.text then .ok { s with called := some name }
  else .error (.unrecognizedFunction name.text)

/-- What follows the name of a function: its arguments as a group, or the
parenthesis that opens them. -/
def functionArguments (s : Scan) (ctx : Context) (name : Lexeme) (token : Token) :
    Except ParseError Scan :=
  match token with
  | .group delimiters elements => do
    let call ← ctx.call name delimiters elements
    .ok { s.pushValue call token with called := none }
  | .lexeme l =>
    if l.kind = .leftParen then do
      s.needRoom ctx
      .ok { s with
        yard := s.yard.pushCall name l
        previous := some token
        called := none
        openCalls := s.openCalls + 1
        openParens := s.openParens + 1 }
    else .error (.missingArgumentList (name.text ++ " " ++ token.text))
  | _ => .error (.missingArgumentList (name.text ++ " " ++ token.text))

/-! ## 5. One token, and all of them -/

/-- A lexeme that does not follow the name of a function. -/
def lexeme (s : Scan) (ctx : Context) (l : Lexeme) : Except ParseError Scan :=
  match l.kind with
  | .number | .constantName | .variableName => do
    s.needOperand (.lexeme l)
    let value ← ctx.value (.lexeme l)
    .ok (s.pushValue value (.lexeme l))
  | .functionName => s.functionName ctx l
  | .leftParen => s.leftParen ctx l
  | .rightParen => s.rightParen l
  | .separator => s.separator l
  | .plus | .minus | .times | .divide | .power | .equals => s.operator l

/-- The state after one more token. -/
def step (ctx : Context) (s : Scan) (token : Token) : Except ParseError Scan :=
  match s.called with
  | some name => s.functionArguments ctx name token
  | none =>
    match token with
    | .lexeme l => s.lexeme ctx l
    | markup => do
      s.needOperand markup
      let value ← ctx.value markup
      .ok (s.pushValue value markup)

/-- The output queue at the end of the list. No operand and no argument
list may be awaited, and no parenthesis may be open. -/
def finish (s : Scan) : Except ParseError (List Item) :=
  match s.called with
  | some name => .error (.missingArgumentList name.text)
  | none =>
    if s.awaiting then
      .error (.malformedExpression
        (match s.previous with
          | none => .emptyExpression
          | some last => .missingOperandAfter last.text))
    else s.yard.drain

/-- The formula of a list of tokens. -/
def run (ctx : Context) (tokens : List Token) : Except ParseError Measured := do
  let s ← tokens.foldlM (step ctx) start
  let queue ← s.finish
  reduce ctx.environment ctx.limits.maxHeight queue

end Scan

end Formula
