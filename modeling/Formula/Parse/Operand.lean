/-
Formula.Parse.Operand — what single tokens contribute to a formula.

A number or a name is a leaf. A piece of markup is a value of its own: its
parts are lists of tokens, each is parsed for itself, and what surrounds
the piece sees the result as one operand. How a part is parsed is a
parameter here (`Context.nested`), so nothing in this module recurses;
`Formula.Parse` closes the circle.
-/
import Formula.Token
import Formula.Parse.Queue
import Formula.Expr.Evaluation
import Formula.Number.Binary64
import Formula.Text.Classes

namespace Formula

/-- What the parse of one list of tokens is given. -/
structure Context where
  environment : Environment
  limits : Limits
  /-- How many more levels may be opened in this list. -/
  room : Nat
  /-- The parse of a list that is a part of a token of this one. -/
  nested : List Token → Except ParseError Measured

namespace Context

/-- The height of a node over children of the given heights. -/
def grow (ctx : Context) (children : List Nat) : Except ParseError Nat :=
  Formula.grow ctx.limits.maxHeight children

/-! ## 1. Leaves -/

/-- The leaf for a number or a name. White space around a number is not
part of it. -/
def leaf (ctx : Context) (l : Lexeme) : Except ParseError Expr :=
  match l.kind with
  | .number =>
    match Number.splitNumeral (Text.trim l.text.toList) with
    | some (numeral, []) => .ok (.literal (Number.Binary64.ofNumeral numeral))
    | _ => .error (.malformedLiteral l.text)
  | .variableName => .ok (.free l.text)
  | .constantName =>
    match ctx.environment.constant? l.text with
    | some value => .ok (.constant l.text value)
    | none => .error (.undeclaredConstant l.text)
  | _ => .error (.internal (.notAValue l.text))

/-! ## 2. Calls -/

/-- The arguments of a call, each parsed for itself. -/
def arguments (ctx : Context) : List (List Token) → Except ParseError (List Measured)
  | [] => .ok []
  | element :: rest => do
    let argument ← ctx.nested element
    let others ← arguments ctx rest
    .ok (argument :: others)

/-- The call of a named function with a group of arguments. Markup writes a
call without arguments as a group with one empty element, so that is one
too. -/
def call (ctx : Context) (name : Lexeme) (delimiters : Delimiters)
    (elements : List (List Token)) : Except ParseError Measured :=
  if !ctx.environment.isFunction name.text then .error (.unrecognizedFunction name.text)
  else if !delimiters.isArgumentList then
    .error (.invalidArgumentList (Token.group delimiters elements).text)
  else do
    let arguments ← ctx.arguments (if elements matches [[]] then [] else elements)
    let height ← ctx.grow (arguments.map Measured.height)
    let call ← ctx.environment.call name.text (arguments.map Measured.expr)
    .ok ⟨call, height⟩

/-- The function that a list of tokens names, with the exponent it carries,
if it carries one. -/
def calledFunction? (env : Environment) : List Token → Option (Lexeme × Option (List Token))
  | [.lexeme name] => if env.isFunction name.text then some (name, none) else none
  | [.superscript [.lexeme name] exponent] =>
    if env.isFunction name.text then some (name, some exponent) else none
  | _ => none

/-- A function applied to a group. An exponent on the name, as in
`sin²(x)`, applies to the result. -/
def application (ctx : Context) (name : List Token) (delimiters : Delimiters)
    (elements : List (List Token)) : Except ParseError Measured :=
  match calledFunction? ctx.environment name with
  | some (f, none) => ctx.call f delimiters elements
  | some (f, some exponent) => do
    let call ← ctx.call f delimiters elements
    let exponent ← ctx.nested exponent
    let height ← ctx.grow [call.height, exponent.height]
    .ok ⟨.power call.expr exponent.expr, height⟩
  | none => .error (.unrecognizedFunction (Token.application name delimiters elements).text)

/-! ## 3. Groups -/

/-- What a group outside a call does to its element. -/
inductive Grouping where
  /-- The group only holds its element together. -/
  | plain
  /-- The group takes the absolute value. -/
  | bars
deriving DecidableEq

/-- What delimiters outside a call mean. Parentheses and brackets group, and
bars take the absolute value; the separator does not matter. -/
def grouping? (delimiters : Delimiters) : Option Grouping :=
  match delimiters.opening, delimiters.closing with
  | '(', ')' => some .plain
  | '[', ']' => some .plain
  | '|', '|' => some .bars
  | _, _ => none

/-- A group outside a call. It needs delimiters with a meaning and exactly
one element. -/
def group (ctx : Context) (delimiters : Delimiters) (elements : List (List Token)) :
    Except ParseError Measured :=
  match grouping? delimiters with
  | none => .error (.unsupportedDelimiters (Token.group delimiters elements).text)
  | some grouping =>
    match elements with
    | [element] => do
      let inner ← ctx.nested element
      match grouping with
      | .plain => .ok inner
      | .bars => do
        let height ← ctx.grow [inner.height]
        .ok ⟨inner.expr.absolute, height⟩
    | [] =>
      .error (.malformedExpression (.emptyGroup (Token.group delimiters elements).text))
    | _ => .error (.unexpectedSeparator (Token.group delimiters elements).text)

/-! ## 4. Tokens -/

/-- The value of a token: a leaf, or the result of a piece of markup with
its height. -/
def value (ctx : Context) : Token → Except ParseError Measured
  | .lexeme l => do
    let leaf ← ctx.leaf l
    .ok ⟨leaf, 1⟩
  | .fraction numerator denominator => do
    let numerator ← ctx.nested numerator
    let denominator ← ctx.nested denominator
    let height ← ctx.grow [numerator.height, denominator.height]
    .ok ⟨.arithmetic .divide numerator.expr denominator.expr, height⟩
  | .superscript base exponent => do
    let base ← ctx.nested base
    let exponent ← ctx.nested exponent
    let height ← ctx.grow [base.height, exponent.height]
    .ok ⟨.power base.expr exponent.expr, height⟩
  | .radical base [] => do
    let base ← ctx.nested base
    let height ← ctx.grow [base.height, 1]
    .ok ⟨base.expr.squareRoot, height⟩
  | .radical base degree => do
    let base ← ctx.nested base
    let degree ← ctx.nested degree
    let height ← ctx.grow [base.height, degree.height]
    .ok ⟨.root base.expr degree.expr, height⟩
  | .application name delimiters elements => ctx.application name delimiters elements
  | .group delimiters elements => ctx.group delimiters elements

end Context

end Formula
