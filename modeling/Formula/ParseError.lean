/-
Formula.ParseError — why a list of tokens is not a formula.

An error is a cause, together with the spelling of the tokens that are to
blame. The first cause met in reading order is the one reported.
`ParseError.message` is the only place where causes become sentences.
-/
namespace Formula

/-- How operators and operands can fail to fit together. -/
inductive Malformation where
  /-- There are no tokens at all, or no value remains. -/
  | emptyExpression
  /-- A token starts an operand directly after another operand. -/
  | missingOperatorBefore (token : String)
  /-- The tokens end where an operand has to follow. -/
  | missingOperandAfter (token : String)
  /-- A parenthesis closes where an operand has to follow. -/
  | missingOperandBefore (paren : String)
  /-- An operator other than a sign stands where an operand has to. -/
  | missingLeftOperand (operator : String)
  /-- A separator stands where an argument has to. -/
  | emptyArgumentBefore (separator : String)
  /-- A pair of parentheses without content is not the list of a call. -/
  | emptyParenthesesBefore (paren : String)
  /-- A bracketed group has no element. -/
  | emptyGroup (group : String)
  /-- The reduction of the output queue lacks an operand. -/
  | missingOperand (operator : String)
  /-- The reduction of the output queue lacks arguments of a call. -/
  | missingArguments (name : String)
  /-- The reduction of the output queue leaves two values. -/
  | missingOperatorBetween (left right : String)
deriving DecidableEq, Repr

/-- States that the scan of a list cannot reach. -/
inductive Fault where
  /-- A lexeme that is no operator was to be pushed as one. -/
  | notAnOperator (text : String)
  /-- A lexeme that is neither number nor name was to be a value. -/
  | notAValue (text : String)
  /-- A pending call lost the parenthesis above it. -/
  | callWithoutParenthesis (name : String)
deriving DecidableEq, Repr

/-- Why a list of tokens is not a formula. -/
inductive ParseError where
  /-- The text of a number is no numeral. -/
  | malformedLiteral (text : String)
  /-- The environment gives no value for the name of a constant. -/
  | undeclaredConstant (name : String)
  /-- A function is not declared, or its name has no shape that can be
  called. -/
  | unrecognizedFunction (name : String)
  /-- A call has another number of arguments than its function takes. -/
  | arityMismatch (name : String) (expected found : Nat)
  /-- The group after the name of a function has other delimiters than
  parentheses and commas. -/
  | invalidArgumentList (group : String)
  /-- A parenthesis has no counterpart. -/
  | mismatchedParentheses (paren : String)
  /-- A group has delimiters without a meaning. -/
  | unsupportedDelimiters (group : String)
  /-- A separator stands outside a call, or a group outside a call has
  several elements. -/
  | unexpectedSeparator (text : String)
  /-- The name of a function is not followed by arguments. -/
  | missingArgumentList (text : String)
  /-- Operators and operands do not fit together. -/
  | malformedExpression (cause : Malformation)
  /-- The input nests deeper, or its tree is higher, than allowed. -/
  | nestingTooDeep (limit : Nat)
  | internal (fault : Fault)
deriving DecidableEq, Repr

namespace Malformation

/-- The cause as a phrase. -/
def message : Malformation → String
  | .emptyExpression => "empty expression"
  | .missingOperatorBefore token => "missing operator before " ++ token
  | .missingOperandAfter token => "missing operand after " ++ token
  | .missingOperandBefore paren => "missing operand before " ++ paren
  | .missingLeftOperand operator => "operator " ++ operator ++ " is missing its left operand"
  | .emptyArgumentBefore separator => "empty argument before " ++ separator
  | .emptyParenthesesBefore paren => "empty parentheses before " ++ paren
  | .emptyGroup group => "empty group " ++ group
  | .missingOperand operator => "operator " ++ operator ++ " is missing an operand"
  | .missingArguments name => "call to " ++ name ++ " is missing arguments"
  | .missingOperatorBetween left right =>
    "missing operator between " ++ left ++ " and " ++ right

end Malformation

/-- The fault as a phrase. -/
def Fault.message : Fault → String
  | .notAnOperator text => "cannot push non-operator " ++ text ++ " onto the operator stack"
  | .notAValue text => "cannot process " ++ text ++ " as a value"
  | .callWithoutParenthesis name => "deferred call to " ++ name ++ " without its parenthesis"

namespace ParseError

/-- The error as a sentence. -/
def message : ParseError → String
  | .malformedLiteral text => "couldn't parse literal value: " ++ text
  | .undeclaredConstant name => "undeclared constant: " ++ name
  | .unrecognizedFunction name => "can't process function name: " ++ name
  | .arityMismatch name expected found =>
    "function " ++ name ++ " takes " ++ toString expected ++ " argument(s) but "
      ++ toString found ++ " were given"
  | .invalidArgumentList group =>
    group ++ " cannot be used as an argument list for a function call"
  | .mismatchedParentheses paren => "mismatched parentheses at " ++ paren
  | .unsupportedDelimiters group => "unsupported delimiter group: " ++ group
  | .unexpectedSeparator text => "unexpected function argument separator: " ++ text
  | .missingArgumentList text => "missing argument list for function call: " ++ text
  | .malformedExpression cause => "malformed expression: " ++ cause.message
  | .nestingTooDeep limit =>
    "expression nested deeper than " ++ toString limit ++ " levels"
  | .internal fault => "internal parser error: " ++ fault.message

end ParseError

end Formula
