/-
Formula.Parse.Queue — output queues and their reduction to a tree.

The scan of a list of tokens puts out values, operators and calls in
postfix order. `reduce` runs over such a queue with a stack of values: an
operator takes its operands from the top of the stack and a call its
arguments, and each puts its result back. Heights are counted along, so a
tree that is too high is never built.

`reduce` is defined for every queue, also for those that no scan puts out.
-/
import Formula.Parse.Measured
import Formula.Expr.Infix

namespace Formula

/-- An item of an output queue. -/
inductive Item where
  | value (value : Measured)
  | operator (op : Operator) (lexeme : Lexeme)
  /-- A call, with the number of its arguments. -/
  | call (name : Lexeme) (count : Nat)

namespace Item

/-- The formula of an operator between two operands. A sign has one operand,
the right one. -/
def join (op : Operator) (left right : Expr) : Expr :=
  match op with
  | .equals => .equation left right
  | .arithmetic op => .arithmetic op left right
  | .sign s => .signed s right
  | .power => .power left right

/-- One step of the reduction: the stack of values, its top first, after an
item. -/
def apply (env : Environment) (maxHeight : Nat) (values : List Measured) :
    Item → Except ParseError (List Measured)
  | .value v => .ok (v :: values)
  | .operator (.sign s) lexeme =>
    match values with
    | operand :: below => do
      let height ← grow maxHeight [operand.height]
      .ok (⟨.signed s operand.expr, height⟩ :: below)
    | [] => .error (.malformedExpression (.missingOperand lexeme.text))
  | .operator op lexeme =>
    match values with
    | right :: left :: below => do
      let height ← grow maxHeight [left.height, right.height]
      .ok (⟨join op left.expr right.expr, height⟩ :: below)
    | _ => .error (.malformedExpression (.missingOperand lexeme.text))
  | .call name count =>
    if values.length < count then .error (.malformedExpression (.missingArguments name.text))
    else do
      let arguments := (values.take count).reverse
      let height ← grow maxHeight (arguments.map Measured.height)
      let call ← env.call name.text (arguments.map Measured.expr)
      .ok (⟨call, height⟩ :: values.drop count)

end Item

/-- The one value that a stack of values has to hold in the end. -/
def onlyValue : List Measured → Except ParseError Measured
  | [] => .error (.malformedExpression .emptyExpression)
  | [v] => .ok v
  | v :: extra :: _ =>
    .error (.malformedExpression (.missingOperatorBetween extra.expr.toInfix v.expr.toInfix))

/-- The formula of a queue in postfix order. -/
def reduce (env : Environment) (maxHeight : Nat) (queue : List Item) : Except ParseError Measured :=
  queue.foldlM (Item.apply env maxHeight) [] >>= onlyValue

end Formula
