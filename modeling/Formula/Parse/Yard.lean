/-
Formula.Parse.Yard — the operator stack and the output queue.

Operators wait on a stack until what follows shows that their operands are
complete: an operator that binds no tighter, a separator, a closing
parenthesis or the end of the list. They are then moved to the output
queue, which is in postfix order at any time. Parentheses and pending calls
wait on the same stack and are never moved past.
-/
import Formula.Parse.Queue

namespace Formula

/-- An entry of the operator stack. -/
inductive Pending where
  | operator (op : Operator) (lexeme : Lexeme)
  | paren (lexeme : Lexeme)
  /-- A call whose arguments are still being read, with the number of
  arguments begun so far. The parenthesis of its list is above it. -/
  | call (name : Lexeme) (count : Nat)
deriving DecidableEq, Repr

/-- The operators on top of a stack that have a property, as output in the
order in which they leave the stack, and what is beneath them. -/
def popOperators (p : Operator → Bool) : List Pending → List Item × List Pending
  | .operator op lexeme :: rest =>
    if p op then
      let popped := popOperators p rest
      (.operator op lexeme :: popped.1, popped.2)
    else ([], .operator op lexeme :: rest)
  | stack => ([], stack)

/-- Once all operators are popped, what is beneath them is a parenthesis, a
call, or nothing. -/
theorem popOperators_all_ne_operator (stack rest : List Pending) (op : Operator)
    (lexeme : Lexeme) :
    (popOperators (fun _ => true) stack).2 ≠ .operator op lexeme :: rest := by
  induction stack with
  | nil => simp [popOperators]
  | cons entry below ih =>
    cases entry with
    | operator top l => simpa [popOperators] using ih
    | paren l => simp [popOperators]
    | call name count => simp [popOperators]

/-- Popping only takes operators away: the stack is what was popped, on top
of what is left. -/
theorem exists_operators_append (p : Operator → Bool) (stack : List Pending) :
    ∃ ops : List (Operator × Lexeme),
      (popOperators p stack).1 = ops.map (fun o => .operator o.1 o.2) ∧
        stack = ops.map (fun o => .operator o.1 o.2) ++ (popOperators p stack).2 ∧
          ∀ o ∈ ops, p o.1 = true := by
  induction stack with
  | nil => exact ⟨[], by simp [popOperators]⟩
  | cons entry below ih =>
    cases entry with
    | operator top l =>
      rw [popOperators]
      split
      · rename_i hp
        obtain ⟨ops, hout, hstack, hall⟩ := ih
        refine ⟨(top, l) :: ops, by simp [hout], by simpa using hstack, ?_⟩
        intro o ho
        rcases List.mem_cons.mp ho with rfl | ho
        · exact hp
        · exact hall o ho
      · exact ⟨[], by simp⟩
    | paren l => exact ⟨[], by simp [popOperators]⟩
    | call name count => exact ⟨[], by simp [popOperators]⟩

/-- An operator stack, its top first, and an output queue. -/
structure Yard where
  stack : List Pending
  queue : Array Item

namespace Yard

/-- Nothing waits and nothing was put out. -/
def empty : Yard := ⟨[], #[]⟩

/-- Puts out a value. -/
def pushValue (y : Yard) (v : Measured) : Yard := { y with queue := y.queue.push (.value v) }

/-- Pushes an operator, after the operators on top of the stack that yield
to it have been moved to the queue. -/
def pushOperator (y : Yard) (op : Operator) (lexeme : Lexeme) : Yard :=
  let popped := popOperators (·.yieldsTo op) y.stack
  ⟨.operator op lexeme :: popped.2, y.queue ++ popped.1⟩

/-- Opens a pair of parentheses that groups. -/
def pushParen (y : Yard) (paren : Lexeme) : Yard := { y with stack := .paren paren :: y.stack }

/-- Opens the argument list of a call. Its first argument is begun. -/
def pushCall (y : Yard) (name paren : Lexeme) : Yard :=
  { y with stack := .paren paren :: .call name 1 :: y.stack }

/-- Closes the innermost pair of parentheses and tells whether it was the
argument list of a call. Only a call may be `empty`, that is, have nothing
between its parentheses. -/
def closeParen (y : Yard) (paren : Lexeme) (empty : Bool) : Except ParseError (Yard × Bool) :=
  let popped := popOperators (fun _ => true) y.stack
  match popped.2 with
  | .paren _ :: .call name count :: below =>
    let call := .call name (if empty then 0 else count)
    .ok (⟨below, (y.queue ++ popped.1).push call⟩, true)
  | .paren _ :: below =>
    if empty then .error (.malformedExpression (.emptyParenthesesBefore paren.text))
    else .ok (⟨below, y.queue ++ popped.1⟩, false)
  | .call name _ :: _ => .error (.internal (.callWithoutParenthesis name.text))
  | _ => .error (.mismatchedParentheses paren.text)

/-- Ends an argument and begins the next one. The innermost pair of
parentheses has to be the argument list of a call. -/
def separate (y : Yard) (separator : Lexeme) : Except ParseError Yard :=
  let popped := popOperators (fun _ => true) y.stack
  match popped.2 with
  | .paren paren :: .call name count :: below =>
    .ok ⟨.paren paren :: .call name (count + 1) :: below, y.queue ++ popped.1⟩
  | _ => .error (.unexpectedSeparator separator.text)

/-- Moves what waits to the queue and gives the queue. No parenthesis may be
open. -/
def drain (y : Yard) : Except ParseError (List Item) :=
  let popped := popOperators (fun _ => true) y.stack
  match popped.2 with
  | .paren paren :: _ => .error (.mismatchedParentheses paren.text)
  | .call name _ :: _ => .error (.mismatchedParentheses (name.text ++ "("))
  | _ => .ok (y.queue ++ popped.1).toList

end Yard

end Formula
