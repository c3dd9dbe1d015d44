/-
Formula.Expr.Evaluation — the value of a formula.

Operands are evaluated from left to right, and the first error found is the
result. A divisor is checked only after both operands have values, so an
unbound name in either of them is found before a division by zero.
-/
import Formula.Expr.Basic
import Formula.Environment.Standard

namespace Formula

/-- Why a formula has no value. -/
inductive EvalError where
  | divisionByZero
  /-- A free name has no value. -/
  | unbound (name : String)
deriving DecidableEq, Repr

/-- The error as a sentence. -/
def EvalError.message : EvalError → String
  | .divisionByZero => "division by zero"
  | .unbound name => "unbound variable: " ++ name

/-- The values of free names. -/
abbrev Bindings := String → Option Float

/-- No free name has a value. -/
def Bindings.none : Bindings := fun _ => Option.none

/-- The result of an operation of arithmetic. Zero and minus zero divide
nothing. -/
def Arithmetic.apply (op : Arithmetic) (x y : Float) : Except EvalError Float :=
  match op with
  | .add => .ok (x + y)
  | .subtract => .ok (x - y)
  | .multiply => .ok (x * y)
  | .divide => if y == 0 then .error .divisionByZero else .ok (x / y)

/-- A number with a sign in front. -/
def Sign.apply : Sign → Float → Float
  | .plus, x => x
  | .minus, x => -x

namespace Expr

/-- The absolute value, as bars around a formula ask for it. It is a call of
`abs` that does not depend on an environment. -/
def absolute (argument : Expr) : Expr := .call "abs" Body.absolute [argument]

mutual

/-- The value of a formula. An equation has the difference of its sides as
its value, which is zero where it holds. -/
def evaluate (bindings : Bindings) : Expr → Except EvalError Float
  | .literal value => .ok value
  | .free name =>
    match bindings name with
    | some value => .ok value
    | none => .error (.unbound name)
  | .constant _ value => .ok value
  | .arithmetic op left right => do
    let x ← evaluate bindings left
    let y ← evaluate bindings right
    op.apply x y
  | .signed sign operand => do
    let x ← evaluate bindings operand
    .ok (sign.apply x)
  | .power base exponent => do
    let x ← evaluate bindings base
    let y ← evaluate bindings exponent
    .ok (x.pow y)
  | .root base degree => do
    let x ← evaluate bindings base
    let y ← evaluate bindings degree
    .ok (Number.realRoot x y)
  | .call _ body arguments => do
    let xs ← evaluateAll bindings arguments
    .ok (body xs)
  | .equation left right => do
    let x ← evaluate bindings left
    let y ← evaluate bindings right
    .ok (x - y)

/-- The values of the formulas of a list, in order. -/
def evaluateAll (bindings : Bindings) : List Expr → Except EvalError (List Float)
  | [] => .ok []
  | a :: rest => do
    let x ← evaluate bindings a
    let xs ← evaluateAll bindings rest
    .ok (x :: xs)

end

/-- Formulas with the same values, under bindings of their own. -/
theorem evaluateAll_map {as : List Expr} {f : Expr → Expr} {bindings bindings' : Bindings}
    (h : ∀ a ∈ as, (f a).evaluate bindings = a.evaluate bindings') :
    evaluateAll bindings (as.map f) = evaluateAll bindings' as := by
  induction as with
  | nil => rfl
  | cons a rest ih =>
    rw [List.map_cons, evaluateAll, evaluateAll, h a List.mem_cons_self,
      ih fun b hb => h b (List.mem_cons_of_mem _ hb)]

/-- An evaluation gives each argument a value. -/
theorem length_of_evaluateAll {bindings : Bindings} {as : List Expr} {xs : List Float}
    (h : evaluateAll bindings as = .ok xs) : xs.length = as.length := by
  induction as generalizing xs with
  | nil =>
    cases h
    rfl
  | cons a rest ih =>
    rw [evaluateAll] at h
    cases ha : a.evaluate bindings with
    | error e =>
      rw [ha] at h
      cases h
    | ok x =>
      cases hrest : evaluateAll bindings rest with
      | error e =>
        rw [ha, hrest] at h
        cases h
      | ok ys =>
        rw [ha, hrest] at h
        cases h
        simp [ih hrest]

end Expr

end Formula
