/-
Formula.Expr.Infix — formulas as lines of text.

Operators stand between their operands, and parentheses stand only where
the levels of the operators do not show the grouping. A left operand may
bind as tightly as its operator, a right operand has to bind more tightly;
with powers it is the other way round, since they are grouped from the
right.
-/
import Formula.Expr.Basic
import Formula.Number.Spelling

namespace Formula

namespace Expr

/-- The level of what needs no parentheses anywhere. -/
def atomLevel : Nat := 5

/-- How tightly the text of a formula holds together. A literal with its
sign bit set starts with a minus and binds like a sign. -/
def level : Expr → Nat
  | .literal value =>
    if Number.Binary64.isNegative value then (Operator.sign .minus).level else atomLevel
  | .free _ | .constant _ _ | .root _ _ | .call _ _ _ => atomLevel
  | .arithmetic op _ _ => (Operator.arithmetic op).level
  | .signed sign _ => (Operator.sign sign).level
  | .power _ _ => Operator.power.level
  | .equation _ _ => Operator.equals.level

/-- A text in parentheses, if they are needed. -/
def enclose (needed : Bool) (text : String) : String :=
  if needed then "(" ++ text ++ ")" else text

mutual

/-- A formula as a line of text. -/
def toInfix : Expr → String
  | .literal value => Number.text value
  | .free name => name
  | .constant name _ => name
  | .arithmetic op left right =>
    let here := (Operator.arithmetic op).level
    enclose (left.level < here) (toInfix left) ++ " " ++ op.symbol ++ " "
      ++ enclose (right.level ≤ here) (toInfix right)
  | .equation left right =>
    let here := Operator.equals.level
    enclose (left.level < here) (toInfix left) ++ " = "
      ++ enclose (right.level ≤ here) (toInfix right)
  | .signed sign operand =>
    sign.symbol ++ enclose (operand.level < (Operator.sign sign).level) (toInfix operand)
  | .power base exponent =>
    let here := Operator.power.level
    enclose (base.level ≤ here) (toInfix base) ++ "^"
      ++ enclose (exponent.level < here) (toInfix exponent)
  | .root base degree => "root(" ++ toInfix base ++ ", " ++ toInfix degree ++ ")"
  | .call name _ arguments =>
    name ++ "(" ++ String.intercalate ", " (toInfixes arguments) ++ ")"

/-- The formulas of a list as lines of text. -/
def toInfixes : List Expr → List String
  | [] => []
  | a :: rest => toInfix a :: toInfixes rest

end

theorem toInfixes_eq_map (as : List Expr) : toInfixes as = as.map toInfix := by
  induction as with
  | nil => rfl
  | cons a rest ih => simp [toInfixes, ih]

end Expr

end Formula
