/-
Formula.Operator — operators and how tightly they bind.

The text of a formula shows plus and minus twice, as operators between
operands and as signs. Here the two are told apart: a sign has one operand
and binds more tightly than a product, but less tightly than a power, so
`-x^2` is the negative of a square.
-/
import Formula.Lexeme

namespace Formula

/-- The four operations of arithmetic. -/
inductive Arithmetic where
  | add
  | subtract
  | multiply
  | divide
deriving DecidableEq, Repr

/-- The two signs. -/
inductive Sign where
  | plus
  | minus
deriving DecidableEq, Repr

/-- The operators of a formula. -/
inductive Operator where
  | equals
  | arithmetic (op : Arithmetic)
  /-- A sign in front of an operand. -/
  | sign (s : Sign)
  | power
deriving DecidableEq, Repr

namespace Arithmetic

/-- The spelling between operands, and in postfix order. -/
def symbol : Arithmetic → String
  | .add => "+"
  | .subtract => "-"
  | .multiply => "*"
  | .divide => "/"

end Arithmetic

namespace Sign

/-- The spelling in front of an operand. -/
def symbol : Sign → String
  | .plus => "+"
  | .minus => "-"

/-- The spelling in postfix order, where a sign has to differ from an
operator between operands. -/
def word : Sign → String
  | .plus => "pos"
  | .minus => "neg"

end Sign

/-- The side from which equal operators are grouped. A sign has no left
operand and takes no side. -/
inductive Associativity where
  | left
  | right
  | sign
deriving DecidableEq, Repr

namespace Operator

/-- The operator that a kind of lexeme stands for, as a sign or between
operands. -/
def ofKind? (kind : LexemeKind) (asSign : Bool) : Option Operator :=
  match kind with
  | .plus => some (if asSign then .sign .plus else .arithmetic .add)
  | .minus => some (if asSign then .sign .minus else .arithmetic .subtract)
  | .times => some (.arithmetic .multiply)
  | .divide => some (.arithmetic .divide)
  | .power => some .power
  | .equals => some .equals
  | _ => none

/-- How tightly an operator binds. -/
def level : Operator → Nat
  | .equals => 0
  | .arithmetic .add | .arithmetic .subtract => 1
  | .arithmetic .multiply | .arithmetic .divide => 2
  | .sign _ => 3
  | .power => 4

/-- The side from which an operator is grouped with equal ones. -/
def associativity : Operator → Associativity
  | .sign _ => .sign
  | .power => .right
  | _ => .left

/-- Whether a pending operator has all its operands once `incoming` is
read: nothing is complete before a sign, since a sign starts an operand. -/
def yieldsTo (pending incoming : Operator) : Bool :=
  match incoming.associativity with
  | .left => incoming.level ≤ pending.level
  | .right => incoming.level < pending.level
  | .sign => false

/-- The spelling in postfix order. -/
def word : Operator → String
  | .equals => "="
  | .arithmetic op => op.symbol
  | .sign s => s.word
  | .power => "^"

end Operator

end Formula
