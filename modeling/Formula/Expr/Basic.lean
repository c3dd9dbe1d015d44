/-
Formula.Expr.Basic — formulas as trees.

A tree keeps what the names meant when it was built: a constant carries its
value and a call the body of its function, so evaluating a tree needs no
environment, and a change of declarations does not reach trees that exist.
-/
import Formula.Operator
import Formula.Environment.Basic
import Formula.ParseError

namespace Formula

/-- A formula. -/
inductive Expr where
  | literal (value : Float)
  /-- A free name. -/
  | free (name : String)
  | constant (name : String) (value : Float)
  | arithmetic (op : Arithmetic) (left right : Expr)
  | signed (sign : Sign) (operand : Expr)
  | power (base exponent : Expr)
  | root (base degree : Expr)
  | call (name : String) (body : Body) (arguments : List Expr)
  | equation (left right : Expr)

namespace Expr

/-! ## 1. Equality

Numbers are compared as numbers: zero equals minus zero, and a NaN differs
from itself. Calls are compared by name and arguments, since functions
cannot be compared. -/

mutual

/-- Whether two formulas are equal. -/
def equal : Expr → Expr → Bool
  | .literal x, .literal y => x == y
  | .free x, .free y => x == y
  | .constant x u, .constant y v => x == y && u == v
  | .arithmetic o a b, .arithmetic p c d => o == p && equal a c && equal b d
  | .signed s a, .signed t b => s == t && equal a b
  | .power a b, .power c d => equal a c && equal b d
  | .root a b, .root c d => equal a c && equal b d
  | .call f _ as, .call g _ bs => f == g && equalLists as bs
  | .equation a b, .equation c d => equal a c && equal b d
  | _, _ => false

/-- Whether two lists of formulas are equal, position by position. -/
def equalLists : List Expr → List Expr → Bool
  | [], [] => true
  | a :: as, b :: bs => equal a b && equalLists as bs
  | _, _ => false

end

instance : BEq Expr := ⟨equal⟩

/-! ## 2. Height -/

mutual

/-- The number of levels of a tree. A leaf has one. -/
def height : Expr → Nat
  | .literal _ | .free _ | .constant _ _ => 1
  | .arithmetic _ a b | .power a b | .root a b | .equation a b => max a.height b.height + 1
  | .signed _ a => a.height + 1
  | .call _ _ arguments => heightOfList arguments + 1

/-- The greatest height in a list of trees, zero if there is none. -/
def heightOfList : List Expr → Nat
  | [] => 0
  | a :: rest => max a.height (heightOfList rest)

end

theorem foldl_max_heights (as : List Expr) (start : Nat) :
    (as.map height).foldl max start = max start (heightOfList as) := by
  induction as generalizing start with
  | nil => simp [heightOfList]
  | cons a rest ih => simp [heightOfList, ih, Nat.max_assoc]

/-- The greatest height in a list is the maximum of the heights. -/
theorem heightOfList_eq_foldl (as : List Expr) :
    heightOfList as = (as.map height).foldl max 0 := by
  rw [foldl_max_heights, Nat.zero_max]

/-! ## 3. Construction -/

/-- The square root. -/
def squareRoot (base : Expr) : Expr := .root base (.literal 2)

end Expr

/-- The call of a function in an environment, with as many arguments as the
function takes. The environment has to give both its arity and its body. -/
def Environment.call (env : Environment) (name : String) (arguments : List Expr) :
    Except ParseError Expr :=
  match env.arity? name, env.body? name with
  | some arity, some body =>
    if arguments.length = arity then .ok (.call name body arguments)
    else .error (.arityMismatch name arity arguments.length)
  | _, _ => .error (.unrecognizedFunction name)

end Formula
