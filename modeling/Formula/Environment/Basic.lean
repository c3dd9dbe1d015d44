/-
Formula.Environment.Basic — what the names of a formula mean.

A formula is read in an environment, which says of each name whether it is
a function, how many arguments it takes, what it computes, whether the name
is a constant, and what its value is. The five answers are independent of
each other: an environment may call a name a function and yet give no body
for it, and readers of an environment have to cope with that.
`Formula.Environment.Declarations` builds environments whose answers agree.
-/
import Formula.Lexeme

namespace Formula

/-- What a function computes from its arguments. Calls give it as many as
the environment declares. -/
abbrev Body := List Float → Float

/-- What the names of a formula mean. -/
structure Environment where
  /-- Whether a name is declared as a function. -/
  isFunction : String → Bool
  /-- How many arguments a function takes. -/
  arity? : String → Option Nat
  /-- What a function computes. -/
  body? : String → Option Body
  /-- Whether a name is declared as a constant. -/
  isConstant : String → Bool
  /-- The value of a constant. -/
  constant? : String → Option Float

namespace Environment

/-- The kind of a name in a text: a function before a constant, and a free
name if it is declared as neither. -/
def classify (env : Environment) (name : String) : LexemeKind :=
  if env.isFunction name then .functionName
  else if env.isConstant name then .constantName
  else .variableName

variable {env : Environment} {name : String}

theorem classify_eq_functionName_iff :
    env.classify name = .functionName ↔ env.isFunction name = true := by
  unfold classify
  split
  · simp [*]
  · split <;> simp [*]

theorem classify_eq_constantName_iff :
    env.classify name = .constantName ↔
      env.isFunction name = false ∧ env.isConstant name = true := by
  unfold classify
  split
  · simp [*]
  · split <;> simp [*]

theorem classify_ne_number : env.classify name ≠ .number := by
  unfold classify
  split
  · simp
  · split <;> simp

end Environment

end Formula
