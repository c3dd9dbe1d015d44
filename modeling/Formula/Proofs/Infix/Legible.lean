/-
Formula.Proofs.Infix.Legible — which formulas a line of text can hold.

A formula can be built with any names and any numbers in it, and not each of
them is a text that reads back: a free name may be spelled like a number or
be declared as a function, a constant may carry a value of its own, and a
number that is not finite is spelled like a name. `Legible` says what is
asked of the nodes of a formula so that its line of text can be read in an
environment.

Reading gives `spelled`, which is the formula itself up to two kinds of
nodes for which a text has no spelling of their own: a root is written as a
call, and a literal with a minus as a sign before its magnitude.

The text has parentheses where levels do not show the grouping. `nesting`
counts how deeply, and `nesting_le` bounds the count by the height of what
is read: two operators that stand between two pairs of parentheses take two
levels of the tree.
-/
import Formula.Expr.Infix
import Formula.Proofs.Nodes

namespace Formula

namespace Expr

/-! ## 1. What a text spells -/

mutual

/-- A formula as its line of text spells it. Roots become calls of a
function that computes `root`. -/
def spelled (root : Body) : Expr → Expr
  | .literal value =>
    if Number.Binary64.isNegative value then .signed .minus (.literal value.abs)
    else .literal value
  | .free name => .free name
  | .constant name value => .constant name value
  | .arithmetic op a b => .arithmetic op (spelled root a) (spelled root b)
  | .signed s a => .signed s (spelled root a)
  | .power a b => .power (spelled root a) (spelled root b)
  | .root a b => .call "root" root [spelled root a, spelled root b]
  | .call name body arguments => .call name body (spelledList root arguments)
  | .equation a b => .equation (spelled root a) (spelled root b)

/-- The formulas of a list as their lines of text spell them. -/
def spelledList (root : Body) : List Expr → List Expr
  | [] => []
  | a :: rest => spelled root a :: spelledList root rest

end

theorem spelledList_eq_map (root : Body) (as : List Expr) :
    spelledList root as = as.map (spelled root) := by
  induction as with
  | nil => rfl
  | cons a rest ih => simp [spelledList, ih]

@[simp] theorem length_spelledList (root : Body) (as : List Expr) :
    (spelledList root as).length = as.length := by
  rw [spelledList_eq_map, List.length_map]

/-! ## 2. Levels -/

/-- The category to which the text of a formula belongs. -/
def category : Expr → Category
  | .literal value => if Number.Binary64.isNegative value then .signed else .atom
  | .free _ | .constant _ _ | .root _ _ | .call _ _ _ => .atom
  | .arithmetic op _ _ => (Operator.arithmetic op).category
  | .signed _ _ => .signed
  | .power _ _ => .power
  | .equation _ _ => .equation

theorem level_category (n : Expr) : n.category.level = n.level := by
  cases n with
  | literal value =>
    cases h : Number.Binary64.isNegative value <;> simp [category, level, h] <;> rfl
  | arithmetic op _ _ => exact Operator.level_category _
  | _ => rfl

/-- No operator binds as tightly as an atom. -/
theorem level_lt_atomLevel (op : Operator) : op.level < atomLevel := by
  rcases op with _ | op | s | _
  · decide
  · cases op <;> decide
  · cases s <;> decide
  · decide

/-! ## 3. Parentheses -/

/-- How deeply the parentheses of a text nest with a pair around it, if one
is needed. -/
def parenthesized (needed : Bool) (depth : Nat) : Nat := if needed then depth + 1 else depth

mutual

/-- How deeply the parentheses nest in the line of text of a formula. -/
def nesting : Expr → Nat
  | .literal _ | .free _ | .constant _ _ => 0
  | .arithmetic op left right =>
    let here := (Operator.arithmetic op).level
    max (parenthesized (left.level < here) left.nesting)
      (parenthesized (right.level ≤ here) right.nesting)
  | .equation left right =>
    let here := Operator.equals.level
    max (parenthesized (left.level < here) left.nesting)
      (parenthesized (right.level ≤ here) right.nesting)
  | .signed sign operand =>
    parenthesized (operand.level < (Operator.sign sign).level) operand.nesting
  | .power base exponent =>
    let here := Operator.power.level
    max (parenthesized (base.level ≤ here) base.nesting)
      (parenthesized (exponent.level < here) exponent.nesting)
  | .root base degree => max base.nesting degree.nesting + 1
  | .call _ _ arguments => nestingOfList arguments + 1

/-- How deeply the parentheses nest in the lines of text of the formulas of
a list. -/
def nestingOfList : List Expr → Nat
  | [] => 0
  | a :: rest => max a.nesting (nestingOfList rest)

end

/-- What is put into parentheses is no atom, so its height leaves room for
them. -/
theorem parenthesized_le {n : Expr} {root : Body} {needed : Bool}
    (h : n.nesting + (if n.level < atomLevel then 1 else 0) ≤ (n.spelled root).height)
    (hneeded : needed = true → n.level < atomLevel) :
    parenthesized needed n.nesting ≤ (n.spelled root).height := by
  unfold parenthesized
  split
  · rename_i hn
    rw [if_pos (hneeded hn)] at h
    exact h
  · omega

/-- Both operands of an operator with their parentheses. -/
theorem max_parenthesized_le {a b : Expr} {root : Body} {aNeeded bNeeded : Bool}
    (ha : a.nesting + (if a.level < atomLevel then 1 else 0) ≤ (a.spelled root).height)
    (hb : b.nesting + (if b.level < atomLevel then 1 else 0) ≤ (b.spelled root).height)
    (haNeeded : aNeeded = true → a.level < atomLevel)
    (hbNeeded : bNeeded = true → b.level < atomLevel) :
    max (parenthesized aNeeded a.nesting) (parenthesized bNeeded b.nesting) ≤
      max (a.spelled root).height (b.spelled root).height := by
  have hleft := parenthesized_le ha haNeeded
  have hright := parenthesized_le hb hbNeeded
  omega

/-- An operand needs parentheses only if it is no atom. -/
theorem level_lt_of_needed (op : Operator) {level : Nat} {needed : Prop} [Decidable needed]
    (hneeded : needed → level ≤ op.level) (h : decide needed = true) : level < atomLevel :=
  Nat.lt_of_le_of_lt (hneeded (of_decide_eq_true h)) (level_lt_atomLevel op)

mutual

/-- Parentheses nest no deeper than the tree that is read is high. Outside
an atom there is room for one pair more. -/
theorem nesting_le (root : Body) (n : Expr) :
    n.nesting + (if n.level < atomLevel then 1 else 0) ≤ (n.spelled root).height := by
  cases n with
  | literal value =>
    cases h : Number.Binary64.isNegative value <;>
      simp [nesting, spelled, level, height, atomLevel, Operator.level, h]
  | free name => exact Nat.zero_le _
  | constant name value => exact Nat.zero_le _
  | arithmetic op a b =>
    have hle := max_parenthesized_le (nesting_le root a) (nesting_le root b)
      (level_lt_of_needed (.arithmetic op) Nat.le_of_lt) (level_lt_of_needed (.arithmetic op) id)
    have hlevel : (Expr.arithmetic op a b).level < atomLevel := level_lt_atomLevel (.arithmetic op)
    rw [if_pos hlevel]
    exact Nat.succ_le_succ hle
  | signed s a =>
    have hle := parenthesized_le (nesting_le root a) (level_lt_of_needed (.sign s) Nat.le_of_lt)
    have hlevel : (Expr.signed s a).level < atomLevel := level_lt_atomLevel (.sign s)
    rw [if_pos hlevel]
    exact Nat.succ_le_succ hle
  | power a b =>
    have hle := max_parenthesized_le (nesting_le root a) (nesting_le root b)
      (level_lt_of_needed .power id) (level_lt_of_needed .power Nat.le_of_lt)
    have hlevel : (Expr.power a b).level < atomLevel := level_lt_atomLevel .power
    rw [if_pos hlevel]
    exact Nat.succ_le_succ hle
  | root a b =>
    have ha := nesting_le root a
    have hb := nesting_le root b
    have hlevel : ¬ (Expr.root a b).level < atomLevel := Nat.lt_irrefl _
    rw [if_neg hlevel]
    simp only [nesting, spelled, height, heightOfList]
    omega
  | call name body arguments =>
    have hle := nestingOfList_le root arguments
    have hlevel : ¬ (Expr.call name body arguments).level < atomLevel := Nat.lt_irrefl _
    rw [if_neg hlevel]
    exact Nat.succ_le_succ hle
  | equation a b =>
    have hle := max_parenthesized_le (nesting_le root a) (nesting_le root b)
      (level_lt_of_needed .equals Nat.le_of_lt) (level_lt_of_needed .equals id)
    have hlevel : (Expr.equation a b).level < atomLevel := level_lt_atomLevel .equals
    rw [if_pos hlevel]
    exact Nat.succ_le_succ hle

theorem nestingOfList_le (root : Body) (as : List Expr) :
    nestingOfList as ≤ heightOfList (spelledList root as) := by
  cases as with
  | nil => exact Nat.le_refl _
  | cons a rest =>
    have ha := nesting_le root a
    have hrest := nestingOfList_le root rest
    simp only [nestingOfList, spelledList, heightOfList]
    omega

end

end Expr

/-! ## 4. What the nodes have to be -/

/-- Whether a name that is read alone is one lexeme, of the given kind. -/
def Environment.Reads (env : Environment) (kind : LexemeKind) (name : String) : Prop :=
  (Reader.standard env).tokens name = [.lexeme ⟨kind, name⟩]

/-- An environment has a function of a name that can be read. -/
structure Environment.Offers (env : Environment) (name : String) (arity : Nat) (body : Body) :
    Prop where
  reads : env.Reads .functionName name
  arity : env.arity? name = some arity
  body : env.body? name = some body

/-- The nodes of a formula are such that its line of text can be read in an
environment where `root` is computed by `root`. -/
structure Expr.Legible (env : Environment) (root : Body) (n : Expr) : Prop where
  literal : ∀ value, .literal value ∈ n.nodes → value.isFinite = true
  free : ∀ name, .free name ∈ n.nodes → env.Reads .variableName name
  constant : ∀ name value, .constant name value ∈ n.nodes →
    env.Reads .constantName name ∧ env.constant? name = some value
  call : ∀ name body arguments, .call name body arguments ∈ n.nodes →
    env.Offers name arguments.length body
  root : ∀ base degree, .root base degree ∈ n.nodes → env.Offers "root" 2 root

/-- The parts of a legible formula are legible. -/
theorem Expr.Legible.of_subset {env : Environment} {root : Body} {n m : Expr}
    (h : n.Legible env root) (hsub : m.nodes ⊆ n.nodes) : m.Legible env root where
  literal value hmem := h.literal value (hsub hmem)
  free name hmem := h.free name (hsub hmem)
  constant name value hmem := h.constant name value (hsub hmem)
  call name body arguments hmem := h.call name body arguments (hsub hmem)
  root base degree hmem := h.root base degree (hsub hmem)

end Formula
