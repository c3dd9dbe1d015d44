/-
Formula.Parse.Measured — formulas with their heights, and the limits.

Every walk over a tree goes down one level after the other, so a parse
bounds the height of what it builds, and the depth to which its input may
nest. Heights are counted while a tree grows: a node that would be too high
is refused before it exists.
-/
import Formula.Expr.Basic

namespace Formula

/-- The bounds that a parse keeps. -/
structure Limits where
  /-- How deeply markup and parentheses may nest. -/
  maxDepth : Nat := 256
  /-- How high a tree may be. -/
  maxHeight : Nat := 1024
deriving DecidableEq, Repr

/-- The usual limits. -/
def Limits.standard : Limits := {}

/-- A formula and its height. -/
structure Measured where
  expr : Expr
  height : Nat

/-- The height of a node over children of the given heights, unless it is
more than allowed. A node without children has height one. -/
def grow (maxHeight : Nat) (children : List Nat) : Except ParseError Nat :=
  let height := children.foldl max 0 + 1
  if maxHeight < height then .error (.nestingTooDeep maxHeight) else .ok height

/-- A node may be built exactly if its height is within the limit, and its
height is one more than that of its highest child. -/
theorem grow_eq_ok_iff {maxHeight height : Nat} {children : List Nat} :
    grow maxHeight children = .ok height ↔
      height = children.foldl max 0 + 1 ∧ height ≤ maxHeight := by
  unfold grow
  simp only
  split
  · rename_i h
    constructor
    · intro hok
      simp at hok
    · rintro ⟨rfl, hle⟩
      omega
  · rename_i h
    simp only [Except.ok.injEq]
    constructor
    · rintro rfl
      exact ⟨rfl, by omega⟩
    · rintro ⟨rfl, -⟩
      rfl

/-- The only reason to refuse a node is its height. -/
theorem eq_of_grow_eq_error {maxHeight : Nat} {children : List Nat} {e : ParseError}
    (h : grow maxHeight children = .error e) : e = .nestingTooDeep maxHeight := by
  unfold grow at h
  simp only at h
  split at h
  · simpa using h.symm
  · simp at h

end Formula
