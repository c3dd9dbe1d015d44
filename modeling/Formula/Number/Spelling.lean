/-
Formula.Number.Spelling — numbers as the library writes them.

A number is spelled with the fewest digits that read back, in positions and
never with an exponent, whole numbers without a point. Numbers that are not
finite are `inf`, `-inf` and `NaN`.

Of all decimals with a given count of significant digits, the two that can
lie nearest to a value are its neighbours on the grid of that count, one at
or below it and one above. The counts are tried in turn, and a neighbour
counts if reading it gives the value back. Of two such neighbours the
nearer is chosen, and the upper one if both are equally near.

Seventeen digits always suffice. The exact value stands behind the search,
so that the result reads back whether or not this is known.
-/
import Formula.Number.Binary64

namespace Formula.Number

/-! ## 1. The fewest digits -/

-- powers are the core ones, also where Mathlib's are in scope
attribute [local instance (2000)] instPowNat

/-- Of the two neighbours of a value, the one that reads back as the
pattern `p`; of two, the lower one if `lowNearer`. -/
def pick? (p : Nat) (lowNearer : Bool) (low high : Decimal) : Option Decimal :=
  if Binary64.nearest low = p then
    if Binary64.nearest high = p then some (if lowNearer then low else high) else some low
  else if Binary64.nearest high = p then some high
  else none

/-- The neighbour of a finite pattern with at most `count` significant
digits that reads back, if there is one. -/
def neighbour? (p count : Nat) : Option Decimal :=
  let value := Binary64.exact p
  let step := 10 ^ (digitCount value.coefficient - count)
  let below := value.coefficient / step * step
  pick? p (2 * (value.coefficient % step) < step) ⟨below, value.places⟩
    ⟨below + step, value.places⟩

/-- The decimal with the fewest digits that reads back as a finite
pattern. -/
def shortest (p : Nat) : Decimal :=
  ((List.range 17).findSome? fun i => neighbour? p (i + 1)).getD (Binary64.exact p)

/-- A decimal that is picked reads back. -/
theorem nearest_of_pick? {p : Nat} {lowNearer : Bool} {low high d : Decimal}
    (h : pick? p lowNearer low high = some d) : Binary64.nearest d = p := by
  unfold pick? at h
  split at h
  · rename_i hl
    split at h
    · rename_i hh
      cases lowNearer <;> cases h
      · exact hh
      · exact hl
    · cases h
      exact hl
  · split at h
    · rename_i hh
      cases h
      exact hh
    · cases h

/-- A neighbour that is found reads back. -/
theorem nearest_of_neighbour? {p count : Nat} {d : Decimal} (h : neighbour? p count = some d) :
    Binary64.nearest d = p :=
  nearest_of_pick? h

/-! ## 2. Spellings -/

open Binary64 (pattern isNegative infinity)

/-- The spelling of a number, given the spelling of its magnitude where
that is finite. A NaN shows no sign. -/
def signed (finite : Nat → List Char) (x : Float) : String :=
  let p := pattern x
  if infinity < p then "NaN"
  else
    let magnitude := if p = infinity then ['i', 'n', 'f'] else finite p
    String.ofList (if isNegative x then '-' :: magnitude else magnitude)

/-- A finite magnitude in positions, with the fewest digits that read
back. -/
def plainDigits (p : Nat) : List Char := (shortest p).text

/-- A number as formulas spell it. -/
def text (x : Float) : String := signed plainDigits x

end Formula.Number
