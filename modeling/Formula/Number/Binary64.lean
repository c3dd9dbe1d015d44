/-
Formula.Number.Binary64 — magnitudes of binary64 numbers in exact
arithmetic.

A binary64 number is a sign and a pattern of 63 bits: eleven bits of
exponent above fifty-two bits of fraction. Patterns grow with the
magnitudes they stand for. A finite pattern stands for
`significand · 2 ^ exponent` units of `2 ^ (-1074)`, both whole numbers, so
reading a decimal (`nearest`) and writing one (`exact`) are done with
naturals alone. `roundDiv` is the one place where a number is rounded.
-/
import Formula.Number.Decimal

namespace Formula.Number

/-! ## 1. Division to the nearest whole number -/

/-- The whole number nearest to `num / den`; a half goes to the even
neighbour. -/
def roundDiv (num den : Nat) : Nat :=
  let q := num / den
  let r := num % den
  if 2 * r < den then q else if den < 2 * r then q + 1 else q + q % 2

theorem roundDiv_eq (num den : Nat) :
    roundDiv num den =
      if 2 * (num % den) < den then num / den
      else if den < 2 * (num % den) then num / den + 1
      else num / den + num / den % 2 := rfl

/-- A multiple of the divisor is divided exactly. -/
theorem roundDiv_mul_right (n : Nat) {den : Nat} (h : 0 < den) : roundDiv (n * den) den = n := by
  simp [roundDiv_eq, h]

namespace Binary64

-- powers are the core ones, also where Mathlib's are in scope
attribute [local instance (2000)] instPowNat

/-! ## 2. Patterns -/

/-- The pattern of infinity. Smaller patterns are finite, larger ones are
not numbers. -/
def infinity : Nat := 0x7FF * 2 ^ (52 : Nat)

/-- The pattern of a number, its sign left out. -/
def pattern (x : Float) : Nat := x.toBits.toNat % 2 ^ (63 : Nat)

/-- Whether the sign bit of a number is set. Minus zero has it set. -/
def isNegative (x : Float) : Bool := 2 ^ (63 : Nat) ≤ x.toBits.toNat

/-- The number that is not negative and has the given pattern. -/
def ofPattern (p : Nat) : Float := Float.ofBits (UInt64.ofNat p)

/-- The significand of a finite pattern, with the leading bit that normal
numbers leave out. -/
def significand (p : Nat) : Nat :=
  if p / 2 ^ (52 : Nat) = 0 then p else 2 ^ (52 : Nat) + p % 2 ^ (52 : Nat)

/-- The exponent of a finite pattern, counted from the least one: zero for
subnormal numbers and for the first normal ones. -/
def exponent (p : Nat) : Nat := p / 2 ^ (52 : Nat) - 1

/-! ## 3. To and from decimals -/

/-- The exact decimal value of a finite pattern. A half is five tenths, so
each halving takes one decimal place. -/
@[irreducible] def exact (p : Nat) : Decimal :=
  if 1074 ≤ exponent p then ⟨significand p * 2 ^ (exponent p - 1074), 0⟩
  else ⟨significand p * 5 ^ (1074 - exponent p), 1074 - exponent p⟩

/-- The pattern of the binary64 number nearest to a decimal. Ties go to the
even significand, and what exceeds the finite range goes to infinity.

The quotient of `units` and `den` is the value in units of `2 ^ (-1074)`.
Its lowest `drop` bits do not fit a significand of fifty-three bits. The
rounded significand is added to the exponent field rather than masked into
it: with its leading bit, and with the carry of a significand rounded up to
the next power of two, it raises the field by the right amount.

Both functions are irreducible: powers such as `2 ^ 1074` are not to be
unfolded where two terms are merely compared. -/
@[irreducible] def nearest (d : Decimal) : Nat :=
  let units := d.coefficient * 2 ^ (1074 : Nat)
  let den := 10 ^ d.places
  let drop := Nat.log2 (units / den) - 52
  min (drop * 2 ^ (52 : Nat) + roundDiv units (den * 2 ^ drop)) infinity

/-- The number that a numeral spells, correctly rounded. -/
def ofNumeral (cs : List Char) : Float := ofPattern (nearest (.ofNumeral cs))

end Binary64

end Formula.Number
