/-
Formula.Number.Decimal — numerals, and the decimal fractions they spell.

A numeral is a run of ASCII digits with at most one point in or beside it:
`12`, `1.5`, `.5` and `1.` are numerals, a point alone is none. There is no
sign and no exponent; a sign is an operator of the expression.

A decimal is a whole number of units of `10 ^ (-places)`. Every numeral of
a text is one, and so is every finite binary64 number. `Decimal.text`
spells a decimal without an exponent: the whole part, and a point and
further digits only where the fraction is not zero.
-/
namespace Formula.Number

/-! ## 1. Numerals -/

/-- Splits the longest run of ASCII digits with at most one point off the
front of a text, if it holds a digit. -/
def splitNumeral (cs : List Char) : Option (List Char × List Char) :=
  let whole := cs.takeWhile Char.isDigit
  match cs.dropWhile Char.isDigit with
  | '.' :: rest =>
    let fraction := rest.takeWhile Char.isDigit
    if whole.isEmpty && fraction.isEmpty then none
    else some (whole ++ '.' :: fraction, rest.dropWhile Char.isDigit)
  | rest => if whole.isEmpty then none else some (whole, rest)

/-- Splitting loses nothing. -/
theorem append_of_splitNumeral {cs numeral rest : List Char}
    (h : splitNumeral cs = some (numeral, rest)) : numeral ++ rest = cs := by
  have key : cs.takeWhile Char.isDigit ++ cs.dropWhile Char.isDigit = cs :=
    List.takeWhile_append_dropWhile
  unfold splitNumeral at h
  simp only at h
  split at h
  · rename_i tail hd
    split at h
    · simp at h
    · simp only [Option.some.injEq, Prod.mk.injEq] at h
      obtain ⟨rfl, rfl⟩ := h
      rw [hd] at key
      simpa using key
  · split at h
    · simp at h
    · simp only [Option.some.injEq, Prod.mk.injEq] at h
      obtain ⟨rfl, rfl⟩ := h
      exact key

/-- A numeral has at least one character. -/
theorem ne_nil_of_splitNumeral {cs numeral rest : List Char}
    (h : splitNumeral cs = some (numeral, rest)) : numeral ≠ [] := by
  unfold splitNumeral at h
  simp only at h
  split at h
  · split at h
    · simp at h
    · simp only [Option.some.injEq, Prod.mk.injEq] at h
      obtain ⟨rfl, rfl⟩ := h
      simp
  · split at h
    · simp at h
    · rename_i hw
      simp only [Option.some.injEq, Prod.mk.injEq] at h
      obtain ⟨rfl, rfl⟩ := h
      intro hnil
      simp [hnil] at hw

/-! ## 2. Decimals -/

-- powers are the core ones, also where Mathlib's are in scope
attribute [local instance (2000)] instPowNat

/-- The decimal fraction `coefficient / 10 ^ places`. -/
structure Decimal where
  coefficient : Nat
  places : Nat
deriving DecidableEq, Repr

/-- The digits of the fraction `n / 10 ^ places` after the point, without
trailing zeros: the digits end where nothing is left. -/
def fractionDigits : Nat → Nat → List Char
  | 0, _ => []
  | places + 1, n =>
    if n = 0 then []
    else Nat.digitChar (n / 10 ^ places) :: fractionDigits places (n % 10 ^ places)

namespace Decimal

/-- The value of a numeral. Digits before and after the point count alike,
and each digit after the point moves it by one place. -/
def ofNumeral (cs : List Char) : Decimal :=
  let whole := cs.takeWhile Char.isDigit
  let fraction := (cs.dropWhile Char.isDigit).drop 1
  ⟨Nat.ofDigitChars 10 (whole ++ fraction) 0, fraction.length⟩

/-- The positional spelling of a decimal, without an exponent, without
trailing zeros after the point, and without a point where no digit
follows it. -/
def text (d : Decimal) : List Char :=
  let whole := Nat.toDigits 10 (d.coefficient / 10 ^ d.places)
  match fractionDigits d.places (d.coefficient % 10 ^ d.places) with
  | [] => whole
  | fraction => whole ++ '.' :: fraction

end Decimal

/-- How many decimal digits a whole number has. -/
def digitCount (n : Nat) : Nat := (Nat.toDigits 10 n).length

end Formula.Number
