/-
Formula.Dictionary — finite maps by association.

Declarations, symbol tables and stored formulas are small maps in which a
later entry replaces an earlier one under the same key. A dictionary is a
list of pairs read from the front, and `set` drops what it replaces, so a
key occurs once at most.
-/
namespace Formula

/-- A finite map from keys to values. -/
abbrev Dictionary (κ α : Type) := List (κ × α)

namespace Dictionary

variable {κ α : Type} [BEq κ]

/-- The value under a key. -/
def get? (d : Dictionary κ α) (key : κ) : Option α := List.lookup key d

/-- The dictionary with a value put under a key, in place of what was
there. -/
def set (d : Dictionary κ α) (key : κ) (value : α) : Dictionary κ α :=
  (key, value) :: d.filter fun entry => entry.1 != key

variable [LawfulBEq κ]

theorem get?_filter_of_ne (d : Dictionary κ α) {key other : κ} (h : other ≠ key) :
    get? (d.filter fun entry => entry.1 != key) other = get? d other := by
  have hb : (other == key) = false := by simpa using h
  induction d with
  | nil => rfl
  | cons entry rest ih =>
    obtain ⟨k, v⟩ := entry
    simp only [get?] at ih ⊢
    by_cases hk : k = key
    · subst hk
      simp [List.lookup_cons, hb, ih]
    · simp [hk, List.lookup_cons, ih]

/-- What is found is an entry. -/
theorem mem_of_get? {d : Dictionary κ α} {key : κ} {value : α} (h : get? d key = some value) :
    (key, value) ∈ d := by
  obtain ⟨before, after, rfl, -⟩ := List.lookup_eq_some_iff.mp h
  simp

/-- A value that was put under a key is found there, and the other keys
keep theirs. -/
theorem get?_set [DecidableEq κ] (d : Dictionary κ α) (key other : κ) (value : α) :
    get? (set d key value) other = if other = key then some value else get? d other := by
  by_cases h : other = key
  · subst h
    simp [set, get?]
  · have hb : (other == key) = false := by simpa using h
    have := get?_filter_of_ne d h
    simp only [get?] at this
    simp [set, get?, List.lookup_cons, h, hb, this]

end Dictionary

end Formula
