/-
Formula.Proofs.Number.Numeral — the shape of numerals.

`IsNumeral` says what a numeral is without saying how it is found: digits,
with at most one point in or beside them. What `splitNumeral` splits off has
this shape, and whatever has it is split off whole where no further digit or
point follows. The spelling of a decimal is a numeral.
-/
import Formula.Number.ReadBack
import Formula.Text.Classes
import Mathlib.Data.List.TakeWhile

namespace Formula.Number

/-- Digits with at most one point. -/
inductive IsNumeral : List Char → Prop
  | whole {whole} (hw : ∀ c ∈ whole, c.isDigit = true) (hne : whole ≠ []) : IsNumeral whole
  | point {whole fraction} (hw : ∀ c ∈ whole, c.isDigit = true)
      (hf : ∀ c ∈ fraction, c.isDigit = true) (hne : whole ≠ [] ∨ fraction ≠ []) :
      IsNumeral (whole ++ '.' :: fraction)

theorem toNat_of_isDigit {c : Char} (h : c.isDigit = true) : 48 ≤ c.toNat ∧ c.toNat ≤ 57 := by
  rw [Char.isDigit, Bool.and_eq_true, decide_eq_true_iff, decide_eq_true_iff] at h
  exact ⟨UInt32.le_iff_toNat_le.mp h.1, UInt32.le_iff_toNat_le.mp h.2⟩

/-- A numeral starts with a digit or a point. -/
theorem IsNumeral.head {cs : List Char} (h : IsNumeral cs) :
    ∃ c rest, cs = c :: rest ∧ (c.isDigit = true ∨ c = '.') := by
  cases h with
  | whole hw hne =>
    cases cs with
    | nil => exact absurd rfl hne
    | cons c rest => exact ⟨c, rest, rfl, .inl (hw c (by simp))⟩
  | @point whole fraction hw _ _ =>
    cases whole with
    | nil => exact ⟨'.', fraction, rfl, .inr rfl⟩
    | cons c rest => exact ⟨c, _, rfl, .inl (hw c (by simp))⟩

/-- A numeral has no other characters than digits and points. -/
theorem IsNumeral.isDigit_of_mem {cs : List Char} (h : IsNumeral cs) {c : Char} (hc : c ∈ cs) :
    c.isDigit = true ∨ c = '.' := by
  cases h with
  | whole hw _ => exact .inl (hw c hc)
  | point hw hf _ =>
    rcases List.mem_append.mp hc with hc | hc
    · exact .inl (hw c hc)
    · rcases List.mem_cons.mp hc with rfl | hc
      · exact .inr rfl
      · exact .inl (hf c hc)

theorem IsNumeral.isBlank_of_mem {cs : List Char} (h : IsNumeral cs) {c : Char} (hc : c ∈ cs) :
    Text.isBlank c = false := by
  rcases h.isDigit_of_mem hc with hc | rfl
  · obtain ⟨hlow, hhigh⟩ := toNat_of_isDigit hc
    -- The digits lie between the second and the third range of blanks.
    simp only [Text.isBlank, Text.blankRanges, Text.inRanges_cons]
    rw [if_neg (by omega), if_neg (by omega), if_pos (by omega)]
    simp only [Bool.or_false, Bool.or_eq_false_iff, decide_eq_false_iff_not]
    omega
  · rfl

/-- There is no white space around a numeral. -/
theorem IsNumeral.trim_eq {cs : List Char} (h : IsNumeral cs) : Text.trim cs = cs := by
  have hself : ∀ ds : List Char, (∀ c ∈ ds, c ∈ cs) → Text.trimLeft ds = ds := by
    intro ds hds
    cases ds with
    | nil => rfl
    | cons d ds => rw [Text.trimLeft_cons, if_neg (by simp [h.isBlank_of_mem (hds d (by simp))])]
  rw [Text.trim, hself cs fun _ hc => hc, hself cs.reverse fun _ hc => List.mem_reverse.mp hc,
    List.reverse_reverse]

/-- What is split off is a numeral. -/
theorem isNumeral_of_splitNumeral {cs numeral rest : List Char}
    (h : splitNumeral cs = some (numeral, rest)) : IsNumeral numeral := by
  have hdigits : ∀ ds : List Char, ∀ c ∈ ds.takeWhile Char.isDigit, c.isDigit = true :=
    fun _ _ hc => List.mem_takeWhile_imp hc
  unfold splitNumeral at h
  simp only at h
  split at h
  · split at h
    · cases h
    · rename_i hne
      simp only [Option.some.injEq, Prod.mk.injEq] at h
      obtain ⟨rfl, -⟩ := h
      refine .point (hdigits _) (hdigits _) ?_
      by_cases hwhole : cs.takeWhile Char.isDigit = []
      · exact .inr (by simpa [hwhole] using hne)
      · exact .inl hwhole
  · split at h
    · cases h
    · rename_i hne
      simp only [Option.some.injEq, Prod.mk.injEq] at h
      obtain ⟨rfl, -⟩ := h
      exact .whole (hdigits _) (by simpa using hne)

/-- A numeral is split off whole where it ends. -/
theorem splitNumeral_append {numeral rest : List Char} (h : IsNumeral numeral)
    (hrest : ∀ c ∈ rest.head?, c.isDigit = false ∧ c ≠ '.') :
    splitNumeral (numeral ++ rest) = some (numeral, rest) := by
  have hdigit : ∀ c ∈ rest.head?, c.isDigit = false := fun c hc => (hrest c hc).1
  unfold splitNumeral
  cases h with
  | whole hw hne =>
    obtain ⟨htake, hdrop⟩ := takeWhile_dropWhile_append hw hdigit
    rw [htake, hdrop]
    simp only
    cases rest with
    | nil => simp [hne]
    | cons c rest =>
      have hpoint := (hrest c rfl).2
      split
      · rename_i heq
        cases heq
        exact absurd rfl hpoint
      · simp [hne]
  | @point whole fraction hw hf hne =>
    have hpoint : ∀ c ∈ ('.' :: (fraction ++ rest)).head?, c.isDigit = false := by
      intro c hc
      cases hc
      rfl
    obtain ⟨htake, hdrop⟩ := takeWhile_dropWhile_append hw hpoint
    obtain ⟨htake', hdrop'⟩ := takeWhile_dropWhile_append hf hdigit
    rw [List.append_assoc, List.cons_append, htake, hdrop]
    simp only [htake', hdrop']
    rcases hne with hne | hne <;> simp [hne]

/-- A numeral is split off itself. -/
theorem splitNumeral_self {numeral : List Char} (h : IsNumeral numeral) :
    splitNumeral numeral = some (numeral, []) := by
  have hsplit : splitNumeral (numeral ++ []) = some (numeral, []) :=
    splitNumeral_append h (by simp)
  rwa [List.append_nil] at hsplit

/-- A digit begins a numeral. -/
theorem isDigit_of_splitNumeral_eq_none {c : Char} {rest : List Char}
    (h : splitNumeral (c :: rest) = none) : c.isDigit = false := by
  cases hc : c.isDigit with
  | false => rfl
  | true =>
    unfold splitNumeral at h
    simp only [List.takeWhile_cons, hc, if_true] at h
    split at h
    · simp at h
    · simp at h

/-- Nothing else begins one where no digit follows. -/
theorem splitNumeral_cons_eq_none {c : Char} {rest : List Char} (hc : c.isDigit = false)
    (hrest : ∀ d ∈ rest.head?, d.isDigit = false) : splitNumeral (c :: rest) = none := by
  have htake : rest.takeWhile Char.isDigit = [] := by
    cases rest with
    | nil => rfl
    | cons d rest => simp [hrest d rfl]
  unfold splitNumeral
  simp only [List.takeWhile_cons, List.dropWhile_cons, hc]
  split
  · rename_i heq
    simp only [Bool.false_eq_true, if_false, List.cons.injEq] at heq
    obtain ⟨-, rfl⟩ := heq
    simp [htake]
  · rfl

/-- The positional spelling of a decimal is a numeral. -/
theorem isNumeral_text (d : Decimal) : IsNumeral d.text := by
  have hwhole : ∀ c ∈ Nat.toDigits 10 (d.coefficient / 10 ^ d.places), c.isDigit = true :=
    fun c hc => Nat.isDigit_of_mem_toDigits (by decide) (by decide) hc
  have hne : Nat.toDigits 10 (d.coefficient / 10 ^ d.places) ≠ [] := by
    intro hnil
    have := Nat.length_toDigits_pos (b := 10) (n := d.coefficient / 10 ^ d.places)
    rw [hnil] at this
    exact absurd this (by simp)
  have hfraction := isDigit_of_mem_fractionDigits
    (Nat.mod_lt d.coefficient (Nat.pow_pos (by decide) : 0 < 10 ^ d.places))
  unfold Decimal.text
  simp only
  split
  · exact .whole hwhole hne
  · exact .point hwhole hfraction (.inl hne)

theorem isNumeral_plainDigits (p : Nat) : IsNumeral (plainDigits p) := isNumeral_text (shortest p)

end Formula.Number
