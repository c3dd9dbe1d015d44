/-
Formula.Number.ReadBack — what is written reads back.

`nearest_shortest`: the digits chosen for a finite pattern read back as
that pattern. `ofNumeral_text`: the positional spelling of a decimal is a
numeral of the same value. Together they say that the spelling of a finite
magnitude gives the magnitude back when it is read (`nearest_plainDigits`).

Reading depends on the value of a decimal only and not on its count of
places (`nearest_congr`), so the steps between can pad and strip zeros.
-/
import Formula.Number.Spelling

namespace Formula.Number

-- powers are the core ones, also where Mathlib's are in scope
attribute [local instance (2000)] instPowNat

/-! ## 1. Rounding depends on the quotient only -/

/-- A common factor cancels in a rounded quotient. -/
theorem roundDiv_mul_mul (num den : Nat) {k : Nat} (h : 0 < k) :
    roundDiv (num * k) (den * k) = roundDiv num den := by
  have hq : num * k / (den * k) = num / den := Nat.mul_div_mul_right num den h
  have hr : num * k % (den * k) = num % den * k := Nat.mul_mod_mul_right k num den
  have hlt : 2 * (num % den * k) < den * k ↔ 2 * (num % den) < den := by
    rw [← Nat.mul_assoc]
    exact Nat.mul_lt_mul_right h
  have hgt : den * k < 2 * (num % den * k) ↔ den < 2 * (num % den) := by
    rw [← Nat.mul_assoc]
    exact Nat.mul_lt_mul_right h
  simp only [roundDiv_eq, hq, hr, hlt, hgt]

/-- Equal quotients are rounded alike. -/
theorem roundDiv_congr {a b c d : Nat} (hb : 0 < b) (hd : 0 < d) (h : a * d = c * b) :
    roundDiv a b = roundDiv c d := by
  rw [← roundDiv_mul_mul a b hd, ← roundDiv_mul_mul c d hb, h, Nat.mul_comm b d]

theorem div_congr {a b c d : Nat} (hb : 0 < b) (hd : 0 < d) (h : a * d = c * b) :
    a / b = c / d := by
  rw [← Nat.mul_div_mul_right a b hd, ← Nat.mul_div_mul_right c d hb, h, Nat.mul_comm b d]

namespace Binary64

/-- Decimals of the same value are read alike. -/
theorem nearest_congr {d e : Decimal}
    (h : d.coefficient * 10 ^ e.places = e.coefficient * 10 ^ d.places) :
    nearest d = nearest e := by
  have hd : 0 < 10 ^ d.places := Nat.pow_pos (by decide)
  have he : 0 < 10 ^ e.places := Nat.pow_pos (by decide)
  unfold nearest
  generalize 2 ^ (1074 : Nat) = unit
  simp only
  have hq : d.coefficient * unit * 10 ^ e.places = e.coefficient * unit * 10 ^ d.places := by
    rw [Nat.mul_right_comm, h, Nat.mul_right_comm]
  rw [div_congr hd he hq]
  generalize Nat.log2 (e.coefficient * unit / 10 ^ e.places) - 52 = drop
  have hp : 0 < 2 ^ drop := Nat.pow_pos (by decide)
  rw [roundDiv_congr (Nat.mul_pos hd hp) (Nat.mul_pos he hp)]
  rw [← Nat.mul_assoc, ← Nat.mul_assoc, hq]

/-! ## 2. The exact value reads back -/

/-- A pattern is its exponent field and its significand. -/
theorem exponent_add_significand (p : Nat) : exponent p * 2 ^ (52 : Nat) + significand p = p := by
  unfold exponent significand
  split <;> omega

theorem significand_lt (p : Nat) : significand p < 2 ^ (53 : Nat) := by
  unfold significand
  split <;> omega

/-- Only the patterns of the least exponent lack the leading bit. -/
theorem exponent_eq_zero_or (p : Nat) : exponent p = 0 ∨ 2 ^ (52 : Nat) ≤ significand p := by
  unfold exponent significand
  split <;> omega

/-- The exact value of a pattern in units of `2 ^ (-1074)`. -/
theorem exact_units (p : Nat) :
    (exact p).coefficient * 2 ^ (1074 : Nat) =
      significand p * 2 ^ exponent p * 10 ^ (exact p).places := by
  unfold exact
  generalize 1074 = top
  split
  · rename_i h
    obtain ⟨k, hk⟩ := Nat.exists_eq_add_of_le h
    simp only [hk, Nat.add_sub_cancel_left, Nat.pow_zero, Nat.mul_one]
    rw [Nat.mul_assoc, ← Nat.pow_add, Nat.add_comm k]
  · rename_i h
    obtain ⟨k, rfl⟩ := Nat.exists_eq_add_of_le (Nat.le_of_lt (Nat.lt_of_not_le h))
    simp only [Nat.add_sub_cancel_left]
    rw [Nat.pow_add, show (10 : Nat) = 5 * 2 from rfl, Nat.mul_pow]
    simp only [Nat.mul_assoc, Nat.mul_left_comm, Nat.mul_comm]

/-- The scale at which the significand of a pattern has its place. -/
theorem log2_units (p : Nat) : Nat.log2 (significand p * 2 ^ exponent p) - 52 = exponent p := by
  have hlt := significand_lt p
  rcases exponent_eq_zero_or p with h | h
  · rw [h, Nat.pow_zero, Nat.mul_one]
    rcases Nat.eq_zero_or_pos (significand p) with h0 | h0
    · simp [h0]
    · have := (Nat.log2_lt (Nat.pos_iff_ne_zero.mp h0)).mpr hlt
      omega
  · have hpow : 0 < 2 ^ exponent p := Nat.pow_pos (by decide)
    have hlog : Nat.log2 (significand p * 2 ^ exponent p) = 52 + exponent p := by
      refine (Nat.log2_eq_iff (Nat.pos_iff_ne_zero.mp (Nat.mul_pos (by omega) hpow))).mpr ⟨?_, ?_⟩
      · rw [Nat.pow_add]
        exact Nat.mul_le_mul_right _ h
      · rw [Nat.add_right_comm, Nat.pow_add]
        exact Nat.mul_lt_mul_of_pos_right hlt hpow
    rw [hlog, Nat.add_sub_cancel_left]

/-- The exact value of a finite pattern reads back. -/
theorem nearest_exact {p : Nat} (h : p < infinity) : nearest (exact p) = p := by
  have hden : 0 < 10 ^ (exact p).places := Nat.pow_pos (by decide)
  have hunits := exact_units p
  unfold nearest
  simp only
  rw [hunits, Nat.mul_div_cancel _ hden, log2_units, Nat.mul_assoc,
    Nat.mul_comm (2 ^ exponent p), roundDiv_mul_right _
      (Nat.mul_pos hden (Nat.pow_pos (by decide))), exponent_add_significand]
  exact Nat.min_eq_left (Nat.le_of_lt h)

end Binary64

/-- The digits chosen for a finite pattern read back. -/
theorem nearest_shortest {p : Nat} (h : p < Binary64.infinity) :
    Binary64.nearest (shortest p) = p := by
  unfold shortest
  cases hf : (List.range 17).findSome? fun i => neighbour? p (i + 1) with
  | none => exact Binary64.nearest_exact h
  | some d =>
    obtain ⟨i, _, hi⟩ := List.exists_of_findSome?_eq_some hf
    exact nearest_of_neighbour? hi

/-! ## 3. The spelling of a decimal -/

theorem isDigit_digitChar {n : Nat} (h : n < 10) : (Nat.digitChar n).isDigit = true := by
  have : ∀ m : Fin 10, (Nat.digitChar m.val).isDigit = true := by decide
  exact this ⟨n, h⟩

theorem isDigit_of_mem_fractionDigits {places n : Nat} (h : n < 10 ^ places) :
    ∀ c ∈ fractionDigits places n, c.isDigit = true := by
  induction places generalizing n with
  | zero => intro c hc; simp [fractionDigits] at hc
  | succ places ih =>
    intro c hc
    rw [fractionDigits] at hc
    split at hc
    · simp at hc
    · have hpos : 0 < 10 ^ places := Nat.pow_pos (by decide)
      rcases List.mem_cons.mp hc with rfl | hc
      · refine isDigit_digitChar ((Nat.div_lt_iff_lt_mul hpos).mpr ?_)
        rw [Nat.pow_succ] at h
        omega
      · exact ih (Nat.mod_lt _ hpos) c hc

/-- The digits after the point give the fraction back, once the zeros that
were left out are made up for. -/
theorem ofDigitChars_fractionDigits {places n : Nat} (h : n < 10 ^ places) :
    (fractionDigits places n).length ≤ places ∧
      Nat.ofDigitChars 10 (fractionDigits places n) 0 *
        10 ^ (places - (fractionDigits places n).length) = n := by
  induction places generalizing n with
  | zero =>
    have : n = 0 := by simpa using h
    simp [fractionDigits, this]
  | succ places ih =>
    have hpos : 0 < 10 ^ places := Nat.pow_pos (by decide)
    rw [fractionDigits]
    split
    · rename_i h0
      simp [h0]
    · have hd : n / 10 ^ places < 10 := by
        refine (Nat.div_lt_iff_lt_mul hpos).mpr ?_
        rw [Nat.pow_succ] at h
        omega
      obtain ⟨hlen, hval⟩ := ih (Nat.mod_lt n hpos)
      refine ⟨by simpa using hlen, ?_⟩
      rw [Nat.ofDigitChars_cons_digitChar_of_lt_ten hd, Nat.mul_zero, Nat.zero_add,
        Nat.ofDigitChars_eq_ofDigitChars_zero, List.length_cons, Nat.add_sub_add_right,
        Nat.add_mul, hval, Nat.mul_right_comm, ← Nat.pow_add, Nat.add_sub_cancel' hlen,
        Nat.mul_comm]
      exact Nat.div_add_mod' n (10 ^ places)

/-- A text is divided where a property of its characters ends. -/
theorem takeWhile_dropWhile_append {p : Char → Bool} {cs rest : List Char}
    (hcs : ∀ c ∈ cs, p c = true) (hrest : ∀ c ∈ rest.head?, p c = false) :
    (cs ++ rest).takeWhile p = cs ∧ (cs ++ rest).dropWhile p = rest := by
  rw [List.takeWhile_append_of_pos hcs, List.dropWhile_append_of_pos hcs]
  cases rest with
  | nil => simp
  | cons c rest =>
    have := hrest c rfl
    simp [this]

/-- The positional spelling of a decimal is a numeral of the same value. -/
theorem ofNumeral_text (d : Decimal) :
    (Decimal.ofNumeral d.text).coefficient * 10 ^ d.places =
      d.coefficient * 10 ^ (Decimal.ofNumeral d.text).places := by
  have hpos : 0 < 10 ^ d.places := Nat.pow_pos (by decide)
  obtain ⟨hlen, hval⟩ := ofDigitChars_fractionDigits (Nat.mod_lt d.coefficient hpos)
  have hwhole : ∀ c ∈ Nat.toDigits 10 (d.coefficient / 10 ^ d.places), c.isDigit = true :=
    fun c hc => Nat.isDigit_of_mem_toDigits (by decide) (by decide) hc
  have hsplit := Nat.div_add_mod' d.coefficient (10 ^ d.places)
  unfold Decimal.text
  simp only
  generalize fractionDigits d.places (d.coefficient % 10 ^ d.places) = fraction at hlen hval
  -- reading the spelling gives the whole part and the fraction as one number
  have hread : ∀ text : List Char,
      text.takeWhile Char.isDigit = Nat.toDigits 10 (d.coefficient / 10 ^ d.places) →
      (text.dropWhile Char.isDigit).drop 1 = fraction →
      (Decimal.ofNumeral text).coefficient * 10 ^ d.places =
        d.coefficient * 10 ^ (Decimal.ofNumeral text).places := by
    intro text htake hdrop
    simp only [Decimal.ofNumeral, htake, hdrop]
    rw [Nat.ofDigitChars_append, Nat.ofDigitChars_toDigits (by decide) (by decide),
      Nat.ofDigitChars_eq_ofDigitChars_zero]
    obtain ⟨k, hk⟩ := Nat.exists_eq_add_of_le hlen
    rw [hk, Nat.add_sub_cancel_left] at hval
    rw [← hk] at hval
    calc (10 ^ fraction.length * (d.coefficient / 10 ^ d.places)
            + Nat.ofDigitChars 10 fraction 0) * 10 ^ d.places
        = 10 ^ fraction.length * (d.coefficient / 10 ^ d.places * 10 ^ d.places)
            + Nat.ofDigitChars 10 fraction 0 * 10 ^ k * 10 ^ fraction.length := by
          rw [Nat.add_mul, Nat.mul_assoc, Nat.mul_assoc (Nat.ofDigitChars 10 fraction 0),
            ← Nat.pow_add, Nat.add_comm k, ← hk]
      _ = d.coefficient * 10 ^ fraction.length := by
          rw [hval, Nat.mul_comm (10 ^ fraction.length), ← Nat.add_mul, hsplit]
  split
  · have hnil : ∀ c ∈ ([] : List Char).head?, c.isDigit = false := by simp
    obtain ⟨h1, h2⟩ := takeWhile_dropWhile_append hwhole hnil
    rw [List.append_nil] at h1 h2
    exact hread _ h1 (by rw [h2]; rfl)
  · have hdot : ∀ c ∈ ('.' :: fraction).head?, c.isDigit = false := by
      intro c hc
      cases hc
      rfl
    obtain ⟨h1, h2⟩ := takeWhile_dropWhile_append hwhole hdot
    exact hread _ h1 (by rw [h2]; rfl)

/-- The spelling of a finite magnitude reads back as the magnitude. -/
theorem nearest_plainDigits {p : Nat} (h : p < Binary64.infinity) :
    Binary64.nearest (.ofNumeral (plainDigits p)) = p := by
  rw [plainDigits, Binary64.nearest_congr (ofNumeral_text (shortest p)), nearest_shortest h]

end Formula.Number
