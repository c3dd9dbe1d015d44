/-
Formula.Proofs.Parse.Levels — how many levels a list needs.

A level is an open parenthesis, or a list inside of a token. A parse counts
both against the same limit, but the two do not add up: the lists in a token
get one level less than the list that the token is in, however many
parentheses are open there. `Token.levels` is the number of levels that a
list needs in this sense: as many as parentheses are open at once in it, and
one more than any list in one of its tokens needs (`Token.levels_le_iff`).
-/
import Formula.Proofs.Parse.Size

namespace Formula

namespace Token

mutual

/-- The number of levels that a list needs for one of its tokens. An empty
degree is not entered, but it would need no more than its base. -/
def innerLevels : Token → Nat
  | .lexeme _ => 0
  | .fraction numerator denominator =>
    max (levelsFrom 0 numerator + 1) (levelsFrom 0 denominator + 1)
  | .superscript base exponent => max (levelsFrom 0 base + 1) (levelsFrom 0 exponent + 1)
  | .radical base degree => max (levelsFrom 0 base + 1) (levelsFrom 0 degree + 1)
  | .group _ elements => elementLevels elements
  | .application [.superscript [.lexeme _] exponent] _ elements =>
    max (elementLevels elements) (levelsFrom 0 exponent + 1)
  | .application _ _ elements => elementLevels elements

/-- The number of levels that a list needs, with `depth` parentheses open
before it. -/
def levelsFrom (depth : Nat) : List Token → Nat
  | [] => depth
  | t :: rest => max depth (max t.innerLevels (levelsFrom (t.depthAfter depth) rest))

/-- The number of levels that a list needs for the elements of a group. One
empty element alone needs none. -/
def elementLevels : List (List Token) → Nat
  | [] => 0
  | [[]] => 0
  | element :: rest => max (levelsFrom 0 element + 1) (elementLevels rest)

end

/-- The number of levels that a list needs. -/
def levels (ts : List Token) : Nat := levelsFrom 0 ts

theorem levelsFrom_le_iff {depth d : Nat} {ts : List Token} :
    levelsFrom depth ts ≤ d ↔ peak depth ts ≤ d ∧ ∀ t ∈ ts, t.innerLevels ≤ d := by
  induction ts generalizing depth with
  | nil => simp [levelsFrom, peak]
  | cons t rest ih =>
    simp only [levelsFrom, peak, Nat.max_le, ih, List.forall_mem_cons]
    constructor
    · rintro ⟨hdepth, ht, hpeak, hrest⟩
      exact ⟨⟨hdepth, hpeak⟩, ht, hrest⟩
    · rintro ⟨⟨hdepth, hpeak⟩, ht, hrest⟩
      exact ⟨hdepth, ht, hpeak, hrest⟩

theorem elementLevels_le_iff {d : Nat} {elements : List (List Token)} :
    elementLevels elements ≤ d ↔ ∀ us ∈ argumentLists elements, levels us + 1 ≤ d := by
  induction elements with
  | nil => simp [elementLevels, argumentLists]
  | cons element rest ih =>
    by_cases hempty : element :: rest = [[]]
    · simp [hempty, elementLevels, argumentLists]
    · have hall : argumentLists (element :: rest) = element :: rest := by
        unfold argumentLists
        split
        · exact absurd ‹_› hempty
        · rfl
      have hmax : elementLevels (element :: rest) =
          max (levels element + 1) (elementLevels rest) := by
        rw [elementLevels, levels]
        simpa using hempty
      rw [hall, hmax, Nat.max_le, ih, List.forall_mem_cons, and_congr_right_iff]
      intro helement
      constructor
      · intro h us hus
        -- One empty element is no list to enter by itself, and here it needs no level of its own.
        rcases mem_argumentLists_or hus with hus | rfl
        · exact h us hus
        · exact Nat.le_trans (Nat.succ_le_succ (Nat.zero_le _)) helement
      · exact fun h us hus => h us (mem_of_mem_argumentLists hus)

theorem pairLevels_le_iff {d : Nat} {ts us : List Token} :
    max (levelsFrom 0 ts + 1) (levelsFrom 0 us + 1) ≤ d ↔ ∀ vs ∈ [ts, us], levels vs + 1 ≤ d := by
  rw [Nat.max_le]
  simp [levels]

theorem innerLevels_le_iff {d : Nat} {t : Token} :
    t.innerLevels ≤ d ↔ ∀ us ∈ t.sublists, levels us + 1 ≤ d := by
  cases t with
  | lexeme l => simp [innerLevels, sublists]
  | fraction numerator denominator => exact pairLevels_le_iff
  | superscript base exponent => exact pairLevels_le_iff
  | radical base degree =>
    cases degree with
    | nil =>
      simp only [innerLevels, sublists, levels, levelsFrom, List.forall_mem_singleton]
      omega
    | cons t rest => exact pairLevels_le_iff
  | group delimiters elements => exact elementLevels_le_iff
  | application name delimiters elements =>
    rw [sublists, List.forall_mem_append, ← elementLevels_le_iff]
    unfold exponentLists
    split
    · rw [innerLevels, Nat.max_le, List.forall_mem_singleton, levels]
    · rw [innerLevels]
      · simp
      · assumption

/-- What it means for a list to need no more than so many levels. -/
theorem levels_le_iff {d : Nat} {ts : List Token} :
    levels ts ≤ d ↔ peak 0 ts ≤ d ∧ ∀ t ∈ ts, ∀ us ∈ t.sublists, levels us + 1 ≤ d := by
  simp only [levels, levelsFrom_le_iff, innerLevels_le_iff]

/-- The parenthesis and the fraction need one level each, and the group one
more for the fraction. -/
example : levels [.lexeme (.punctuation .leftParen),
    .group .parens [[.fraction [.lexeme (.number "1")] [.lexeme (.number "2")]]],
    .lexeme (.punctuation .rightParen)] = 2 := by decide

/-- A list needs no more levels than it is large. -/
theorem levels_le_sizes (ts : List Token) : levels ts ≤ sizes ts := by
  induction hk : sizes ts using Nat.strongRecOn generalizing ts with
  | ind k ih =>
    subst hk
    have hpeak := peak_le 0 ts
    refine levels_le_iff.mpr ⟨by omega, fun t ht us hus => ?_⟩
    have hlt := Nat.lt_of_lt_of_le (sizes_lt_of_mem_sublists hus) (size_le_sizes ht)
    exact Nat.succ_le_of_lt (Nat.lt_of_le_of_lt (ih _ hlt us rfl) hlt)

end Token

end Formula
