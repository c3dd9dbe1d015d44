/-
Formula.Proofs.Parse.Paths — how deep in its input a token lies.

A token lies in a list, this list perhaps in a token of another list, and so
on up to the list that is parsed. In each of these lists parentheses may be
open before the place where the way goes on. `Path` is such a way, with
these numbers.

The limit for the depth bounds the parentheses of each list together with
the lists entered before it (`path_levels_of_parse`). It does not bound them
all together (`not_levels_on_path_le`): what is parsed inside of a token
starts from the number of lists alone. Along a path, limit `D` lets through
up to `D * (D + 3) / 2` levels, and there are lists that reach this number
(`exists_path_of_levels`).
-/
import Formula.Proofs.Parse.Bounds
import Formula.Proofs.Parse.Language

namespace Formula

open Token

/-! ## 1. Paths -/

/-- A way from a list to a token in it or in one of its tokens. For each
list on the way, it has the number of parentheses that are open where it
goes on. -/
inductive Path : List Token → List Nat → Token → Prop
  | here (before : List Token) (t : Token) (rest : List Token) :
      Path (before ++ t :: rest) [before.foldl depthAfter 0] t
  | inside (before : List Token) {t : Token} (rest : List Token) {us : List Token} {ps : List Nat}
      {u : Token} (hus : us ∈ t.sublists) (h : Path us ps u) :
      Path (before ++ t :: rest) (before.foldl depthAfter 0 :: ps) u

theorem Path.of_mem {tokens : List Token} {t : Token} (ht : t ∈ tokens) :
    ∃ ps, Path tokens ps t := by
  obtain ⟨before, rest, rfl⟩ := List.append_of_mem ht
  exact ⟨_, .here before t rest⟩

theorem Path.enter {tokens us : List Token} {t u : Token} {ps : List Nat} (ht : t ∈ tokens)
    (hus : us ∈ t.sublists) (h : Path us ps u) : ∃ qs, Path tokens qs u := by
  obtain ⟨before, rest, rfl⟩ := List.append_of_mem ht
  exact ⟨_, .inside before rest hus h⟩

/-- A path ends in the list, or goes on inside of one of its tokens. -/
theorem Path.mem_or {tokens : List Token} {ps : List Nat} {u : Token} (h : Path tokens ps u) :
    u ∈ tokens ∨ ∃ t ∈ tokens, ∃ us ∈ t.sublists, ∃ qs, Path us qs u := by
  cases h with
  | here before t rest => exact .inl (by simp)
  | @inside before t rest us ps u hus h => exact .inr ⟨t, by simp, us, hus, ps, h⟩

/-- The levels on a path: the parentheses that are open in each of its lists,
and one for each list that it enters from a token. -/
def levelsOnPath : List Nat → Nat
  | [] => 0
  | [p] => p
  | p :: ps => p + 1 + levelsOnPath ps

variable {ts : List Token} {ps : List Nat} {u : Token} {d : Nat}

theorem depth_le_levels (before rest : List Token) (t : Token) :
    before.foldl depthAfter 0 ≤ levels (before ++ t :: rest) := by
  have hpeak := (levels_le_iff.mp (Nat.le_refl (levels (before ++ t :: rest)))).1
  rw [peak_append] at hpeak
  have := le_peak (before.foldl depthAfter 0) (t :: rest)
  omega

/-- A list needs as many levels as there are, in any of the lists on a path,
parentheses open and lists entered before. -/
theorem Path.add_le_levels (h : Path ts ps u) :
    ∀ i p, ps[i]? = some p → i + p ≤ levels ts := by
  induction h with
  | here before t rest =>
    intro i p hp
    obtain ⟨hi, rfl⟩ := List.getElem?_eq_some_iff.mp hp
    have hdepth := depth_le_levels before rest t
    simp only [List.length_singleton, Nat.lt_one_iff] at hi
    subst hi
    simpa using hdepth
  | @inside before t rest us ps u hus _ ih =>
    intro i p hp
    cases i with
    | zero =>
      have hdepth := depth_le_levels before rest t
      simp only [List.getElem?_cons_zero, Option.some.injEq] at hp
      omega
    | succ i =>
      have hinner := ih i p (by simpa using hp)
      have hsublists := (levels_le_iff.mp (Nat.le_refl (levels (before ++ t :: rest)))).2
      have houter := hsublists t (by simp) us hus
      omega

/-- Each list may have fewer parentheses open than the one before it, so the
levels on a path are at most `d + (d - 1) + ... + 1`, and `d` more for the
lists. -/
theorem two_mul_levelsOnPath_le (h : ∀ i p, ps[i]? = some p → i + p ≤ d) :
    2 * levelsOnPath ps ≤ d * (d + 3) := by
  induction ps generalizing d with
  | nil => exact Nat.zero_le _
  | cons p rest ih =>
    have hp : 0 + p ≤ d := h 0 p rfl
    cases rest with
    | nil =>
      have hle : d * 2 ≤ d * (d + 3) := Nat.mul_le_mul_left d (by omega)
      rw [levelsOnPath]
      omega
    | cons q rest =>
      have hq : 1 + q ≤ d := h 1 q rfl
      obtain ⟨d, rfl⟩ : ∃ d', d = d' + 1 := ⟨d - 1, by omega⟩
      have hrest : 2 * levelsOnPath (q :: rest) ≤ d * (d + 3) := ih fun i r hr => by
        have := h (i + 1) r hr
        omega
      have hexpand : (d + 1) * (d + 1 + 3) = d * (d + 3) + 2 * d + 4 := by
        simp only [Nat.mul_add, Nat.add_mul]
        omega
      rw [levelsOnPath]
      · omega
      · simp

/-! ## 2. What the limit for the depth bounds -/

/-- Where a parse succeeds, each list on a path has no more parentheses open
than the limit leaves after the lists entered before it. -/
theorem path_levels_of_parse (env : Environment) (limits : Limits) (tokens : List Token) (n : Expr)
    (h : parse env limits tokens = .ok n) (ps : List Nat) (u : Token) (hpath : Path tokens ps u) :
    (∀ i p, ps[i]? = some p → i + p ≤ limits.maxDepth) ∧
      2 * levelsOnPath ps ≤ limits.maxDepth * (limits.maxDepth + 3) := by
  have hlevels := levels_le_of_parseWithin (parse_eq_ok_iff.mp h)
  have hbound : ∀ i p, ps[i]? = some p → i + p ≤ limits.maxDepth :=
    fun i p hp => Nat.le_trans (hpath.add_le_levels i p hp) hlevels
  exact ⟨hbound, two_mul_levelsOnPath_le hbound⟩

/-- The way to the numerator of a fraction in parentheses, with one level in
all. -/
theorem path_levels_of_fraction :
    Path (parenthesized [.fraction [.lexeme (.variableName "x")] [.lexeme (.variableName "y")]])
      [1, 0] (.lexeme (.variableName "x")) ∧
    (∀ i p, [1, 0][i]? = some p → i + p ≤ 1) ∧ 2 * levelsOnPath [1, 0] ≤ 1 * (1 + 3) := by
  have hpath : Path
      (parenthesized [.fraction [.lexeme (.variableName "x")] [.lexeme (.variableName "y")]])
      [1, 0] (.lexeme (.variableName "x")) :=
    .inside [.lexeme (.punctuation .leftParen)] _ List.mem_cons_self (.here [] _ [])
  exact ⟨hpath, path_levels_of_parse .standard ⟨1, 2⟩ _
    (.arithmetic .divide (.free "x") (.free "y")) rfl _ _ hpath⟩

/-- The limit does not bound the levels on a path: the numerator of a
fraction in parentheses lies under two, and one is enough to parse it. -/
theorem not_levels_on_path_le :
    ¬ ∀ (env : Environment) (limits : Limits) (tokens : List Token) (n : Expr) (ps : List Nat)
      (l : Lexeme), parse env limits tokens = .ok n → Path tokens ps (.lexeme l) →
        levelsOnPath ps ≤ limits.maxDepth := by
  intro h
  have htwo : levelsOnPath [1, 0] ≤ 1 :=
    h .standard ⟨1, 2⟩
      (parenthesized [.fraction [.lexeme (.variableName "x")] [.lexeme (.variableName "y")]])
      (.arithmetic .divide (.free "x") (.free "y")) [1, 0] (.variableName "x") rfl
      (.inside [.lexeme (.punctuation .leftParen)] _ List.mem_cons_self (.here [] _ []))
  exact absurd htwo (by decide)

/-! ## 3. The most that it lets through -/

/-- A list in so many pairs of parentheses. -/
def Token.parenthesizedTimes (k : Nat) (ts : List Token) : List Token :=
  List.replicate k (.lexeme (.punctuation .leftParen)) ++
    (ts ++ List.replicate k (.lexeme (.punctuation .rightParen)))

theorem Token.parenthesizedTimes_succ (k : Nat) (ts : List Token) :
    parenthesizedTimes (k + 1) ts = parenthesized (parenthesizedTimes k ts) := by
  have hclose := List.replicate_succ' (n := k) (a := Token.lexeme (.punctuation .rightParen))
  rw [parenthesizedTimes, List.replicate_succ, hclose]
  simp [parenthesizedTimes, parenthesized]

theorem Derives.parenthesizedTimes {x : Lexicon} {n : Expr} (h : Derives x .atom ts n) (k : Nat) :
    Derives x .atom (Token.parenthesizedTimes k ts) n := by
  induction k with
  | zero => simpa [Token.parenthesizedTimes] using h
  | succ k ih =>
    rw [parenthesizedTimes_succ]
    exact (ih.loosen (Nat.zero_le _)).parenthesized

theorem Token.foldl_parenthesizedTimes (hts : ∀ j, ts.foldl depthAfter j = j) (k j : Nat) :
    (parenthesizedTimes k ts).foldl depthAfter j = j := by
  induction k generalizing j with
  | zero => simpa [parenthesizedTimes] using hts j
  | succ k ih =>
    rw [parenthesizedTimes_succ]
    simp only [parenthesized, List.foldl_cons, List.foldl_append, ih, List.foldl_nil]
    rfl

theorem Token.peak_parenthesizedTimes (hbalance : ∀ j, ts.foldl depthAfter j = j)
    (hts : ∀ j, peak j ts = j + 0) (k j : Nat) : peak j (parenthesizedTimes k ts) = j + k := by
  induction k generalizing j with
  | zero => simpa [parenthesizedTimes] using hts j
  | succ k ih =>
    rw [parenthesizedTimes_succ]
    exact peak_enclosed (foldl_parenthesizedTimes hbalance k) ih j

/-- Fractions in the numerators of fractions, each in one more pair of
parentheses than there are levels in it. -/
def nestedFractions : Nat → List Token
  | 0 => [.lexeme (.variableName "x")]
  | d + 1 =>
    parenthesizedTimes (d + 1) [.fraction (nestedFractions d) [.lexeme (.variableName "y")]]

/-- The tree of nested fractions. -/
def nestedQuotients : Nat → Expr
  | 0 => .free "x"
  | d + 1 => .arithmetic .divide (nestedQuotients d) (.free "y")

/-- The parentheses open on the way to the innermost numerator. -/
def nestedCounts : Nat → List Nat
  | 0 => [0]
  | d + 1 => (d + 1) :: nestedCounts d

theorem height_nestedQuotients (d : Nat) : (nestedQuotients d).height = d + 1 := by
  induction d with
  | zero => rfl
  | succ d ih =>
    simp only [nestedQuotients, Expr.height, ih]
    omega

theorem derives_variable (env : Environment) (name : String) :
    Derives env.lexicon .atom [.lexeme (.variableName name)] (.free name) :=
  .value rfl (Environment.value_of_denotes (.free rfl))

theorem derives_nestedFractions (env : Environment) (d : Nat) :
    Derives env.lexicon .atom (nestedFractions d) (nestedQuotients d) := by
  induction d with
  | zero => exact derives_variable env "x"
  | succ d ih =>
    have hfraction : env.lexicon.value
        (.fraction (nestedFractions d) [.lexeme (.variableName "y")]) (nestedQuotients (d + 1)) :=
      Environment.value_of_denotes (.fraction (ih.loosen (Nat.zero_le _))
        ((derives_variable env "y").loosen (Nat.zero_le _)))
    exact Derives.parenthesizedTimes (.value rfl hfraction) (d + 1)

theorem levels_nestedFractions (d : Nat) : levels (nestedFractions d) ≤ d := by
  induction d with
  | zero => exact Nat.le_refl 0
  | succ d ih =>
    have hpeak : peak 0 (nestedFractions (d + 1)) = 0 + (d + 1) :=
      peak_parenthesizedTimes (fun _ => rfl) (fun j => by simp [peak, depthAfter]) _ _
    refine levels_le_iff.mpr ⟨by omega, ?_⟩
    intro t ht us hus
    simp only [nestedFractions, parenthesizedTimes, List.mem_append, List.mem_replicate,
      List.mem_singleton] at ht
    rcases ht with ⟨-, rfl⟩ | rfl | ⟨-, rfl⟩
    · cases hus
    · simp only [sublists, List.mem_cons, List.not_mem_nil, or_false] at hus
      rcases hus with rfl | rfl
      · exact Nat.succ_le_succ ih
      · exact Nat.succ_le_succ (Nat.zero_le d)
    · cases hus

theorem path_nestedFractions (d : Nat) :
    Path (nestedFractions d) (nestedCounts d) (.lexeme (.variableName "x")) := by
  induction d with
  | zero => exact .here [] _ []
  | succ d ih =>
    have hopen : ∀ k j, (List.replicate k (Token.lexeme (.punctuation .leftParen))).foldl
        depthAfter j = j + k := by
      intro k
      induction k with
      | zero => exact fun j => rfl
      | succ k ih =>
        intro j
        rw [List.replicate_succ, List.foldl_cons, ih, depthAfter_leftParen rfl]
        omega
    have hsub : nestedFractions d ∈
        (Token.fraction (nestedFractions d) [.lexeme (.variableName "y")]).sublists :=
      List.mem_cons_self
    have hpath := Path.inside (List.replicate (d + 1) (.lexeme (.punctuation .leftParen)))
      (List.replicate (d + 1) (.lexeme (.punctuation .rightParen))) hsub ih
    rw [hopen, Nat.zero_add] at hpath
    exact hpath

theorem two_mul_levelsOnPath_nestedCounts (d : Nat) :
    2 * levelsOnPath (nestedCounts d) = d * (d + 3) := by
  induction d with
  | zero => rfl
  | succ d ih =>
    have hcons : levelsOnPath (nestedCounts (d + 1)) =
        d + 1 + 1 + levelsOnPath (nestedCounts d) := by
      cases d <;> rfl
    have hexpand : (d + 1) * (d + 1 + 3) = d * (d + 3) + 2 * d + 4 := by
      simp only [Nat.mul_add, Nat.add_mul]
      omega
    omega

/-- The bound is reached, at each limit. -/
theorem exists_path_of_levels (env : Environment) (d : Nat) :
    ∃ tokens n ps l, parse env ⟨d, d + 1⟩ tokens = .ok n ∧ Path tokens ps (.lexeme l) ∧
      2 * levelsOnPath ps = d * (d + 3) := by
  refine ⟨nestedFractions d, nestedQuotients d, nestedCounts d, .variableName "x", ?_,
    path_nestedFractions d, two_mul_levelsOnPath_nestedCounts d⟩
  refine parse_eq_ok_iff.mpr (Environment.parseWithin_of_levels_le
    ((derives_nestedFractions env d).loosen (Nat.zero_le _)) (levels_nestedFractions d) ?_)
  exact Nat.le_of_eq (height_nestedQuotients d)

end Formula
