/-
Formula.Proofs.Lexeme.Numbers — what is read as a number.

What a number is, is decided in two places: where the front of a text is cut off
as one, and where a lexeme is taken as a leaf. The first takes the longest front
of digits with at most one point, and takes nothing if there is no digit in it
(`LongestNumeric`, `splitNumeral_eq`). The second takes a numeral with white
space around it, and nothing else (`leaf_number_iff`).

So a leaf takes what was cut off as a numeral. A table of symbols, though, may
give any text as a number, and such a lexeme is taken only if its text happens to
be a numeral.
-/
import Formula.Proofs.Symbol.Tables
import Formula.Proofs.Lexeme.Separation
import Formula.Parse.Operand

namespace Formula

namespace Number

variable {cs front rest : List Char}

/-! ## 1. The longest front of digits and a point -/

/-- Digits with at most one point. Unlike in a numeral there may be no digit. -/
structure Numeric (cs : List Char) : Prop where
  isDigit : ∀ c ∈ cs, c.isDigit = true ∨ c = '.'
  count : cs.count '.' ≤ 1

/-- The longest of the fronts of a text that are digits with at most one
point. -/
structure LongestNumeric (cs front : List Char) : Prop where
  isPrefix : front <+: cs
  numeric : Numeric front
  longest : ∀ other, other <+: cs → Numeric other → other.length ≤ front.length

theorem Numeric.of_isPrefix (h : Numeric cs) (hfront : front <+: cs) : Numeric front where
  isDigit c hc := h.isDigit c (hfront.subset hc)
  count := (hfront.sublist.count_le '.').trans h.count

theorem count_point_of_isDigit {ds : List Char} (h : ∀ c ∈ ds, c.isDigit = true) :
    ds.count '.' = 0 := by
  refine List.count_eq_zero.mpr fun hmem => ?_
  cases h '.' hmem

theorem Numeric.digits (h : ∀ c ∈ cs, c.isDigit = true) : Numeric cs where
  isDigit c hc := .inl (h c hc)
  count := by
    rw [count_point_of_isDigit h]
    exact Nat.zero_le 1

theorem Numeric.point {whole fraction : List Char} (hw : ∀ c ∈ whole, c.isDigit = true)
    (hf : ∀ c ∈ fraction, c.isDigit = true) : Numeric (whole ++ '.' :: fraction) where
  isDigit c hc := by
    rcases List.mem_append.mp hc with hc | hc
    · exact .inl (hw c hc)
    · rcases List.mem_cons.mp hc with rfl | hc
      · exact .inr rfl
      · exact .inl (hf c hc)
  count := by
    rw [List.count_append, List.count_cons_self, count_point_of_isDigit hw,
      count_point_of_isDigit hf]

/-- Another character makes digits with a point into something else, unless it is
a digit, or it is a point and there is none so far. -/
theorem not_numeric_concat {c : Char} (hdigit : c.isDigit = false)
    (hpoint : c = '.' → '.' ∈ front) : ¬ Numeric (front ++ [c]) := by
  intro h
  rcases h.isDigit c (by simp) with hc | rfl
  · rw [hdigit] at hc
    cases hc
  · have hcount := h.count
    have hpos := List.count_pos_iff.mpr (hpoint rfl)
    rw [List.count_append, List.count_singleton_self] at hcount
    omega

namespace LongestNumeric

theorem unique {other : List Char} (h : LongestNumeric cs front)
    (hother : LongestNumeric cs other) : front = other := by
  have hle := h.longest other hother.isPrefix hother.numeric
  have hge := hother.longest front h.isPrefix h.numeric
  exact (List.prefix_of_prefix_length_le h.isPrefix hother.isPrefix hge).eq_of_length (by omega)

/-- A front is the longest if the next character cannot be added to it. -/
theorem of_stop (hcs : cs = front ++ rest) (hfront : Numeric front)
    (hstop : ∀ c ∈ rest.head?, ¬ Numeric (front ++ [c])) : LongestNumeric cs front := by
  subst hcs
  refine ⟨List.prefix_append _ _, hfront, fun other hother hnumeric => ?_⟩
  by_contra hlt
  obtain ⟨tail, rfl⟩ := List.prefix_of_prefix_length_le (List.prefix_append front rest) hother
    (by omega)
  have htail : tail <+: rest := (List.prefix_append_right_inj front).mp hother
  cases tail with
  | nil => exact hlt (by rw [List.append_nil])
  | cons c tail =>
    obtain ⟨rest, rfl⟩ := htail
    refine hstop c rfl (hnumeric.of_isPrefix ?_)
    exact (List.prefix_append_right_inj front).mpr ⟨tail, rfl⟩

end LongestNumeric

theorem isDigit_of_mem_takeWhile (ds : List Char) :
    ∀ c ∈ ds.takeWhile Char.isDigit, c.isDigit = true := fun _ hc => List.mem_takeWhile_imp hc

theorem isDigit_of_head?_dropWhile (ds : List Char) :
    ∀ c ∈ (ds.dropWhile Char.isDigit).head?, c.isDigit = false := by
  intro c hc
  simpa [Option.mem_def.mp hc] using List.head?_dropWhile_not Char.isDigit ds

theorem any_isDigit_takeWhile (ds : List Char) :
    (ds.takeWhile Char.isDigit).any Char.isDigit = !(ds.takeWhile Char.isDigit).isEmpty := by
  cases htake : ds.takeWhile Char.isDigit with
  | nil => rfl
  | cons d tail => simp [isDigit_of_mem_takeWhile ds d (by simp [htake])]

/-- Of the longest front it only matters whether there is a digit in it. -/
theorem exists_longestNumeric (cs : List Char) :
    ∃ front rest, cs = front ++ rest ∧ LongestNumeric cs front ∧
      splitNumeral cs = if front.any Char.isDigit then some (front, rest) else none := by
  have hcs := (List.takeWhile_append_dropWhile (p := Char.isDigit) (l := cs)).symm
  have hdigits := isDigit_of_mem_takeWhile cs
  by_cases h : ∃ tail, cs.dropWhile Char.isDigit = '.' :: tail
  · obtain ⟨tail, htail⟩ := h
    have hsplit : cs = (cs.takeWhile Char.isDigit ++ '.' :: tail.takeWhile Char.isDigit) ++
        tail.dropWhile Char.isDigit := by
      rw [List.append_assoc, List.cons_append, List.takeWhile_append_dropWhile, ← htail]
      exact hcs
    have hfront := Numeric.point hdigits (isDigit_of_mem_takeWhile tail)
    refine ⟨_, _, hsplit, .of_stop hsplit hfront fun c hc => ?_, ?_⟩
    · -- A second point is too many.
      exact not_numeric_concat (isDigit_of_head?_dropWhile tail c hc) fun _ => by simp
    · rw [splitNumeral_of_point htail, List.any_append, List.any_cons, any_isDigit_takeWhile,
        any_isDigit_takeWhile]
      cases (cs.takeWhile Char.isDigit).isEmpty <;> cases (tail.takeWhile Char.isDigit).isEmpty <;>
        rfl
  · have hpoint : ∀ tail, cs.dropWhile Char.isDigit ≠ '.' :: tail :=
      fun tail htail => h ⟨tail, htail⟩
    refine ⟨_, _, hcs, .of_stop hcs (.digits hdigits) fun c hc => ?_, ?_⟩
    · refine not_numeric_concat (isDigit_of_head?_dropWhile cs c hc) fun hpoint' => ?_
      obtain ⟨tail, htail⟩ := List.head?_eq_some_iff.mp hc
      exact absurd (hpoint' ▸ htail) (hpoint tail)
    · rw [splitNumeral_of_no_point hpoint, any_isDigit_takeWhile]
      cases (cs.takeWhile Char.isDigit).isEmpty <;> rfl

/-- A numeral is split off where the longest front of digits with at most one
point has a digit, and it is this front. -/
theorem LongestNumeric.splitNumeral_eq_some_iff (h : LongestNumeric cs front)
    {numeral : List Char} :
    splitNumeral cs = some (numeral, rest) ↔
      (∃ c ∈ front, c.isDigit = true) ∧ numeral = front ∧ cs = front ++ rest := by
  obtain ⟨front', rest', rfl, hlongest, hsplit⟩ := exists_longestNumeric cs
  obtain rfl := h.unique hlongest
  rw [hsplit, ← List.any_eq_true, List.append_right_inj]
  split
  · rename_i hany
    simp only [Option.some.injEq, Prod.mk.injEq, hany, true_and]
    exact and_congr_left' eq_comm
  · rename_i hany
    simp [hany]

end Number

/-! ## 2. The leaf of a number -/

namespace Context

variable {ctx : Context} {text : String}

/-- A number is taken as a leaf where its text is a numeral with white space
around it. -/
theorem isOk_leaf_number_iff :
    (∃ n, ctx.leaf (.number text) = .ok n) ↔ Number.IsNumeral (Text.trim text.toList) := by
  simp only [leaf, Lexeme.number]
  constructor
  · rintro ⟨n, hn⟩
    split at hn
    · rename_i numeral hsplit
      have happ := Number.append_of_splitNumeral hsplit
      rw [List.append_nil] at happ
      exact happ ▸ Number.isNumeral_of_splitNumeral hsplit
    · cases hn
  · intro h
    rw [Number.splitNumeral_self h]
    exact ⟨_, rfl⟩

theorem leaf_of_isNumeral (h : Number.IsNumeral text.toList) :
    ctx.leaf (.number text) = .ok (.literal (Number.Binary64.ofNumeral text.toList)) := by
  simp only [leaf, Lexeme.number, h.trim_eq, Number.splitNumeral_self h]

end Context

/-! ## 3. The numbers of a text -/

/-- Whether a table has a text as a symbol of a kind. -/
def SymbolMap.Gives (m : SymbolMap) (symbol : List Char) (kind : LexemeKind) : Prop :=
  ∃ cs n, m.longest? cs = some (n, kind) ∧ cs.take n = symbol

theorem SymbolMap.not_gives_number_standard (symbol : List Char) :
    ¬ SymbolMap.standard.Gives symbol .number := by
  rintro ⟨cs, n, hn, -⟩
  cases isWord_of_standard hn

/-- A number that a text is cut into is a symbol of the table, or else a
numeral. -/
theorem Reader.isNumeral_of_mem {r : Reader} {cs : List Char} {l : Lexeme}
    (hl : l ∈ r.lexemes cs) (hk : l.kind = .number)
    (hsymbol : ¬ r.symbols.Gives l.text.toList .number) : Number.IsNumeral l.text.toList := by
  obtain ⟨ds, rest, -, hcuts⟩ := exists_cuts_of_mem hl
  cases hcuts with
  | symbol h =>
    cases hk
    exact absurd ⟨_, _, h, (String.toList_ofList ..).symm⟩ hsymbol
  | numeral _ h =>
    rw [Lexeme.number, String.toList_ofList]
    exact Number.isNumeral_of_splitNumeral h
  | name _ _ => exact absurd hk Environment.classify_ne_number
  | character _ _ _ => cases hk

theorem Context.isOk_leaf_of_mem (ctx : Context) {r : Reader} {cs : List Char} {l : Lexeme}
    (hl : l ∈ r.lexemes cs) (hk : l.kind = .number)
    (hsymbol : ¬ r.symbols.Gives l.text.toList .number) : ∃ n, ctx.leaf l = .ok n := by
  have hnumeral := Reader.isNumeral_of_mem hl hk hsymbol
  obtain ⟨kind, text⟩ := l
  obtain rfl : kind = .number := hk
  exact ⟨_, leaf_of_isNumeral hnumeral⟩

/-- A number is split off a text exactly where the longest front of digits with
at most one point has a digit, and it is this front. A number is taken as a leaf
exactly where its text, without the white space around it, is a numeral. So every
number that a text is cut into is taken as a leaf, if it is no symbol of the
table; and the usual symbols are no numbers. -/
theorem numbers_exact (ctx : Context) :
    (∀ cs, ∃ front, Number.LongestNumeric cs front ∧ ∀ numeral rest,
        Number.splitNumeral cs = some (numeral, rest) ↔
          (∃ c ∈ front, c.isDigit = true) ∧ numeral = front ∧ cs = front ++ rest) ∧
      (∀ text, (∃ n, ctx.leaf ⟨.number, text⟩ = .ok n) ↔
        Number.IsNumeral (Text.trim text.toList)) ∧
      (∀ (r : Reader) cs, ∀ l ∈ r.lexemes cs, l.kind = .number →
        ¬ r.symbols.Gives l.text.toList .number → ∃ n, ctx.leaf l = .ok n) ∧
      ∀ env cs, ∀ l ∈ (Reader.standard env).lexemes cs, l.kind = .number →
        ∃ n, ctx.leaf l = .ok n := by
  refine ⟨fun cs => ?split, fun _ => Context.isOk_leaf_number_iff,
    fun _ _ _ hl => ctx.isOk_leaf_of_mem hl, fun _ _ _ hl hk => ?standard⟩
  case split =>
    obtain ⟨front, _, -, hfront, -⟩ := Number.exists_longestNumeric cs
    exact ⟨front, hfront, fun _ _ => hfront.splitNumeral_eq_some_iff⟩
  case standard => exact ctx.isOk_leaf_of_mem hl hk (SymbolMap.not_gives_number_standard _)

/-- A reader with a single symbol, a number with an exponent. -/
def Reader.exponent : Reader :=
  ⟨.ofBuckets (.ofEntries [("1e5".toList, .number)]), .standard⟩

theorem Reader.lexemes_exponent :
    Reader.exponent.lexemes "1e5".toList = [⟨.number, "1e5"⟩] ∧
      Reader.exponent.lexemes "2.5".toList = [⟨.number, "2.5"⟩] := by
  have hnil : Reader.exponent.lexemes [] = [] := lexemes_of_next?_eq_none (by decide +kernel)
  constructor
  · have hnext : Reader.exponent.next? "1e5".toList = some (⟨.number, "1e5"⟩, []) := by
      decide +kernel
    rw [lexemes_of_next?_eq_some hnext, hnil]
  · have hnext : Reader.exponent.next? "2.5".toList = some (⟨.number, "2.5"⟩, []) := by
      decide +kernel
    rw [lexemes_of_next?_eq_some hnext, hnil]

theorem Reader.not_gives_exponent :
    ¬ Reader.exponent.symbols.Gives "2.5".toList .number := by
  rintro ⟨cs, n, hn, hsymbol⟩
  obtain ⟨htext, -⟩ := (Buckets.finds_ofEntries [("1e5".toList, .number)]).isLongest hn
  rw [hsymbol] at htext
  exact absurd htext.mem (by decide)

/-- What a list of tokens without markup is given. -/
def Context.flat : Context :=
  ⟨.standard, .standard, 0, fun _ => .error (.nestingTooDeep Limits.standard.maxDepth)⟩

/-- Of `2.5.` the second point is left over, and `2.5` is a leaf. -/
theorem numbers_exact_points :
    (∃ front, Number.LongestNumeric "2.5.".toList front ∧ front = "2.5".toList) ∧
      (∃ n, Context.flat.leaf ⟨.number, " 2.5 "⟩ = .ok n) ∧
      (∃ l ∈ Reader.exponent.lexemes "2.5".toList, ∃ n, Context.flat.leaf l = .ok n) ∧
      ∃ l ∈ (Reader.standard .standard).lexemes "2.5".toList,
        ∃ n, Context.flat.leaf l = .ok n := by
  obtain ⟨hsplit, hleaf, hread, hstandard⟩ := numbers_exact Context.flat
  have hself : Number.splitNumeral "2.5".toList = some ("2.5".toList, []) := rfl
  have hnumeral := Number.isNumeral_of_splitNumeral hself
  refine ⟨?split, (hleaf " 2.5 ").mpr hnumeral, ?read, ?standard⟩
  case split =>
    obtain ⟨front, hfront, hiff⟩ := hsplit "2.5.".toList
    exact ⟨front, hfront, ((hiff "2.5".toList ['.']).mp rfl).2.1.symm⟩
  case read =>
    have hl : ⟨.number, "2.5"⟩ ∈ Reader.exponent.lexemes "2.5".toList := by
      rw [Reader.lexemes_exponent.2]
      exact List.mem_singleton_self _
    exact ⟨_, hl, hread _ _ _ hl rfl Reader.not_gives_exponent⟩
  case standard =>
    have hl : ⟨.number, "2.5"⟩ ∈ (Reader.standard .standard).lexemes "2.5".toList := by
      rw [Reader.lexemes_numeral hnumeral]
      exact List.mem_singleton_self _
    exact ⟨_, hl, hstandard _ _ _ hl rfl⟩

/-- A symbol that is a number may have another shape than a numeral, and is then
refused as a leaf. -/
theorem leaf_refuses_exponent :
    ¬ ∀ (ctx : Context) (r : Reader) (cs : List Char), ∀ l ∈ r.lexemes cs, l.kind = .number →
      ∃ n, ctx.leaf l = .ok n := by
  intro h
  have hl : ⟨.number, "1e5"⟩ ∈ Reader.exponent.lexemes "1e5".toList := by
    rw [Reader.lexemes_exponent.1]
    exact List.mem_singleton_self _
  have hnumeral : Number.IsNumeral "1e5".toList :=
    Context.isOk_leaf_number_iff.mp (h Context.flat Reader.exponent _ _ hl rfl)
  have he := hnumeral.isDigit_of_mem (c := 'e') (by decide)
  revert he
  decide

end Formula
