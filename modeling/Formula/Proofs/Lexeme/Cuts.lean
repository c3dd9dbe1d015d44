/-
Formula.Proofs.Lexeme.Cuts — what is cut off a text as a lexeme.

The symbols are those of any table, and may be made of letters, of digits or of
points, so nothing is known of what they may stop at. What is left is white
space: no numeral and no name goes past it, and no symbol does if none of the
entries has a blank in it (`Unspaced`).

`Cuts` is one lexeme, with the splitter that took it. It keeps its splitter when
a blank and anything else are put behind the text (`Cuts.append`), and when all
that follows the lexeme is taken away (`Cuts.alone`): the longest symbol of the
whole text is then the longest of its own text, and where the whole text starts
with none, no front of it does.
-/
import Formula.Proofs.Number.Numeral
import Formula.Proofs.Symbol.Longest
import Formula.Lexeme.Reader

namespace Formula

/-! ## 1. White space ends names and numerals -/

/-- A run of members with a property ends with the text in front of a member
without it. -/
theorem takeWhile_dropWhile_append_cons {α : Type} {p : α → Bool} {y : α} (hy : p y = false)
    (xs ys : List α) :
    (xs ++ y :: ys).takeWhile p = xs.takeWhile p ∧
      (xs ++ y :: ys).dropWhile p = xs.dropWhile p ++ y :: ys := by
  induction xs with
  | nil => simp [hy]
  | cons x xs ih =>
    simp only [List.cons_append, List.takeWhile_cons, List.dropWhile_cons]
    cases p x with
    | true => simp [ih]
    | false => simp

namespace Text

variable {c : Char}

theorem isNamePart_of_isBlank (h : isBlank c = true) : isNamePart c = false := by
  have hall : ∀ range ∈ blankRanges, ∀ n ∈ List.range' range.1 (range.2 + 1 - range.1),
      inRanges alphabeticRanges n = false ∧ inRanges numericRanges n = false ∧ n ≠ '_'.toNat := by
    decide +kernel
  obtain ⟨range, hrange, hlow, hhigh⟩ := exists_mem_of_inRanges h
  obtain ⟨halphabetic, hnumeric, hline⟩ := hall range hrange c.toNat (by
    rw [List.mem_range'_1]
    omega)
  have hne : c ≠ '_' := fun heq => hline (congrArg Char.toNat heq)
  simp [isNamePart, isAlphabetic, isNumeric, halphabetic, hnumeric, hne]

theorem isDigit_of_isBlank (h : isBlank c = true) : c.isDigit = false := by
  cases hdigit : c.isDigit with
  | false => rfl
  | true =>
    have hnumeral : Number.IsNumeral [c] := .whole (by simpa using hdigit) (List.cons_ne_nil _ _)
    rw [hnumeral.isBlank_of_mem (List.mem_singleton_self c)] at h
    cases h

theorem ne_point_of_isBlank (h : isBlank c = true) : c ≠ '.' := by
  rintro rfl
  cases h

end Text

namespace Number

/-- After a run of digits and a point, the numeral goes on. -/
theorem splitNumeral_of_point {cs tail : List Char}
    (h : cs.dropWhile Char.isDigit = '.' :: tail) :
    splitNumeral cs =
      if (cs.takeWhile Char.isDigit).isEmpty && (tail.takeWhile Char.isDigit).isEmpty then none
      else some (cs.takeWhile Char.isDigit ++ '.' :: tail.takeWhile Char.isDigit,
        tail.dropWhile Char.isDigit) := by
  unfold splitNumeral
  rw [h]
  rfl

/-- Without a point it is the run of digits. -/
theorem splitNumeral_of_no_point {cs : List Char}
    (h : ∀ tail, cs.dropWhile Char.isDigit ≠ '.' :: tail) :
    splitNumeral cs =
      if (cs.takeWhile Char.isDigit).isEmpty then none
      else some (cs.takeWhile Char.isDigit, cs.dropWhile Char.isDigit) := by
  unfold splitNumeral
  simp only

/-- A numeral is split off in front of a character that belongs to none as it is
at the end of the text. -/
theorem splitNumeral_append_cons {c : Char} (hdigit : c.isDigit = false) (hpoint : c ≠ '.')
    (cs rest : List Char) :
    splitNumeral (cs ++ c :: rest) =
      (splitNumeral cs).map fun parts => (parts.1, parts.2 ++ c :: rest) := by
  obtain ⟨htake, hdrop⟩ := takeWhile_dropWhile_append_cons hdigit cs rest
  by_cases h : ∃ tail, cs.dropWhile Char.isDigit = '.' :: tail
  · obtain ⟨tail, htail⟩ := h
    obtain ⟨htake', hdrop'⟩ := takeWhile_dropWhile_append_cons hdigit tail rest
    rw [htail, List.cons_append] at hdrop
    rw [splitNumeral_of_point htail, splitNumeral_of_point hdrop, htake, htake', hdrop']
    split <;> rfl
  · have hnone : ∀ tail, cs.dropWhile Char.isDigit ≠ '.' :: tail :=
      fun tail htail => h ⟨tail, htail⟩
    have hnone' : ∀ tail, (cs ++ c :: rest).dropWhile Char.isDigit ≠ '.' :: tail := by
      intro tail htail
      rw [hdrop] at htail
      cases hd : cs.dropWhile Char.isDigit with
      | nil =>
        rw [hd] at htail
        exact hpoint (List.cons.inj htail).1
      | cons d ds =>
        rw [hd] at htail
        exact hnone ds (by rw [hd, (List.cons.inj htail).1])
    rw [splitNumeral_of_no_point hnone, splitNumeral_of_no_point hnone', htake, hdrop]
    split <;> rfl

end Number

/-! ## 2. Symbols without white space -/

/-- No symbol of the entries has white space in it. -/
def Unspaced (entries : List SymbolEntry) : Prop :=
  ∀ entry ∈ entries, ∀ c ∈ entry.1, Text.isBlank c = false

theorem unspaced_of_all {entries : List SymbolEntry}
    (h : entries.all (fun entry => entry.1.all fun c => !Text.isBlank c) = true) :
    Unspaced entries := by
  intro entry hmem c hc
  simpa using List.all_eq_true.mp (List.all_eq_true.mp h entry hmem) c hc

/-- What has no blank ends in front of one. -/
theorem isPrefix_append_blank_iff {text cs rest : List Char} {b : Char}
    (htext : ∀ c ∈ text, Text.isBlank c = false) (hb : Text.isBlank b = true) :
    text <+: cs ++ b :: rest ↔ text <+: cs := by
  refine ⟨fun h => ?_, fun h => h.trans (List.prefix_append _ _)⟩
  rcases List.prefix_or_prefix_of_prefix h (List.prefix_append _ _) with h' | ⟨tail, rfl⟩
  · exact h'
  · have htail := (List.prefix_append_right_inj cs).mp h
    cases tail with
    | nil => simp
    | cons c tail =>
      obtain ⟨rfl, -⟩ := List.cons_prefix_cons.mp htail
      rw [htext c (by simp)] at hb
      cases hb

namespace SymbolMap.Finds

variable {m : SymbolMap} {entries : List SymbolEntry} {cs : List Char}

theorem isLongest (hm : m.Finds entries) {n : Nat} {kind : LexemeKind}
    (h : m.longest? cs = some (n, kind)) :
    IsLongest entries cs (cs.take n) kind ∧ (cs.take n).length = n := by
  obtain ⟨text, htext, rfl⟩ := (hm cs).eq_some_iff.mp h
  rw [← List.prefix_iff_eq_take.mp htext.front]
  exact ⟨htext, rfl⟩

/-- Of symbols without white space, the longest does not depend on what follows
a blank. -/
theorem longest?_append_blank (hm : m.Finds entries) (hentries : Unspaced entries) {b : Char}
    (hb : Text.isBlank b = true) (rest : List Char) :
    m.longest? (cs ++ b :: rest) = m.longest? cs := by
  have hfront : ∀ entry ∈ entries, entry.1 <+: cs ++ b :: rest ↔ entry.1 <+: cs :=
    fun entry hmem => isPrefix_append_blank_iff (hentries entry hmem) hb
  have hanswers : Answers entries List.length (cs ++ b :: rest) (m.longest? cs) := by
    cases hcs : m.longest? cs with
    | none =>
      refine .none fun entry hmem hne h => ?_
      exact (hm cs).eq_none_iff.mp hcs entry hmem hne ((hfront entry hmem).mp h)
    | some found =>
      obtain ⟨n, kind⟩ := found
      obtain ⟨text, htext, rfl⟩ := (hm cs).eq_some_iff.mp hcs
      refine .some ⟨htext.ne_nil, htext.front.trans (List.prefix_append _ _), htext.last, ?_⟩
      exact fun entry hmem h => htext.longest entry hmem ((hfront entry hmem).mp h)
  exact (hm _).unique hanswers

/-- The longest symbol of a text is the longest of its own text. -/
theorem longest?_take (hm : m.Finds entries) {n : Nat} {kind : LexemeKind}
    (h : m.longest? cs = some (n, kind)) : m.longest? (cs.take n) = some (n, kind) := by
  obtain ⟨htext, hn⟩ := hm.isLongest h
  refine (hm _).eq_some_iff.mpr ⟨cs.take n, ?_, hn.symm⟩
  refine ⟨htext.ne_nil, List.prefix_refl _, htext.last, fun entry hmem hentry => ?_⟩
  exact htext.longest entry hmem (hentry.trans htext.front)

theorem longest?_eq_none_of_isPrefix (hm : m.Finds entries) (h : m.longest? cs = none)
    {front : List Char} (hfront : front <+: cs) : m.longest? front = none := by
  refine (hm _).eq_none_iff.mpr fun entry hmem hne hentry => ?_
  exact (hm _).eq_none_iff.mp h entry hmem hne (hentry.trans hfront)

end SymbolMap.Finds

/-! ## 3. Cutting a lexeme off -/

namespace Reader

/-- No ASCII character before `A` is a letter. -/
theorem isAlphabetic_eq_false {c : Char} (h : c.toNat < 0x41) : Text.isAlphabetic c = false := by
  have hfirst : ∃ rest, Text.alphabeticRanges = (0x41, 0x5A) :: rest := ⟨_, rfl⟩
  obtain ⟨rest, hrest⟩ := hfirst
  rw [Text.isAlphabetic, hrest, Text.inRanges_cons, if_pos h]

/-- A text that starts with a letter starts with no numeral. -/
theorem splitNumeral_of_isAlphabetic {c : Char} {cs : List Char}
    (h : Text.isAlphabetic c = true) : Number.splitNumeral (c :: cs) = none := by
  have hlow : ¬ c.toNat < 0x41 := by
    intro hlt
    rw [isAlphabetic_eq_false hlt] at h
    cases h
  have hdigit : c.isDigit = false := by
    cases hc : c.isDigit with
    | false => rfl
    | true =>
      have := Number.toNat_of_isDigit hc
      omega
  have hpoint : c ≠ '.' := by
    rintro rfl
    exact hlow (by decide)
  unfold Number.splitNumeral
  simp only [List.takeWhile_cons, List.dropWhile_cons, hdigit]
  split
  · rename_i heq
    simp at heq
    exact absurd heq.1 hpoint
  · rfl

/-- A reader cuts a lexeme off the front of a text: as a symbol or, where the
text starts with none, as a numeral, as a name, or as a character by itself. -/
inductive Cuts (r : Reader) : List Char → Lexeme → List Char → Prop
  | symbol {cs : List Char} {n : Nat} {kind : LexemeKind}
      (h : r.symbols.longest? cs = some (n, kind)) :
      Cuts r cs ⟨kind, String.ofList (cs.take n)⟩ (cs.drop n)
  | numeral {cs numeral rest : List Char} (hsymbol : r.symbols.longest? cs = none)
      (h : Number.splitNumeral cs = some (numeral, rest)) :
      Cuts r cs (.number (String.ofList numeral)) rest
  | name {c : Char} {cs : List Char} (hsymbol : r.symbols.longest? (c :: cs) = none)
      (hletter : Text.isAlphabetic c = true) :
      Cuts r (c :: cs)
        ⟨r.environment.classify (String.ofList (c :: cs.takeWhile Text.isNamePart)),
          String.ofList (c :: cs.takeWhile Text.isNamePart)⟩
        (cs.dropWhile Text.isNamePart)
  | character {c : Char} {cs : List Char} (hsymbol : r.symbols.longest? (c :: cs) = none)
      (hnumeral : Number.splitNumeral (c :: cs) = none) (hletter : Text.isAlphabetic c = false) :
      Cuts r (c :: cs) (.variableName (String.ofList [c])) cs

variable {r : Reader} {entries : List SymbolEntry} {cs rest : List Char} {l : Lexeme}

theorem take?_eq_some_iff : r.take? cs = some (l, rest) ↔ r.Cuts cs l rest := by
  constructor
  · intro h
    unfold take? at h
    split at h
    · rename_i hsymbol
      simp only [Option.some.injEq, Prod.mk.injEq] at h
      obtain ⟨rfl, rfl⟩ := h
      exact .symbol hsymbol
    · rename_i hsymbol
      split at h
      · rename_i hnumeral
        simp only [Option.some.injEq, Prod.mk.injEq] at h
        obtain ⟨rfl, rfl⟩ := h
        exact .numeral hsymbol hnumeral
      · rename_i hnumeral
        split at h
        · cases h
        · split at h
          · rename_i hletter
            simp only [Option.some.injEq, Prod.mk.injEq] at h
            obtain ⟨rfl, rfl⟩ := h
            exact .name hsymbol hletter
          · rename_i hletter
            simp only [Option.some.injEq, Prod.mk.injEq] at h
            obtain ⟨rfl, rfl⟩ := h
            exact .character hsymbol hnumeral (by simpa using hletter)
  · intro h
    cases h with
    | symbol h => simp only [take?, h]
    | numeral hsymbol h => simp only [take?, hsymbol, h]
    | name hsymbol hletter =>
      simp only [take?, hsymbol, splitNumeral_of_isAlphabetic hletter, hletter, if_true]
    | character hsymbol hnumeral hletter =>
      simp only [take?, hsymbol, hnumeral, hletter, Bool.false_eq_true, if_false]

namespace Cuts

/-- A lexeme is cut off in front of a blank as it is at the end of the text. -/
theorem append (hr : r.symbols.Finds entries) (hentries : Unspaced entries)
    (h : r.Cuts cs l rest) {b : Char} (hb : Text.isBlank b = true) (t : List Char) :
    r.Cuts (cs ++ b :: t) l (rest ++ b :: t) := by
  have hsymbols : ∀ cs, r.symbols.longest? (cs ++ b :: t) = r.symbols.longest? cs :=
    fun cs => hr.longest?_append_blank hentries hb t
  have hnumerals := fun cs =>
    Number.splitNumeral_append_cons (Text.isDigit_of_isBlank hb) (Text.ne_point_of_isBlank hb) cs t
  cases h with
  | symbol h =>
    obtain ⟨-, hle⟩ := r.symbols.bounds_of_longest? h
    have hcut : r.Cuts (cs ++ b :: t) _ _ := .symbol ((hsymbols cs).trans h)
    rw [List.take_append_of_le_length hle, List.drop_append_of_le_length hle] at hcut
    exact hcut
  | numeral hsymbol h =>
    refine .numeral ((hsymbols cs).trans hsymbol) ?_
    rw [hnumerals, h, Option.map_some]
  | @name c cs hsymbol hletter =>
    obtain ⟨htake, hdrop⟩ :=
      takeWhile_dropWhile_append_cons (Text.isNamePart_of_isBlank hb) cs t
    have hcut : r.Cuts (c :: (cs ++ b :: t)) _ _ := .name ((hsymbols _).trans hsymbol) hletter
    rw [htake, hdrop] at hcut
    exact hcut
  | @character c cs hsymbol hnumeral hletter =>
    refine .character ((hsymbols _).trans hsymbol) ((hnumerals (c :: _)).trans ?_) hletter
    rw [hnumeral, Option.map_none]

/-- A lexeme is cut off its own text. -/
theorem alone (hr : r.symbols.Finds entries) (h : r.Cuts cs l rest) :
    r.Cuts l.text.toList l [] := by
  have hfront : l.text.toList <+: cs := ⟨rest, (append_of_take? (take?_eq_some_iff.mpr h)).1⟩
  cases h with
  | @symbol _ n kind h =>
    obtain ⟨-, hn⟩ := hr.isLongest h
    have hcut : r.Cuts (cs.take n) _ _ := .symbol (hr.longest?_take h)
    rw [List.take_of_length_le (Nat.le_of_eq hn), List.drop_of_length_le (Nat.le_of_eq hn)] at hcut
    rw [String.toList_ofList]
    exact hcut
  | @numeral _ numeral _ hsymbol h =>
    rw [Lexeme.number, String.toList_ofList] at hfront ⊢
    refine .numeral (hr.longest?_eq_none_of_isPrefix hsymbol hfront) ?_
    exact Number.splitNumeral_self (Number.isNumeral_of_splitNumeral h)
  | @name c cs hsymbol hletter =>
    rw [String.toList_ofList] at hfront ⊢
    have hparts : ∀ d ∈ cs.takeWhile Text.isNamePart, Text.isNamePart d = true :=
      fun d hd => List.mem_takeWhile_imp hd
    have htake := List.takeWhile_eq_self_iff.mpr hparts
    have hdrop := List.dropWhile_eq_nil_iff.mpr hparts
    have hcut : r.Cuts (c :: cs.takeWhile Text.isNamePart) _ _ :=
      .name (hr.longest?_eq_none_of_isPrefix hsymbol hfront) hletter
    rw [htake, hdrop] at hcut
    exact hcut
  | @character c cs hsymbol hnumeral hletter =>
    rw [Lexeme.variableName, String.toList_ofList] at hfront ⊢
    refine .character (hr.longest?_eq_none_of_isPrefix hsymbol hfront) ?_ hletter
    exact Number.splitNumeral_cons_eq_none (Number.isDigit_of_splitNumeral_eq_none hnumeral)
      (by simp)

/-- There is no white space in a lexeme that is cut off a text without white
space in front. -/
theorem isBlank_of_mem (hr : r.symbols.Finds entries) (hentries : Unspaced entries)
    (h : r.Cuts cs l rest) (hhead : ∀ c ∈ cs.head?, Text.isBlank c = false) :
    ∀ c ∈ l.text.toList, Text.isBlank c = false := by
  intro d hd
  cases h with
  | symbol h =>
    obtain ⟨htext, -⟩ := hr.isLongest h
    rw [String.toList_ofList] at hd
    exact hentries _ htext.mem d hd
  | numeral _ h =>
    rw [Lexeme.number, String.toList_ofList] at hd
    exact (Number.isNumeral_of_splitNumeral h).isBlank_of_mem hd
  | name _ _ =>
    rw [String.toList_ofList] at hd
    rcases List.mem_cons.mp hd with rfl | hd
    · exact hhead d rfl
    · cases hblank : Text.isBlank d with
      | false => rfl
      | true =>
        have hpart := List.mem_takeWhile_imp hd
        rw [Text.isNamePart_of_isBlank hblank] at hpart
        cases hpart
  | character _ _ _ =>
    rw [Lexeme.variableName, String.toList_ofList, List.mem_singleton] at hd
    exact hhead d (hd ▸ rfl)

end Cuts

end Reader

end Formula
