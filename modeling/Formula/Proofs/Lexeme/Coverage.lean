/-
Formula.Proofs.Lexeme.Coverage — reading loses and invents nothing.

The lexemes of a text are parts of it, in order and without overlap, and what
lies between them is white space (`Spaced`). This holds for every table of
symbols, since a table can only answer with symbols that the text has room for;
a symbol with white space in it is a part as any other. Only where the symbols
have none are the lexemes all of the text that is not white space.

A reading is asked for one lexeme after the other. What is still to come of it
loses its first member with each question (`Reading.lexemes_next`), so after as
many questions as there are lexemes it answers with none, and goes on so.
-/
import Formula.Proofs.Lexeme.Cuts
import Formula.Proofs.Symbol.Tables
import Formula.Lexeme.Reader
import Formula.Environment.Standard

namespace Formula

/-! ## 1. Parts and gaps -/

/-- A text consists of parts, none of them empty, in their order, and of nothing
but white space before, between and behind them. -/
inductive Spaced : List Char → List (List Char) → Prop
  | nil {gap : List Char} (hgap : ∀ c ∈ gap, Text.isBlank c = true) : Spaced gap []
  | cons {gap part rest : List Char} {parts : List (List Char)}
      (hgap : ∀ c ∈ gap, Text.isBlank c = true) (hne : part ≠ []) (h : Spaced rest parts) :
      Spaced (gap ++ (part ++ rest)) (part :: parts)

namespace Spaced

variable {cs : List Char} {parts : List (List Char)}

/-- There are no more parts than characters. -/
theorem length_le (h : Spaced cs parts) : parts.length ≤ cs.length := by
  induction h with
  | nil => exact Nat.zero_le _
  | cons hgap hne h ih =>
    have hpos := List.length_pos_iff.mpr hne
    simp only [List.length_cons, List.length_append]
    omega

/-- If no part has white space in it, the parts are the text without its white
space. -/
theorem flatten_eq_filter (h : Spaced cs parts)
    (hparts : ∀ part ∈ parts, ∀ c ∈ part, Text.isBlank c = false) :
    parts.flatten = cs.filter fun c => !Text.isBlank c := by
  have hgone : ∀ gap : List Char, (∀ c ∈ gap, Text.isBlank c = true) →
      gap.filter (fun c => !Text.isBlank c) = [] := by
    intro gap hgap
    rw [List.filter_eq_nil_iff]
    intro c hc
    simp [hgap c hc]
  induction h with
  | nil hgap => exact (hgone _ hgap).symm
  | @cons gap part rest parts hgap hne h ih =>
    have hpart : part.filter (fun c => !Text.isBlank c) = part := by
      rw [List.filter_eq_self]
      intro c hc
      simp [hparts part (by simp) c hc]
    rw [List.filter_append, List.filter_append, hgone gap hgap, hpart, List.nil_append,
      List.flatten_cons, ih fun part hmem => hparts part (List.mem_cons_of_mem _ hmem)]

end Spaced

/-! ## 2. The lexemes of a text -/

namespace Reader

variable {r : Reader} {entries : List SymbolEntry} {cs rest : List Char} {l : Lexeme}

theorem next?_nil : r.next? [] = none := by
  cases h : r.next? [] with
  | none => rfl
  | some found => exact absurd (length_lt_of_next? h) (Nat.not_lt_zero _)

/-- Where no lexeme is left, there is only white space. -/
theorem trimLeft_of_next?_eq_none (h : r.next? cs = none) : Text.trimLeft cs = [] := by
  unfold next? take? at h
  split at h
  · cases h
  · split at h
    · cases h
    · split at h
      · assumption
      · split at h <;> cases h

/-- Before the next lexeme there is only white space. -/
theorem gap_of_next? (h : r.next? cs = some (l, rest)) :
    ∃ gap, (∀ c ∈ gap, Text.isBlank c = true) ∧ gap ++ (l.text.toList ++ rest) = cs := by
  obtain ⟨happ, -⟩ := append_of_take? h
  refine ⟨cs.takeWhile Text.isBlank, fun c hc => List.mem_takeWhile_imp hc, ?_⟩
  rw [happ]
  exact List.takeWhile_append_dropWhile

theorem cuts_of_next? (h : r.next? cs = some (l, rest)) :
    ∃ ds, (∀ c ∈ ds.head?, Text.isBlank c = false) ∧ r.Cuts ds l rest := by
  refine ⟨Text.trimLeft cs, fun c hc => ?_, take?_eq_some_iff.mp h⟩
  cases hcs : Text.trimLeft cs with
  | nil =>
    rw [hcs] at hc
    cases hc
  | cons d ds =>
    rw [hcs] at hc
    cases hc
    exact Text.isBlank_of_trimLeft_eq_cons hcs

/-- Every lexeme of a text was cut off, in front of something, where there was
no white space. -/
theorem exists_cuts_of_mem (hl : l ∈ r.lexemes cs) :
    ∃ ds rest, (∀ c ∈ ds.head?, Text.isBlank c = false) ∧ r.Cuts ds l rest := by
  fun_induction r.lexemes cs with
  | case1 cs hnone => cases hl
  | case2 cs first tail hsome _ ih =>
    rcases List.mem_cons.mp hl with rfl | hl
    · obtain ⟨ds, hhead, hcuts⟩ := cuts_of_next? hsome
      exact ⟨ds, tail, hhead, hcuts⟩
    · exact ih hl

theorem spaced_lexemes (r : Reader) (cs : List Char) :
    Spaced cs ((r.lexemes cs).map fun l => l.text.toList) := by
  fun_induction r.lexemes cs with
  | case1 cs hnone => exact .nil (List.dropWhile_eq_nil_iff.mp (trimLeft_of_next?_eq_none hnone))
  | case2 cs first tail hsome _ ih =>
    obtain ⟨gap, hgap, hcs⟩ := gap_of_next? hsome
    obtain ⟨-, hne⟩ := append_of_take? hsome
    rw [← hcs]
    exact .cons hgap hne ih

/-- Without white space in the symbols there is none in the lexemes. -/
theorem isBlank_of_mem_lexemes (hr : r.symbols.Finds entries) (hentries : Unspaced entries)
    (hl : l ∈ r.lexemes cs) : ∀ c ∈ l.text.toList, Text.isBlank c = false := by
  obtain ⟨ds, rest, hhead, hcuts⟩ := exists_cuts_of_mem hl
  exact hcuts.isBlank_of_mem hr hentries hhead

end Reader

/-! ## 3. Asking for lexemes -/

namespace Reading

/-- The lexemes that are still to come. -/
def lexemes (s : Reading) : List Lexeme := s.reader.lexemes s.rest

theorem next_fst (s : Reading) : s.next.1 = s.lexemes.head? := by
  unfold next lexemes
  cases h : s.reader.next? s.rest with
  | none => rw [Reader.lexemes_of_next?_eq_none h, List.head?_nil]
  | some found => rw [Reader.lexemes_of_next?_eq_some h, List.head?_cons]

/-- The answer to a question is no longer to come. -/
theorem lexemes_next (s : Reading) : s.next.2.lexemes = s.lexemes.tail := by
  unfold next
  cases h : s.reader.next? s.rest with
  | none =>
    have hrest := Reader.trimLeft_of_next?_eq_none h
    unfold lexemes
    simp only [hrest, Reader.lexemes_of_next?_eq_none h,
      Reader.lexemes_of_next?_eq_none Reader.next?_nil, List.tail_nil]
  | some found =>
    unfold lexemes
    simp only [Reader.lexemes_of_next?_eq_some h, List.tail_cons]

theorem lexemes_after (s : Reading) (k : Nat) : (s.after k).lexemes = s.lexemes.drop k := by
  induction k with
  | zero => rfl
  | succ k ih => rw [after, lexemes_next, ih, List.tail_drop]

/-- No more lexemes come than there are bytes left. -/
theorem length_lexemes_le (s : Reading) : s.lexemes.length ≤ s.sizeHint.2 := by
  have hlength := (s.reader.spaced_lexemes s.rest).length_le
  rw [List.length_map] at hlength
  exact Nat.le_trans hlength (Text.length_le_utf8Length s.rest)

end Reading

/-! ## 4. Nothing is lost -/

/-- The texts of the lexemes of a reading are parts of its text with only white
space around them, and all of it that is not white space if no symbol has white
space in it. The reading answers with just these lexemes and then with none at
any time, and what it says of how many are to come is an upper bound. -/
theorem lexemes_cover_text (s : Reading) :
    Spaced s.rest (s.lexemes.map fun l => l.text.toList) ∧
      (∀ k, (s.after k).next.1 = s.lexemes[k]?) ∧
      (∀ k, s.lexemes.length - k ≤ (s.after k).sizeHint.2) ∧
      ∀ entries, SymbolMap.BuiltFrom entries s.reader.symbols → Unspaced entries →
        (s.lexemes.flatMap fun l => l.text.toList) =
          s.rest.filter fun c => !Text.isBlank c := by
  have hspaced := s.reader.spaced_lexemes s.rest
  refine ⟨hspaced, fun k => ?answers, fun k => ?bound, fun entries hbuilt hentries => ?whole⟩
  case answers => rw [Reading.next_fst, Reading.lexemes_after, List.head?_drop]
  case bound =>
    rw [← List.length_drop, ← Reading.lexemes_after]
    exact (s.after k).length_lexemes_le
  case whole =>
    rw [List.flatMap_def]
    refine hspaced.flatten_eq_filter fun part hpart => ?_
    obtain ⟨l, hl, rfl⟩ := List.mem_map.mp hpart
    exact Reader.isBlank_of_mem_lexemes hbuilt.finds hentries hl

/-- Symbols that look like a digit, like a letter and like what ends a numeral. -/
def lookalikeSymbols : List SymbolEntry :=
  [(['1'], .plus), (['x', '2'], .power), (['.', '5'], .minus), (['\u00e9'], .times)]

theorem unspaced_lookalikeSymbols : Unspaced lookalikeSymbols := unspaced_of_all rfl

theorem lexemes_cover_text_lookalike :
    SymbolMap.BuiltFrom lookalikeSymbols (.ofBuckets (.ofEntries lookalikeSymbols)) ∧
      Unspaced lookalikeSymbols ∧
      ((Reading.lexemes ⟨⟨.ofBuckets (.ofEntries lookalikeSymbols), .standard⟩,
          "21 x2y\u00e9 3.5 ".toList⟩).flatMap fun l => l.text.toList) =
        "21x2y\u00e93.5".toList := by
  obtain ⟨-, -, -, hwhole⟩ := lexemes_cover_text
    ⟨⟨.ofBuckets (.ofEntries lookalikeSymbols), .standard⟩, "21 x2y\u00e9 3.5 ".toList⟩
  refine ⟨.buckets, unspaced_lookalikeSymbols, ?_⟩
  rw [hwhole lookalikeSymbols .buckets unspaced_lookalikeSymbols]
  decide +kernel

end Formula
