/-
Formula.Proofs.Lexeme.Gaps — white space divides a text into texts.

Two texts with white space between them have the lexemes of the one and then
those of the other, whatever the symbols are, as long as no symbol has white
space in it. A symbol with a blank in it could join the end of the first text to
the beginning of the second.

Each lexeme is also the only lexeme of its own text. From both, the lexemes of a
text can be written with single spaces between them and read again.
-/
import Formula.Proofs.Lexeme.Coverage
import Formula.Parse

namespace Formula

theorem isBlank_of_mem_space : ∀ c ∈ " ".toList, Text.isBlank c = true := by
  intro c hc
  obtain rfl : c = ' ' := by simpa using hc
  rfl

namespace Reader

variable {r : Reader} {entries : List SymbolEntry} {cs rest : List Char} {l : Lexeme}

/-! ## 1. Gaps -/

/-- What is read of a text starts where its first white space ends. -/
theorem lexemes_congr {cs ds : List Char} (h : Text.trimLeft cs = Text.trimLeft ds) :
    r.lexemes cs = r.lexemes ds := by
  have hnext : r.next? cs = r.next? ds := by rw [next?, next?, h]
  cases hds : r.next? ds with
  | none => rw [lexemes_of_next?_eq_none hds, lexemes_of_next?_eq_none (hnext.trans hds)]
  | some found => rw [lexemes_of_next?_eq_some hds, lexemes_of_next?_eq_some (hnext.trans hds)]

theorem lexemes_gap_append {gap : List Char} (hgap : ∀ c ∈ gap, Text.isBlank c = true)
    (cs : List Char) : r.lexemes (gap ++ cs) = r.lexemes cs :=
  lexemes_congr (List.dropWhile_append_of_pos hgap)

/-- The next lexeme does not depend on what follows a blank. -/
theorem next?_append_blank (hr : r.symbols.Finds entries) (hentries : Unspaced entries)
    (h : r.next? cs = some (l, rest)) {b : Char} (hb : Text.isBlank b = true) (t : List Char) :
    r.next? (cs ++ b :: t) = some (l, rest ++ b :: t) := by
  have hne : Text.trimLeft cs ≠ [] := by
    obtain ⟨happ, hne⟩ := append_of_take? h
    rw [← happ]
    exact List.append_ne_nil_of_left_ne_nil hne _
  have htrim : Text.trimLeft (cs ++ b :: t) = Text.trimLeft cs ++ b :: t := by
    unfold Text.trimLeft at hne ⊢
    rw [List.dropWhile_append, if_neg (by simpa using hne)]
  rw [next?, htrim]
  exact take?_eq_some_iff.mpr ((take?_eq_some_iff.mp h).append hr hentries hb t)

theorem lexemes_append_blank (hr : r.symbols.Finds entries) (hentries : Unspaced entries)
    {b : Char} (hb : Text.isBlank b = true) (cs t : List Char) :
    r.lexemes (cs ++ b :: t) = r.lexemes cs ++ r.lexemes t := by
  fun_induction r.lexemes cs with
  | case1 cs hnone =>
    have hblank := List.dropWhile_eq_nil_iff.mp (trimLeft_of_next?_eq_none hnone)
    have hgap : ∀ c ∈ cs ++ [b], Text.isBlank c = true := by
      intro c hc
      rcases List.mem_append.mp hc with hc | hc
      · exact hblank c hc
      · rw [List.mem_singleton.mp hc, hb]
    rw [List.append_cons]
    exact lexemes_gap_append hgap t
  | case2 cs first tail hsome _ ih =>
    rw [lexemes_of_next?_eq_some (next?_append_blank hr hentries hsome hb t), ih, List.cons_append]

/-- White space between two texts keeps their lexemes apart. -/
theorem lexemes_append_gap (hr : r.symbols.Finds entries) (hentries : Unspaced entries)
    {gap : List Char} (hgap : ∀ c ∈ gap, Text.isBlank c = true) (hne : gap ≠ [])
    (cs t : List Char) : r.lexemes (cs ++ gap ++ t) = r.lexemes cs ++ r.lexemes t := by
  cases gap with
  | nil => exact absurd rfl hne
  | cons b gap =>
    obtain ⟨hb, hgap⟩ := List.forall_mem_cons.mp hgap
    rw [List.append_assoc, List.cons_append, lexemes_append_blank hr hentries hb,
      lexemes_gap_append hgap]

/-! ## 2. Single lexemes -/

/-- A lexeme of any text is the lexeme of its own text. -/
theorem lexemes_of_mem (hr : r.symbols.Finds entries) (hentries : Unspaced entries)
    (hl : l ∈ r.lexemes cs) : r.lexemes l.text.toList = [l] := by
  obtain ⟨ds, rest, hhead, hcuts⟩ := exists_cuts_of_mem hl
  have hblank := hcuts.isBlank_of_mem hr hentries hhead
  have htrim : Text.trimLeft l.text.toList = l.text.toList := by
    cases hcs : l.text.toList with
    | nil => rfl
    | cons c cs => rw [Text.trimLeft_cons, if_neg (by simp [hblank c (by simp [hcs])])]
  have hnext : r.next? l.text.toList = some (l, []) := by
    rw [next?, htrim]
    exact take?_eq_some_iff.mpr (hcuts.alone hr)
  rw [lexemes_of_next?_eq_some hnext, lexemes_of_next?_eq_none next?_nil]

/-- Lexemes that are read from their own texts are read from these texts with
spaces between them. -/
theorem lexemes_intercalate (hr : r.symbols.Finds entries) (hentries : Unspaced entries)
    {ls : List Lexeme} (hls : ∀ l ∈ ls, r.lexemes l.text.toList = [l]) :
    r.lexemes (String.intercalate " " (ls.map Lexeme.text)).toList = ls := by
  induction ls with
  | nil => exact lexemes_of_next?_eq_none next?_nil
  | cons l ls ih =>
    obtain ⟨hl, hls⟩ := List.forall_mem_cons.mp hls
    cases ls with
    | nil =>
      rw [List.map_singleton, String.intercalate_singleton]
      exact hl
    | cons l' ls =>
      rw [List.map_cons, List.map_cons, String.intercalate_cons_cons, ← List.map_cons,
        String.toList_append, String.toList_append,
        lexemes_append_gap hr hentries isBlank_of_mem_space (by decide), hl, ih hls,
        List.singleton_append]

end Reader

/-! ## 3. Texts with spaces -/

/-- If no symbol has white space in it, white space between two texts keeps their
tokens apart, every token is the only one of its own text, and a list of tokens
that was read is read again from its spelling. -/
theorem tokens_at_gaps {entries : List SymbolEntry} {r : Reader}
    (hbuilt : SymbolMap.BuiltFrom entries r.symbols)
    (hentries : ∀ entry ∈ entries, ∀ c ∈ entry.1, Text.isBlank c = false) :
    (∀ s w t : String, w ≠ "" → (∀ c ∈ w.toList, Text.isBlank c = true) →
        r.tokens (s ++ w ++ t) = r.tokens s ++ r.tokens t) ∧
      (∀ text, ∀ token ∈ r.tokens text, r.tokens token.text = [token]) ∧
      ∀ text, r.tokens (Token.listText (r.tokens text)) = r.tokens text := by
  have hr := hbuilt.finds
  refine ⟨fun s w t hne hgap => ?apart, fun text token htoken => ?alone, fun text => ?joined⟩
  case apart =>
    have hne' : w.toList ≠ [] := fun h => hne (String.toList_eq_nil_iff.mp h)
    unfold Reader.tokens
    rw [String.toList_append, String.toList_append,
      Reader.lexemes_append_gap hr hentries hgap hne', List.map_append]
  case alone =>
    obtain ⟨l, hl, rfl⟩ := List.mem_map.mp htoken
    show (r.lexemes l.text.toList).map Token.lexeme = [.lexeme l]
    rw [Reader.lexemes_of_mem hr hentries hl, List.map_singleton]
  case joined =>
    have htexts : (r.tokens text).map Token.text = (r.lexemes text.toList).map Lexeme.text := by
      unfold Reader.tokens
      rw [List.map_map]
      rfl
    have hjoined := Reader.lexemes_intercalate hr hentries
      fun l (hl : l ∈ r.lexemes text.toList) => Reader.lexemes_of_mem hr hentries hl
    rw [Token.listText, Token.texts_eq_map, htexts, Reader.tokens, hjoined, Reader.tokens]

/-- The reader of the standard environment with symbols that look like others. -/
def Reader.lookalike : Reader := ⟨.ofBuckets (.ofEntries lookalikeSymbols), .standard⟩

/-- Without the space, `x2` is a symbol. -/
theorem tokens_at_gaps_lookalike :
    SymbolMap.BuiltFrom lookalikeSymbols Reader.lookalike.symbols ∧ Unspaced lookalikeSymbols ∧
      Reader.lookalike.tokens "x 2" =
        Reader.lookalike.tokens "x" ++ Reader.lookalike.tokens "2" ∧
      Reader.lookalike.tokens (Token.listText (Reader.lookalike.tokens "x2.5 x 2")) =
        Reader.lookalike.tokens "x2.5 x 2" := by
  obtain ⟨hapart, -, hjoined⟩ :=
    tokens_at_gaps (r := Reader.lookalike) .buckets unspaced_lookalikeSymbols
  refine ⟨.buckets, unspaced_lookalikeSymbols, ?_, hjoined "x2.5 x 2"⟩
  exact hapart "x" " " "2" (by decide) isBlank_of_mem_space

end Formula
