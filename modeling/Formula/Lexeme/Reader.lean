/-
Formula.Lexeme.Reader — the lexemes of a plain text.

A reader skips white space and then takes, in this order, the longest
symbol of its table, a numeral, a name, or else a single character, which
counts as a free name. Names are runs of letters, digits and underscores
that start with a letter, and the environment says what they are.

A `Reading` holds a reader and what is left of the text. It can be asked for
a lexeme at any time, also after the last one, and says at any time how many
more there can be.
-/
import Formula.Symbol.Trie
import Formula.Environment.Basic
import Formula.Number.Decimal
import Formula.Text.Classes

namespace Formula

/-- What is needed to read a text: the symbols, and the meaning of
names. -/
structure Reader where
  symbols : SymbolMap
  environment : Environment

namespace Reader

/-- A reader of the usual symbols. -/
def standard (env : Environment) : Reader := ⟨.standard, env⟩

/-! ## 1. One lexeme -/

/-- The lexeme at the front of a text that starts with no white space, and
the text after it. -/
def take? (r : Reader) (cs : List Char) : Option (Lexeme × List Char) :=
  match r.symbols.longest? cs with
  | some (n, kind) => some (⟨kind, String.ofList (cs.take n)⟩, cs.drop n)
  | none =>
    match Number.splitNumeral cs with
    | some (numeral, rest) => some (.number (String.ofList numeral), rest)
    | none =>
      match cs with
      | [] => none
      | c :: rest =>
        if Text.isAlphabetic c then
          let name := String.ofList (c :: rest.takeWhile Text.isNamePart)
          some (⟨r.environment.classify name, name⟩, rest.dropWhile Text.isNamePart)
        else some (.variableName (String.ofList [c]), rest)

/-- The next lexeme of a text, and the text after it. There is none if only
white space is left. -/
def next? (r : Reader) (cs : List Char) : Option (Lexeme × List Char) :=
  r.take? (Text.trimLeft cs)

/-- A lexeme and what follows it make up the text it was taken from, and a
lexeme has a character. -/
theorem append_of_take? {r : Reader} {cs rest : List Char} {l : Lexeme}
    (h : r.take? cs = some (l, rest)) : l.text.toList ++ rest = cs ∧ l.text.toList ≠ [] := by
  unfold take? at h
  split at h
  · rename_i n kind hn
    obtain ⟨hpos, hle⟩ := r.symbols.bounds_of_longest? hn
    simp only [Option.some.injEq, Prod.mk.injEq] at h
    obtain ⟨rfl, rfl⟩ := h
    simp only [String.toList_ofList, List.take_append_drop, ne_eq, List.take_eq_nil_iff, true_and]
    intro hnil
    rcases hnil with rfl | rfl
    · omega
    · simp at hle
      omega
  · split at h
    · rename_i numeral tail hs
      simp only [Option.some.injEq, Prod.mk.injEq] at h
      obtain ⟨rfl, rfl⟩ := h
      simp only [Lexeme.number, String.toList_ofList]
      exact ⟨Number.append_of_splitNumeral hs, Number.ne_nil_of_splitNumeral hs⟩
    · split at h
      · simp at h
      · rename_i c tail _
        split at h
        · simp only [Option.some.injEq, Prod.mk.injEq] at h
          obtain ⟨rfl, rfl⟩ := h
          simp [String.toList_ofList, List.takeWhile_append_dropWhile]
        · simp only [Option.some.injEq, Prod.mk.injEq] at h
          obtain ⟨rfl, rfl⟩ := h
          simp [Lexeme.variableName]

/-- Reading a lexeme makes the text shorter. -/
theorem length_lt_of_next? {r : Reader} {cs rest : List Char} {l : Lexeme}
    (h : r.next? cs = some (l, rest)) : rest.length < cs.length := by
  obtain ⟨happ, hne⟩ := append_of_take? h
  have hle := Text.length_trimLeft_le cs
  have hpos := List.length_pos_iff.mpr hne
  have hlen := congrArg List.length happ
  rw [List.length_append] at hlen
  omega

/-! ## 2. All lexemes -/

/-- The lexemes of a text, in order. -/
def lexemes (r : Reader) (cs : List Char) : List Lexeme :=
  match next : r.next? cs with
  | none => []
  | some (l, rest) =>
    have : rest.length < cs.length := length_lt_of_next? next
    l :: lexemes r rest
termination_by cs.length

theorem lexemes_of_next?_eq_none {r : Reader} {cs : List Char} (h : r.next? cs = none) :
    r.lexemes cs = [] := by
  rw [lexemes]
  split
  · rfl
  · simp_all

theorem lexemes_of_next?_eq_some {r : Reader} {cs rest : List Char} {l : Lexeme}
    (h : r.next? cs = some (l, rest)) : r.lexemes cs = l :: r.lexemes rest := by
  rw [lexemes]
  split
  · simp_all
  · simp_all

end Reader

/-! ## 3. One lexeme after the other -/

/-- A reader and the rest of the text that it reads. -/
structure Reading where
  reader : Reader
  rest : List Char

namespace Reading

/-- The next lexeme, and the reading after it. At the end of the text the
white space that is left is passed over. -/
def next (s : Reading) : Option Lexeme × Reading :=
  match s.reader.next? s.rest with
  | some (l, rest) => (some l, { s with rest := rest })
  | none => (none, { s with rest := Text.trimLeft s.rest })

/-- How many lexemes are to come: at least the first number, and at most the
second. -/
def sizeHint (s : Reading) : Nat × Nat := (0, Text.utf8Length s.rest)

/-- The reading after a number of lexemes were asked for. -/
def after (s : Reading) : Nat → Reading
  | 0 => s
  | n + 1 => (s.after n).next.2

end Reading

end Formula
