/-
Formula.Symbol.Map — tables of symbols.

The reader of plain text asks a table for the longest symbol at the front
of the remaining text, so `**` is one power and not two products. A table
is any function that answers this question with a symbol that the text
really has room for; `Formula.Symbol.Trie`, `Formula.Symbol.Buckets` and
`Formula.Symbol.ByteMap` build such tables from a list of entries.
-/
import Formula.Lexeme
import Formula.Text.Utf8

namespace Formula

/-- An entry of a table: the spelling of a symbol and its kind. -/
abbrev SymbolEntry := List Char × LexemeKind

/-- A table of symbols. `longest?` answers with the number of characters of
the longest symbol at the front of a text, and its kind. -/
structure SymbolMap where
  longest? : List Char → Option (Nat × LexemeKind)
  /-- A symbol has a character and fits into the text. -/
  bounds_of_longest? : ∀ {cs : List Char} {n : Nat} {kind : LexemeKind},
    longest? cs = some (n, kind) → 0 < n ∧ n ≤ cs.length

/-- The answer of a table with the length of the symbol in bytes. -/
def SymbolMap.longestBytes? (m : SymbolMap) (cs : List Char) : Option (Nat × LexemeKind) :=
  (m.longest? cs).map fun found => (Text.utf8Length (cs.take found.1), found.2)

/-- The symbols of plain text. Besides the signs of the keyboard there are
the minus sign U+2212, the multiplication signs U+00D7, U+00B7, U+22C5 and
U+2062 (which is invisible), and the division signs U+00F7 and U+2215. -/
def mathSymbols : List SymbolEntry :=
  [(['+'], .plus), (['-'], .minus), (['\u2212'], .minus),
   (['*'], .times), (['\u00d7'], .times), (['\u00b7'], .times), (['\u22c5'], .times),
   (['\u2062'], .times),
   (['/'], .divide), (['\u00f7'], .divide), (['\u2215'], .divide),
   (['^'], .power), (['*', '*'], .power), (['='], .equals),
   (['('], .leftParen), ([')'], .rightParen), ([','], .separator)]

end Formula
