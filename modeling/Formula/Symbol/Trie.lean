/-
Formula.Symbol.Trie — a table of symbols that branches on their characters.

A look-up walks down the trie along the text and keeps the last symbol that
ended on its way. Symbols without a character are not stored, so the root
has no symbol of its own.
-/
import Formula.Symbol.Map
import Formula.Dictionary

namespace Formula

/-- The symbols that share a beginning: the symbol that ends there, if one
does, and the tries of those that go on, by their next character. -/
inductive Trie where
  | node (kind : Option LexemeKind) (children : List (Char × Trie))

namespace Trie

/-- The trie without symbols. -/
def empty : Trie := .node none []

/-- The trie with a symbol added, in place of one with the same
spelling. -/
def insert : List Char → LexemeKind → Trie → Trie
  | [], kind, .node _ children => .node (some kind) children
  | c :: cs, kind, .node here children =>
    .node here
      (Dictionary.set children c (insert cs kind ((Dictionary.get? children c).getD empty)))

/-- The trie of a list of entries. Later entries replace earlier ones, and
empty spellings are dropped. -/
def ofEntries (entries : List SymbolEntry) : Trie :=
  entries.foldl (fun t entry => if entry.1.isEmpty then t else t.insert entry.1 entry.2) empty

/-- The longest symbol at the front of a text, with the number of its
characters below this node. -/
def longestFrom : Trie → List Char → Option (Nat × LexemeKind)
  | .node here _, [] => here.map fun kind => (0, kind)
  | .node here children, c :: cs =>
    match (Dictionary.get? children c).bind fun child => longestFrom child cs with
    | some (n, kind) => some (n + 1, kind)
    | none => here.map fun kind => (0, kind)

/-- The longest symbol at the front of a text. -/
def longest? : Trie → List Char → Option (Nat × LexemeKind)
  | .node _ _, [] => none
  | .node _ children, c :: cs =>
    ((Dictionary.get? children c).bind fun child => longestFrom child cs).map
      fun found => (found.1 + 1, found.2)

theorem le_length_of_longestFrom {cs : List Char} {t : Trie} {n : Nat} {kind : LexemeKind}
    (h : longestFrom t cs = some (n, kind)) : n ≤ cs.length := by
  induction cs generalizing t n kind with
  | nil =>
    obtain ⟨here, children⟩ := t
    simp only [longestFrom, Option.map_eq_some_iff, Prod.mk.injEq] at h
    obtain ⟨_, _, rfl, _⟩ := h
    exact Nat.zero_le _
  | cons c cs ih =>
    obtain ⟨here, children⟩ := t
    rw [longestFrom] at h
    split at h
    · rename_i m k hm
      obtain ⟨child, -, hc⟩ := Option.bind_eq_some_iff.mp hm
      simp only [Option.some.injEq, Prod.mk.injEq] at h
      obtain ⟨rfl, -⟩ := h
      simpa using ih hc
    · simp only [Option.map_eq_some_iff, Prod.mk.injEq] at h
      obtain ⟨_, _, rfl, _⟩ := h
      exact Nat.zero_le _

theorem bounds_of_longest? {t : Trie} {cs : List Char} {n : Nat} {kind : LexemeKind}
    (h : t.longest? cs = some (n, kind)) : 0 < n ∧ n ≤ cs.length := by
  obtain ⟨here, children⟩ := t
  cases cs with
  | nil => simp [longest?] at h
  | cons c cs =>
    simp only [longest?, Option.map_eq_some_iff, Prod.mk.injEq] at h
    obtain ⟨⟨m, k⟩, hm, rfl, -⟩ := h
    obtain ⟨child, -, hc⟩ := Option.bind_eq_some_iff.mp hm
    have := le_length_of_longestFrom hc
    simp only [List.length_cons]
    omega

end Trie

namespace SymbolMap

/-- The table of a trie. -/
def ofTrie (t : Trie) : SymbolMap := ⟨t.longest?, Trie.bounds_of_longest?⟩

/-- The table of the symbols of plain text. A table of another kind with the same
entries is the same (`SymbolMap.standard_eq_of_builtFrom`). -/
def standard : SymbolMap := ofTrie (Trie.ofEntries mathSymbols)

end SymbolMap

end Formula
