/-
Formula.Symbol.Buckets — a table of symbols with one bucket per length.

The lengths are in bytes. A look-up cuts the text at each length in turn,
from that of the longest symbol down, and asks the bucket of that length for
the piece. Lengths that end inside of a character are passed over.
-/
import Formula.Symbol.Map
import Formula.Dictionary

namespace Formula

/-- Symbols by their number of bytes. -/
structure Buckets where
  /-- The number of bytes of the longest symbol. -/
  longest : Nat
  /-- The symbols of each length. -/
  ofLength : Dictionary Nat (Dictionary (List Char) LexemeKind)

namespace Buckets

/-- No symbols. -/
def empty : Buckets := ⟨0, []⟩

/-- The symbols of one length. -/
def bucket (b : Buckets) (n : Nat) : Dictionary (List Char) LexemeKind :=
  (Dictionary.get? b.ofLength n).getD []

/-- The buckets with a symbol added, in place of one with the same
spelling. -/
def insert (b : Buckets) (symbol : List Char) (kind : LexemeKind) : Buckets where
  longest := max b.longest (Text.utf8Length symbol)
  ofLength :=
    Dictionary.set b.ofLength (Text.utf8Length symbol)
      (Dictionary.set (b.bucket (Text.utf8Length symbol)) symbol kind)

/-- The buckets of a list of entries. Later entries replace earlier ones,
and empty spellings are dropped. -/
def ofEntries (entries : List SymbolEntry) : Buckets :=
  entries.foldl (fun b entry => if entry.1.isEmpty then b else b.insert entry.1 entry.2) empty

/-- The symbol of exactly `n` bytes at the front of a text, and its kind. -/
def symbol? (b : Buckets) (cs : List Char) (n : Nat) : Option (List Char × LexemeKind) :=
  (Text.cut? cs n).bind fun parts =>
    (Dictionary.get? (b.bucket n) parts.1).map fun kind => (parts.1, kind)

/-- The longest symbol of at most `n` bytes at the front of a text, and its
kind. -/
def longestUpTo (b : Buckets) (cs : List Char) : Nat → Option (List Char × LexemeKind)
  | 0 => none
  | n + 1 =>
    match b.symbol? cs (n + 1) with
    | some found => some found
    | none => longestUpTo b cs n

/-- The longest symbol at the front of a text. -/
def longest? (b : Buckets) (cs : List Char) : Option (Nat × LexemeKind) :=
  (b.longestUpTo cs (min (Text.utf8Length cs) b.longest)).map fun found =>
    (found.1.length, found.2)

theorem symbol?_eq_some_iff {b : Buckets} {cs text : List Char} {n : Nat} {kind : LexemeKind} :
    b.symbol? cs n = some (text, kind) ↔
      text <+: cs ∧ Text.utf8Length text = n ∧
        Dictionary.get? (b.bucket n) text = some kind := by
  simp only [symbol?, Option.bind_eq_some_iff, Option.map_eq_some_iff, Prod.mk.injEq]
  constructor
  · rintro ⟨⟨front, rest⟩, hcut, k, hk, rfl, rfl⟩
    obtain ⟨happ, hn⟩ := Text.cut?_eq_some_iff.mp hcut
    exact ⟨⟨rest, happ⟩, hn, hk⟩
  · rintro ⟨⟨rest, happ⟩, hn, hk⟩
    exact ⟨(text, rest), Text.cut?_eq_some_iff.mpr ⟨happ, hn⟩, kind, hk, rfl, rfl⟩

theorem longestUpTo_eq_none_iff {b : Buckets} {cs : List Char} {limit : Nat} :
    b.longestUpTo cs limit = none ↔ ∀ k, 0 < k → k ≤ limit → b.symbol? cs k = none := by
  induction limit with
  | zero =>
    refine ⟨fun _ k hpos hle => ?_, fun _ => rfl⟩
    omega
  | succ limit ih =>
    rw [longestUpTo]
    cases hlast : b.symbol? cs (limit + 1) with
    | some found =>
      simp only [reduceCtorEq, false_iff]
      intro h
      rw [h (limit + 1) (Nat.succ_pos _) (Nat.le_refl _)] at hlast
      cases hlast
    | none =>
      simp only [ih]
      refine ⟨fun h k hpos hle => ?_, fun h k hpos hle => h k hpos (by omega)⟩
      rcases Nat.lt_or_ge k (limit + 1) with hlt | hge
      · exact h k hpos (by omega)
      · rw [show k = limit + 1 by omega]
        exact hlast

/-- What the search finds is a symbol of its length, and no longer length
within the limit has one. -/
theorem longestUpTo_eq_some_iff {b : Buckets} {cs text : List Char} {limit : Nat}
    {kind : LexemeKind} :
    b.longestUpTo cs limit = some (text, kind) ↔
      0 < Text.utf8Length text ∧ Text.utf8Length text ≤ limit ∧
        b.symbol? cs (Text.utf8Length text) = some (text, kind) ∧
          ∀ k, Text.utf8Length text < k → k ≤ limit → b.symbol? cs k = none := by
  induction limit with
  | zero =>
    simp only [longestUpTo, reduceCtorEq, false_iff]
    rintro ⟨hpos, hle, -⟩
    omega
  | succ limit ih =>
    rw [longestUpTo]
    split
    · rename_i found hfound
      obtain ⟨text', kind'⟩ := found
      obtain ⟨-, hlength, -⟩ := symbol?_eq_some_iff.mp hfound
      constructor
      · rintro h
        cases h
        rw [hlength]
        exact ⟨Nat.succ_pos _, Nat.le_refl _, hfound, fun k hlt hle => by omega⟩
      · rintro ⟨-, hle, htext, hnone⟩
        have hlen : Text.utf8Length text = limit + 1 := by
          rcases Nat.lt_or_ge (Text.utf8Length text) (limit + 1) with hlt | hge
          · rw [hnone (limit + 1) hlt (Nat.le_refl _)] at hfound
            cases hfound
          · omega
        rw [hlen, hfound] at htext
        exact htext
    · rename_i hlast
      rw [ih]
      constructor
      · rintro ⟨hpos, hle, htext, hnone⟩
        refine ⟨hpos, by omega, htext, fun k hlt hk => ?_⟩
        rcases Nat.lt_or_ge k (limit + 1) with hk' | hk'
        · exact hnone k hlt (by omega)
        · rw [show k = limit + 1 by omega]
          exact hlast
      · rintro ⟨hpos, hle, htext, hnone⟩
        have hne : Text.utf8Length text ≠ limit + 1 := by
          intro heq
          rw [heq, hlast] at htext
          cases htext
        exact ⟨hpos, by omega, htext, fun k hlt hk => hnone k hlt (by omega)⟩

theorem bounds_of_longest? {b : Buckets} {cs : List Char} {n : Nat} {kind : LexemeKind}
    (h : b.longest? cs = some (n, kind)) : 0 < n ∧ n ≤ cs.length := by
  obtain ⟨⟨text, k⟩, hfound, heq⟩ := Option.map_eq_some_iff.mp h
  cases heq
  obtain ⟨hpos, -, htext, -⟩ := longestUpTo_eq_some_iff.mp hfound
  obtain ⟨hfront, -⟩ := symbol?_eq_some_iff.mp htext
  refine ⟨List.length_pos_iff.mpr ?_, hfront.length_le⟩
  rintro rfl
  exact absurd hpos (Nat.lt_irrefl 0)

end Buckets

/-- The table of buckets by length. -/
def SymbolMap.ofBuckets (b : Buckets) : SymbolMap := ⟨b.longest?, Buckets.bounds_of_longest?⟩

end Formula
