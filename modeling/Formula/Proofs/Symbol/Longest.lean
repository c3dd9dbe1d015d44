/-
Formula.Proofs.Symbol.Longest — the longest symbol at the front of a text.

`IsLongest` is what every table of symbols has to answer with, stated on the
entries alone, and a table that does so `Finds` the symbols of the entries. Of
two such tables the second is the first.

A search along a text is described by `Searched`: what it has found is the
longest front that a look-up knows, among those within a limit. From `Searched`
to `IsLongest` there is one proof for characters and for bytes, with the
encoding as a parameter (`Searched.answer`): all that is used of UTF-8 is that
it keeps which texts start with which.
-/
import Formula.Symbol.Map

namespace Formula

/-! ## 1. The longest symbol -/

/-- `text` is the longest symbol of a list of entries at the front of `cs`, and
`kind` is the kind in its last entry. -/
structure IsLongest (entries : List SymbolEntry) (cs text : List Char) (kind : LexemeKind) :
    Prop where
  ne_nil : text ≠ []
  front : text <+: cs
  last : entries.reverse.lookup text = some kind
  longest : ∀ entry ∈ entries, entry.1 <+: cs →
    Text.utf8Length entry.1 ≤ Text.utf8Length text

/-- Of two texts at the front of a third, the one with fewer bytes is at the
front of the other. -/
theorem isPrefix_iff_utf8Length_le {cs text text' : List Char} (h : text <+: cs)
    (h' : text' <+: cs) : text <+: text' ↔ Text.utf8Length text ≤ Text.utf8Length text' := by
  rw [← Text.length_utf8, ← Text.length_utf8, ← Text.utf8_isPrefix_iff]
  refine ⟨fun hle => hle.length_le, fun hle => ?_⟩
  exact List.prefix_of_prefix_length_le (Text.utf8_isPrefix_iff.mpr h)
    (Text.utf8_isPrefix_iff.mpr h') hle

theorem eq_of_utf8Length_eq {cs text text' : List Char} (h : text <+: cs) (h' : text' <+: cs)
    (heq : Text.utf8Length text = Text.utf8Length text') : text = text' := by
  have hle : text <+: text' := (isPrefix_iff_utf8Length_le h h').mpr (Nat.le_of_eq heq)
  have hge : text' <+: text := (isPrefix_iff_utf8Length_le h' h).mpr (Nat.le_of_eq heq.symm)
  exact hle.eq_of_length_le hge.length_le

/-- A text has a kind exactly if it has an entry. -/
theorem exists_kind_iff {entries : List SymbolEntry} {text : List Char} :
    (∃ kind, entries.reverse.lookup text = some kind) ↔ ∃ entry ∈ entries, entry.1 = text := by
  rw [← Option.isSome_iff_exists, List.lookup_isSome_iff]
  simp only [List.mem_reverse, beq_iff_eq]
  exact ⟨fun ⟨e, he, h⟩ => ⟨e, he, h.symm⟩, fun ⟨e, he, h⟩ => ⟨e, he, h.symm⟩⟩

namespace IsLongest

variable {entries : List SymbolEntry} {cs text text' : List Char} {kind kind' : LexemeKind}

theorem mem (h : IsLongest entries cs text kind) : (text, kind) ∈ entries := by
  obtain ⟨front, back, heq, -⟩ := List.lookup_eq_some_iff.mp h.last
  rw [← List.mem_reverse, heq]
  simp

theorem utf8Length_pos (h : IsLongest entries cs text kind) : 0 < Text.utf8Length text :=
  Nat.lt_of_lt_of_le (List.length_pos_iff.mpr h.ne_nil) (Text.length_le_utf8Length text)

theorem unique (h : IsLongest entries cs text kind) (h' : IsLongest entries cs text' kind') :
    text = text' ∧ kind = kind' := by
  have hlength := Nat.le_antisymm (h'.longest _ h.mem h.front) (h.longest _ h'.mem h'.front)
  have htext := eq_of_utf8Length_eq h.front h'.front hlength
  exact ⟨htext, Option.some.inj (h.last.symm.trans (htext ▸ h'.last))⟩

end IsLongest

/-- The answer of a table for `cs`: the longest symbol at its front, where a
symbol is measured by `size`, or none if no entry is there. -/
inductive Answers (entries : List SymbolEntry) (size : List Char → Nat) (cs : List Char) :
    Option (Nat × LexemeKind) → Prop
  | none (h : ∀ entry ∈ entries, entry.1 ≠ [] → ¬ entry.1 <+: cs) : Answers entries size cs none
  | some {text kind} (h : IsLongest entries cs text kind) :
      Answers entries size cs (some (size text, kind))

namespace Answers

variable {entries : List SymbolEntry} {size : List Char → Nat} {cs : List Char}
  {found found' : Option (Nat × LexemeKind)}

theorem eq_none_iff (h : Answers entries size cs found) :
    found = Option.none ↔ ∀ entry ∈ entries, entry.1 ≠ [] → ¬ entry.1 <+: cs := by
  cases h with
  | none h => exact ⟨fun _ => h, fun _ => rfl⟩
  | some h =>
    simp only [reduceCtorEq, false_iff]
    intro hnone
    exact hnone _ h.mem h.ne_nil h.front

theorem eq_some_iff (h : Answers entries size cs found) {n : Nat} {kind : LexemeKind} :
    found = Option.some (n, kind) ↔ ∃ text, IsLongest entries cs text kind ∧ n = size text := by
  cases h with
  | none h =>
    simp only [reduceCtorEq, false_iff]
    rintro ⟨text, htext, -⟩
    exact h _ htext.mem htext.ne_nil htext.front
  | @some text kind' h =>
    constructor
    · intro heq
      cases heq
      exact ⟨text, h, rfl⟩
    · rintro ⟨text', h', rfl⟩
      obtain ⟨rfl, rfl⟩ := h.unique h'
      rfl

/-- The entries leave no choice. -/
theorem unique (h : Answers entries size cs found) (h' : Answers entries size cs found') :
    found = found' := by
  cases h with
  | none h => exact (h'.eq_none_iff.mpr h).symm
  | some h => exact (h'.eq_some_iff.mpr ⟨_, h, rfl⟩).symm

end Answers

/-- A table finds the longest symbols of a list of entries. -/
def SymbolMap.Finds (m : SymbolMap) (entries : List SymbolEntry) : Prop :=
  ∀ cs, Answers entries List.length cs (m.longest? cs)

/-- Tables that find the symbols of the same entries are the same. -/
theorem SymbolMap.Finds.unique {m m' : SymbolMap} {entries : List SymbolEntry}
    (h : m.Finds entries) (h' : m'.Finds entries) : m = m' := by
  obtain ⟨longest?, bounds⟩ := m
  obtain ⟨longest?', bounds'⟩ := m'
  obtain rfl : longest? = longest?' := funext fun cs => (h cs).unique (h' cs)
  rfl

/-- In bytes the answer is the number of bytes of the same symbol. -/
theorem SymbolMap.Finds.longestBytes? {m : SymbolMap} {entries : List SymbolEntry}
    (h : m.Finds entries) (cs : List Char) :
    Answers entries Text.utf8Length cs (m.longestBytes? cs) := by
  unfold SymbolMap.longestBytes?
  cases hfound : m.longest? cs with
  | none => exact .none ((h cs).eq_none_iff.mp hfound)
  | some found =>
    obtain ⟨n, kind⟩ := found
    obtain ⟨text, htext, rfl⟩ := (h cs).eq_some_iff.mp hfound
    rw [Option.map_some, ← List.prefix_iff_eq_take.mp htext.front]
    exact .some htext

/-! ## 2. Searches along a text -/

/-- What a search has found after `limit` members of `xs`: the longest front
within them that a look-up knows, and its kind. -/
inductive Searched {α : Type} (look : List α → Option LexemeKind) (xs : List α) (limit : Nat) :
    Option (Nat × LexemeKind) → Prop
  | none (h : ∀ k ≤ limit, look (xs.take k) = none) : Searched look xs limit none
  | some {n kind} (hle : n ≤ limit) (hn : look (xs.take n) = some kind)
      (h : ∀ k, n < k → k ≤ limit → look (xs.take k) = Option.none) :
      Searched look xs limit (some (n, kind))

namespace Searched

variable {α : Type} {look : List α → Option LexemeKind} {xs : List α} {limit limit' : Nat}
  {found : Option (Nat × LexemeKind)}

/-- A search may go on past fronts that are unknown. -/
theorem skip (h : Searched look xs limit found) (hle : limit ≤ limit')
    (hskip : ∀ k, limit < k → k ≤ limit' → look (xs.take k) = Option.none) :
    Searched look xs limit' found := by
  have hall : ∀ k, k ≤ limit' → k ≤ limit ∨ limit < k ∧ k ≤ limit' := by omega
  cases h with
  | none h =>
    refine .none fun k hk => ?_
    rcases hall k hk with hk | ⟨hlt, hk⟩
    · exact h k hk
    · exact hskip k hlt hk
  | some hn hkind h =>
    refine .some (Nat.le_trans hn hle) hkind fun k hnk hk => ?_
    rcases hall k hk with hk | ⟨hlt, hk⟩
    · exact h k hnk hk
    · exact hskip k hlt hk

/-- The next front is the longest if it is known. -/
theorem step {kind : LexemeKind} (h : look (xs.take (limit + 1)) = Option.some kind) :
    Searched look xs (limit + 1) (Option.some (limit + 1, kind)) :=
  .some (Nat.le_refl _) h fun k hlt hle => by omega

/-- A whole search answers with the longest symbol. The members are characters
or bytes: `encode` turns texts into lists of them, and keeps which texts start
with which. -/
theorem answer {encode : List Char → List α} {entries : List SymbolEntry} {cs : List Char}
    (hencode : ∀ a b, encode a <+: encode b ↔ a <+: b)
    (hlook : ∀ key kind, look key = Option.some kind ↔
      ∃ text, text ≠ [] ∧ encode text = key ∧ entries.reverse.lookup text = Option.some kind)
    (h : Searched look (encode cs) (encode cs).length found) :
    Answers entries (fun text => (encode text).length) cs found := by
  -- Each entry at the front of `cs` is met at its length.
  have hentry : ∀ entry ∈ entries, entry.1 ≠ [] → entry.1 <+: cs →
      look ((encode cs).take (encode entry.1).length) ≠ Option.none := by
    intro entry hmem hne hfront
    have htake := List.prefix_iff_eq_take.mp ((hencode _ _).mpr hfront)
    obtain ⟨kind, hkind⟩ := exists_kind_iff.mpr ⟨entry, hmem, rfl⟩
    rw [← htake, (hlook _ kind).mpr ⟨entry.1, hne, rfl, hkind⟩]
    exact Option.some_ne_none kind
  cases h with
  | none h =>
    refine .none fun entry hmem hne hfront => hentry entry hmem hne hfront (h _ ?_)
    exact ((hencode _ _).mpr hfront).length_le
  | @some n kind hle hn h =>
    obtain ⟨text, hne, htext, hkind⟩ := (hlook _ _).mp hn
    have hfront : text <+: cs := (hencode _ _).mp (htext ▸ List.take_prefix _ _)
    have hlength : (encode text).length = n := by
      rw [htext, List.length_take]
      omega
    rw [← hlength]
    refine .some ⟨hne, hfront, hkind, fun entry hmem hentryFront => ?_⟩
    refine (isPrefix_iff_utf8Length_le hentryFront hfront).mp ?_
    by_cases hnil : entry.1 = []
    · rw [hnil]
      exact List.nil_prefix
    · rw [← hencode]
      have hlong := (hencode _ _).mpr hentryFront
      refine List.prefix_of_prefix_length_le hlong ((hencode _ _).mpr hfront) ?_
      rw [hlength]
      refine Nat.le_of_not_lt fun hlt => hentry entry hmem hnil hentryFront ?_
      exact h _ hlt hlong.length_le

end Searched

end Formula
