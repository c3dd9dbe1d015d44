/-
Formula.Symbol.ByteMap — a table of symbols over a map from bytes.

A map whose keys are strings of bytes need not know where characters end.
What a look-up asks of it is `ByteMap`: to narrow it to the keys with a given
front, whether any are left, and the value of a key. The look-up reads the
text byte by byte, narrows the map as it goes, keeps the last symbol that
ended on its way, and stops as soon as no key is left.

The map is a parameter. `ByteMap.Exact` is what is expected of it, and
`ByteMap.ofLists` is a map that does so with lists.
-/
import Formula.Symbol.Map

namespace Formula

/-- A map from strings of bytes to kinds. -/
structure ByteMap where
  Table : Type
  /-- The table of a list of entries. -/
  ofEntries : List (List UInt8 × LexemeKind) → Table
  /-- The part of a table whose keys start with the given bytes. The keys stay
  what they are. -/
  narrow : Table → List UInt8 → Table
  isEmpty : Table → Bool
  get? : Table → List UInt8 → Option LexemeKind

namespace ByteMap

/-- What is expected of a map: later entries replace earlier ones, narrowing
keeps exactly the keys with the given front, and an empty table is one without
keys. -/
structure Exact (m : ByteMap) : Prop where
  get?_ofEntries : ∀ entries key, m.get? (m.ofEntries entries) key = entries.reverse.lookup key
  get?_narrow : ∀ t front key,
    m.get? (m.narrow t front) key = if front <+: key then m.get? t key else none
  isEmpty_iff : ∀ t, m.isEmpty t = true ↔ ∀ key, m.get? t key = none

/-- The entries of symbols as bytes, empty spellings dropped. -/
def symbolBytes (entries : List SymbolEntry) : List (List UInt8 × LexemeKind) :=
  (entries.filter fun entry => !entry.1.isEmpty).map fun entry => (Text.utf8 entry.1, entry.2)

/-- The rest of a look-up: `left` bytes are still to be read after the first
`read`, `t` has the keys that start with these, and `found` is the last symbol
that ended within them. -/
def longestFrom (m : ByteMap) (bytes : List UInt8) (t : m.Table)
    (found : Option (Nat × LexemeKind)) (read : Nat) : Nat → Option (Nat × LexemeKind)
  | 0 => found
  | left + 1 =>
    let front := bytes.take (read + 1)
    let t := m.narrow t front
    if m.isEmpty t then found
    else
      match m.get? t front with
      | some kind => longestFrom m bytes t (some (read + 1, kind)) (read + 1) left
      | none => longestFrom m bytes t found (read + 1) left

/-- The number of bytes of the longest key at the front of a string, and its
value. The empty key is no symbol. -/
def longest? (m : ByteMap) (t : m.Table) (bytes : List UInt8) : Option (Nat × LexemeKind) :=
  m.longestFrom bytes (m.narrow t []) none 0 bytes.length

theorem pos_of_longestFrom {m : ByteMap} {bytes : List UInt8} {t : m.Table}
    {found : Option (Nat × LexemeKind)} {read left : Nat}
    (hfound : ∀ n kind, found = some (n, kind) → 0 < n) {n : Nat} {kind : LexemeKind}
    (h : m.longestFrom bytes t found read left = some (n, kind)) : 0 < n := by
  induction left generalizing t found read with
  | zero => exact hfound n kind h
  | succ left ih =>
    simp only [longestFrom] at h
    split at h
    · exact hfound n kind h
    · split at h
      · refine ih (fun n kind hn => ?_) h
        cases hn
        exact Nat.succ_pos _
      · exact ih hfound h

/-- A map that keeps its entries in a list, the latest first. -/
def ofLists : ByteMap where
  Table := List (List UInt8 × LexemeKind)
  ofEntries := List.reverse
  narrow t front := t.filter fun entry => front.isPrefixOf entry.1
  isEmpty := List.isEmpty
  get? t key := t.lookup key

/-- A filter on keys keeps the values of the keys that it keeps. -/
theorem lookup_filter (p : List UInt8 → Bool) (key : List UInt8)
    (t : List (List UInt8 × LexemeKind)) :
    (t.filter fun entry => p entry.1).lookup key = if p key then t.lookup key else none := by
  induction t with
  | nil => simp
  | cons entry rest ih =>
    obtain ⟨k, kind⟩ := entry
    by_cases hk : key = k
    · subst hk
      cases hp : p key <;> simp [hp, ih]
    · have hne : (key == k) = false := beq_eq_false_iff_ne.mpr hk
      cases hp : p k <;> simp [hp, List.lookup_cons, hne, ih]

theorem exact_ofLists : ofLists.Exact where
  get?_ofEntries _ _ := rfl
  get?_narrow t front key := by
    refine (lookup_filter front.isPrefixOf key t).trans ?_
    simp only [List.isPrefixOf_iff_prefix]
    rfl
  isEmpty_iff t := by
    show List.isEmpty t = true ↔ ∀ key, List.lookup key t = none
    cases t with
    | nil => simp
    | cons entry rest =>
      obtain ⟨k, kind⟩ := entry
      simp only [List.isEmpty_cons, Bool.false_eq_true, false_iff]
      intro h
      simpa using h k

end ByteMap

/-- The table of symbols over a map from bytes. Where a match ends inside of a
character, there is no symbol. -/
def SymbolMap.ofByteMap (m : ByteMap) (entries : List SymbolEntry) : SymbolMap where
  longest? cs :=
    (m.longest? (m.ofEntries (ByteMap.symbolBytes entries)) (Text.utf8 cs)).bind fun found =>
      (Text.cut? cs found.1).map fun parts => (parts.1.length, found.2)
  bounds_of_longest? := by
    intro cs n kind h
    obtain ⟨⟨k, kind'⟩, hfound, h⟩ := Option.bind_eq_some_iff.mp h
    obtain ⟨⟨front, rest⟩, hcut, heq⟩ := Option.map_eq_some_iff.mp h
    cases heq
    obtain ⟨rfl, hlength⟩ := Text.cut?_eq_some_iff.mp hcut
    have hpos : 0 < k := ByteMap.pos_of_longestFrom (fun _ _ hn => by cases hn) hfound
    refine ⟨List.length_pos_iff.mpr ?_, by simp⟩
    rintro rfl
    exact absurd hlength (Nat.ne_of_lt hpos)

end Formula
