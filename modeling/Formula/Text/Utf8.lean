/-
Formula.Text.Utf8 — texts as bytes.

Texts are lists of characters here. Where a length is reported, it is the
number of bytes of the text in UTF-8, and what looks at single bytes is
given `utf8`. A text can be cut after a number of bytes only if these end
with a character (`cut?`).
-/
namespace Formula.Text

/-- The number of bytes of a text in UTF-8. -/
def utf8Length : List Char → Nat
  | [] => 0
  | c :: cs => c.utf8Size + utf8Length cs

theorem utf8Length_cons (c : Char) (cs : List Char) :
    utf8Length (c :: cs) = c.utf8Size + utf8Length cs := rfl

/-- A text has at least as many bytes as characters. -/
theorem length_le_utf8Length (cs : List Char) : cs.length ≤ utf8Length cs := by
  induction cs with
  | nil => simp
  | cons c cs ih =>
    have := c.utf8Size_pos
    rw [utf8Length_cons, List.length_cons]
    omega

/-- The bytes of a text. -/
def utf8 (cs : List Char) : List UInt8 := cs.flatMap String.utf8EncodeChar

theorem utf8_append (cs ds : List Char) : utf8 (cs ++ ds) = utf8 cs ++ utf8 ds :=
  List.flatMap_append

theorem length_utf8 (cs : List Char) : (utf8 cs).length = utf8Length cs := by
  induction cs with
  | nil => rfl
  | cons c cs ih =>
    rw [utf8Length_cons, ← ih, ← String.length_utf8EncodeChar, ← List.length_append]
    rfl

/-- The front of a text that has a number of bytes, and what follows it. There
is none if the bytes end inside of a character. -/
def cut? : List Char → Nat → Option (List Char × List Char)
  | cs, 0 => some ([], cs)
  | [], _ + 1 => none
  | c :: cs, n + 1 =>
    if c.utf8Size ≤ n + 1 then
      (cut? cs (n + 1 - c.utf8Size)).map fun parts => (c :: parts.1, parts.2)
    else none

/-- A cut loses nothing, and its front has the bytes that were asked for. -/
theorem cut?_eq_some_iff {cs front rest : List Char} {n : Nat} :
    cut? cs n = some (front, rest) ↔ front ++ rest = cs ∧ utf8Length front = n := by
  induction cs generalizing n front with
  | nil =>
    cases n with
    | zero =>
      simp only [cut?, Option.some.injEq, Prod.mk.injEq, List.append_eq_nil_iff]
      constructor
      · rintro ⟨rfl, rfl⟩
        exact ⟨⟨rfl, rfl⟩, rfl⟩
      · rintro ⟨⟨rfl, rfl⟩, -⟩
        exact ⟨rfl, rfl⟩
    | succ n =>
      simp only [cut?, reduceCtorEq, List.append_eq_nil_iff, false_iff]
      rintro ⟨⟨rfl, rfl⟩, hn⟩
      cases hn
  | cons c cs ih =>
    have hpos := c.utf8Size_pos
    cases n with
    | zero =>
      simp only [cut?, Option.some.injEq, Prod.mk.injEq]
      constructor
      · rintro ⟨rfl, rfl⟩
        exact ⟨rfl, rfl⟩
      · rintro ⟨happ, hn⟩
        have hle := length_le_utf8Length front
        obtain rfl : front = [] := List.length_eq_zero_iff.mp (by omega)
        exact ⟨rfl, happ.symm⟩
    | succ n =>
      rw [cut?]
      constructor
      · intro h
        split at h
        · obtain ⟨⟨front', rest'⟩, hcut, heq⟩ := Option.map_eq_some_iff.mp h
          cases heq
          obtain ⟨happ, hn⟩ := ih.mp hcut
          refine ⟨by rw [List.cons_append, happ], ?_⟩
          rw [utf8Length_cons, hn]
          omega
        · cases h
      · rintro ⟨happ, hn⟩
        cases front with
        | nil => cases hn
        | cons d front =>
          obtain ⟨rfl, htail⟩ := List.cons.inj happ
          rw [utf8Length_cons] at hn
          have hcut : cut? cs (n + 1 - d.utf8Size) = some (front, rest) :=
            ih.mpr ⟨htail, by omega⟩
          rw [if_pos (by omega), hcut]
          rfl

/-- The bytes of a text start with those of another only if the text starts
with the other: the bytes of a character tell where it ends. -/
theorem utf8_isPrefix_iff {cs ds : List Char} : utf8 ds <+: utf8 cs ↔ ds <+: cs := by
  constructor
  · rintro ⟨rest, h⟩
    apply List.isPrefix_of_utf8Encode_append_eq_utf8Encode rest.toByteArray
    have hbytes := congrArg List.toByteArray h
    rwa [List.toByteArray_append] at hbytes
  · rintro ⟨rest, rfl⟩
    exact ⟨utf8 rest, (utf8_append ds rest).symm⟩

theorem utf8_injective {cs ds : List Char} (h : utf8 cs = utf8 ds) : cs = ds := by
  have hfront : cs <+: ds := utf8_isPrefix_iff.mp (h ▸ List.prefix_refl _)
  have hback : ds <+: cs := utf8_isPrefix_iff.mp (h ▸ List.prefix_refl _)
  exact hfront.eq_of_length_le hback.length_le

end Formula.Text
