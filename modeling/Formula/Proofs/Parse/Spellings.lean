/-
Formula.Proofs.Parse.Spellings — signs that are spelled in several ways.

An environment and a reader may spell a sign of punctuation as they like: `**`
and `^` are powers, a minus has a character of its own beside the hyphen, and
arguments can be divided by a semicolon. A parse looks at what a sign is and
never at how it is spelled. A text ends up in the tree for numbers and names,
and in the messages of errors for all others.

The name of an application is looked up, and in its place the spelling of every
lexeme counts, since the name may have any kind there. `Token.Pairs` leaves it
as it is.
-/
import Formula.Proofs.Pairing.Scans
import Formula.Proofs.Lexeme.Separation

namespace Formula

/-! ## 1. Lexemes with other spellings -/

/-- Lexemes of the same kind, with the same text if they are numbers or
names. -/
def Lexeme.Respells (l l' : Lexeme) : Prop :=
  l'.kind = l.kind ∧ (l.kind.isWord = true → l'.text = l.text)

namespace Lexeme.Respells

variable {l l' : Lexeme}

theorem refl (l : Lexeme) : l.Respells l := ⟨rfl, fun _ => rfl⟩

/-- Numbers and names have one spelling. -/
theorem eq_of_isWord (h : l.Respells l') (hk : l.kind.isWord = true) : l' = l := by
  obtain ⟨hkind, htext⟩ := h
  cases l
  cases l'
  simp_all

end Lexeme.Respells

theorem Token.Pairs.refl {R : Lexeme → Lexeme → Prop} (hR : ∀ l, R l l) (t : Token) :
    Token.Pairs R t t := .of_lexemes fun l _ => hR l

theorem Token.Pairs.refl_list {R : Lexeme → Lexeme → Prop} (hR : ∀ l, R l l) (ts : List Token) :
    List.Forall₂ (Token.Pairs R) ts ts := Token.Pairs.of_listLexemes fun l _ => hR l

/-! ## 2. Two parses -/

/-- The leaf of a number or a name does not depend on anything but the
environment. -/
theorem Context.leaf_congr {ctx ctx' : Context} (h : ctx'.environment = ctx.environment)
    (l : Lexeme) : ctx'.leaf l = ctx.leaf l := by
  unfold leaf
  rw [h]

/-- The parses of two lists that differ in how their signs are spelled. An error
keeps none of its texts. -/
def Pairing.respelling (env : Environment) : Pairing env env where
  lexemes := Lexeme.Respells
  expr := id
  text _ := ""
  text_append _ _ := rfl
  lexeme_text _ := rfl
  kind h := .inl h.1
  functionName h hk := h.eq_of_isWord (by rw [hk]; rfl)
  isFunction _ := rfl
  leaf := by
    rintro ctx ctx' l l' rfl henv hl ho
    obtain rfl := hl.eq_of_isWord (LexemeKind.isWord_of_isOperand ho)
    rw [Context.leaf_congr henv]
    refine .refl (fun _ => ?_) (fun _ => ?_) _ <;> rfl
  call arguments _ := by
    rw [List.map_id]
    refine .refl (fun _ => ?_) (fun _ => ?_) _ <;> rfl
  join _ _ _ := rfl
  root _ _ := rfl
  squareRoot _ := rfl
  absolute _ := rfl
  toInfix _ := rfl

/-- How the signs of a formula are spelled does not matter, at any depth: both
lists have the same tree, or both have the same error, with the same numbers in
it and with other texts at most. -/
theorem parse_of_respells (env : Environment) (limits : Limits) (tokens tokens' : List Token)
    (h : List.Forall₂ (Token.Pairs Lexeme.Respells) tokens tokens') :
    (∃ n, parse env limits tokens = .ok n ∧ parse env limits tokens' = .ok n) ∨
      ∃ e e', parse env limits tokens = .error e ∧ parse env limits tokens' = .error e' ∧
        e.mapText (fun _ => "") = e'.mapText (fun _ => "") := by
  have hboth := (Pairing.respelling env).parse limits h
  generalize parse env limits tokens = r, parse env limits tokens' = r' at hboth
  match r, r', hboth with
  | .ok n, .ok _, rfl => exact .inl ⟨n, rfl, rfl⟩
  | .error e, .error e', heq => exact .inr ⟨e, e', rfl, rfl, heq⟩

/-- The negative square of the sine of `3^x`, with spellings for the sign and
for the power. The name of the application carries the square. -/
def negativeSine (minus power : String) : List Token :=
  [.lexeme ⟨.minus, minus⟩, .application
    [.superscript [.lexeme (.functionName "sin")] [.lexeme (.number "2")]] .parens
    [[.lexeme (.number "3"), .lexeme ⟨.power, power⟩, .lexeme (.variableName "x")]]]

theorem parse_of_respells_negativeSine :
    List.Forall₂ (Token.Pairs Lexeme.Respells)
      (negativeSine "-" "^") (negativeSine "\u2212" "**") ∧
    ∃ n, parse .standard .standard (negativeSine "-" "^") = .ok n ∧
      parse .standard .standard (negativeSine "\u2212" "**") = .ok n := by
  have hminus : Token.Pairs Lexeme.Respells (.lexeme ⟨.minus, "-"⟩) (.lexeme ⟨.minus, "\u2212"⟩) :=
    .lexeme ⟨rfl, nofun⟩
  have hpower : Token.Pairs Lexeme.Respells (.lexeme ⟨.power, "^"⟩) (.lexeme ⟨.power, "**"⟩) :=
    .lexeme ⟨rfl, nofun⟩
  have h : List.Forall₂ (Token.Pairs Lexeme.Respells)
      (negativeSine "-" "^") (negativeSine "\u2212" "**") := by
    have hname := Token.Pairs.refl_list Lexeme.Respells.refl
      [.superscript [.lexeme (.functionName "sin")] [.lexeme (.number "2")]]
    refine .cons hminus (.cons (.application hname (.cons ?argument .nil)) .nil)
    exact .cons (.refl .refl _) (.cons hpower (.cons (.refl .refl _) .nil))
  have hread : ∃ n, parse .standard .standard (negativeSine "-" "^") = .ok n := ⟨_, rfl⟩
  refine ⟨h, ?_⟩
  rcases parse_of_respells .standard .standard _ _ h with hboth | ⟨e, -, herror, -⟩
  · exact hboth
  · obtain ⟨n, hn⟩ := hread
    rw [hn] at herror
    cases herror

end Formula
