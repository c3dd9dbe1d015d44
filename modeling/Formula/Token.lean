/-
Formula.Token — formulas as marked-up input.

Input is a list of tokens. A token is a lexeme, or a piece of mathematical
markup that already knows its parts: a fraction, a power written as a
superscript, a root, a bracketed group, or a function applied to a group.
The parts are lists of tokens again, so the input has the shape of the
markup it was read from.

`Token.text` is the spelling of a token in error messages.
-/
import Formula.Lexeme

namespace Formula

/-- The characters that open, close and divide a bracketed group. -/
structure Delimiters where
  opening : Char
  closing : Char
  separator : Char
deriving DecidableEq, Repr

namespace Delimiters

/-- Parentheses, with commas between the elements. -/
def parens : Delimiters := ⟨'(', ')', ','⟩

/-- Whether a group with these delimiters can be the argument list of a
call. -/
def isArgumentList (d : Delimiters) : Bool := d == parens

end Delimiters

/-- A unit of input. -/
inductive Token where
  | lexeme (lexeme : Lexeme)
  /-- A numerator over a denominator. -/
  | fraction (numerator denominator : List Token)
  /-- An exponent set to the upper right of its base. -/
  | superscript (base exponent : List Token)
  /-- A root. An empty degree stands for a square root. -/
  | radical (base degree : List Token)
  /-- A bracketed group of elements. -/
  | group (delimiters : Delimiters) (elements : List (List Token))
  /-- A function applied to a group. The name is a list of tokens because it
  can carry an exponent, as in `sin²(x)`. -/
  | application (name : List Token) (delimiters : Delimiters) (elements : List (List Token))

namespace Token

/-- The kind of a token that is a lexeme. -/
def kind? : Token → Option LexemeKind
  | .lexeme l => some l.kind
  | _ => none

/-- The spelling of a group whose elements are spelled already. -/
def groupText (delimiters : Delimiters) (elements : List String) : String :=
  delimiters.opening.toString
    ++ String.intercalate delimiters.separator.toString elements
    ++ delimiters.closing.toString

mutual

/-- The spelling of a token in messages. -/
def text : Token → String
  | .lexeme l => l.text
  | .fraction numerator denominator =>
    "frac\x7b" ++ String.intercalate " " (texts numerator) ++ "\x7d\x7b"
      ++ String.intercalate " " (texts denominator) ++ "\x7d"
  | .superscript base exponent =>
    "\x7b" ++ String.intercalate " " (texts base) ++ "\x7d^\x7b"
      ++ String.intercalate " " (texts exponent) ++ "\x7d"
  | .radical base degree =>
    "root\x7b" ++ String.intercalate " " (texts degree) ++ "\x7d\x7b"
      ++ String.intercalate " " (texts base) ++ "\x7d"
  | .group delimiters elements => groupText delimiters (elementTexts elements)
  | .application name delimiters elements =>
    "func\x7b" ++ String.intercalate " " (texts name) ++ "\x7d"
      ++ groupText delimiters (elementTexts elements)

/-- The spellings of the tokens of a list. -/
def texts : List Token → List String
  | [] => []
  | token :: rest => text token :: texts rest

/-- The spellings of the elements of a group. -/
def elementTexts : List (List Token) → List String
  | [] => []
  | element :: rest => String.intercalate " " (texts element) :: elementTexts rest

end

/-- The spelling of a list of tokens: their spellings with single spaces
between them. -/
def listText (tokens : List Token) : String := String.intercalate " " (texts tokens)

theorem texts_eq_map (tokens : List Token) : texts tokens = tokens.map text := by
  induction tokens with
  | nil => rfl
  | cons token rest ih => simp [texts, ih]

end Token

end Formula
