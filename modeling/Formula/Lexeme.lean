/-
Formula.Lexeme — the smallest units of a formula.

A lexeme is a number, a name or a sign of punctuation, with the text it was
read from. Its kind says what it is; the text is kept because a kind can be
spelled in several ways (`*`, `×` and `⋅` all multiply) and because errors
quote it.
-/
namespace Formula

/-- What a lexeme is. -/
inductive LexemeKind where
  /-- A number. -/
  | number
  /-- A name declared as a constant. -/
  | constantName
  /-- A free name, bound when the formula is evaluated. -/
  | variableName
  /-- A name declared as a function. -/
  | functionName
  | leftParen
  | rightParen
  /-- A plus, between operands or as a sign. -/
  | plus
  /-- A minus, between operands or as a sign. -/
  | minus
  | times
  | divide
  | power
  | equals
  /-- What stands between the arguments of a call. -/
  | separator
deriving DecidableEq, Repr, Inhabited

namespace LexemeKind

/-- The usual spelling of a sign of punctuation. Numbers and names have
none. -/
def symbol? : LexemeKind → Option String
  | .leftParen => some "("
  | .rightParen => some ")"
  | .plus => some "+"
  | .minus => some "-"
  | .times => some "*"
  | .divide => some "/"
  | .power => some "^"
  | .equals => some "="
  | .separator => some ","
  | .number | .constantName | .variableName | .functionName => none

/-- Whether a lexeme of this kind is an arithmetic operator. The sign of
equality is not one. -/
def isArithmetic : LexemeKind → Bool
  | .plus | .minus | .times | .divide | .power => true
  | _ => false

end LexemeKind

/-- A lexeme: its kind, and the text it was read from. -/
structure Lexeme where
  kind : LexemeKind
  text : String
deriving DecidableEq, Repr, Inhabited

namespace Lexeme

/-- A number, as it is spelled. -/
def number (text : String) : Lexeme := ⟨.number, text⟩

/-- A free name. -/
def variableName (text : String) : Lexeme := ⟨.variableName, text⟩

/-- The name of a constant. -/
def constantName (text : String) : Lexeme := ⟨.constantName, text⟩

/-- The name of a function. -/
def functionName (text : String) : Lexeme := ⟨.functionName, text⟩

/-- A sign of punctuation in its usual spelling. Kinds without one get an
empty text. -/
def punctuation (kind : LexemeKind) : Lexeme := ⟨kind, kind.symbol?.getD ""⟩

end Lexeme

end Formula
