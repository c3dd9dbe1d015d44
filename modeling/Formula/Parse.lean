/-
Formula.Parse — formulas from lists of tokens and from plain text.

A list is scanned with a given room, the number of levels that may still be
opened in it. Each part of its markup is scanned with one level less, and
where no level is left it is not scanned at all, so the room is what makes
the parse end.
-/
import Formula.Parse.Scan
import Formula.Lexeme.Reader

namespace Formula

/-- The formula of a list of tokens in which `room` more levels may be
opened. -/
def parseWithin (env : Environment) (limits : Limits) :
    Nat → List Token → Except ParseError Measured
  | 0, tokens => Scan.run ⟨env, limits, 0, fun _ => .error (.nestingTooDeep limits.maxDepth)⟩ tokens
  | room + 1, tokens => Scan.run ⟨env, limits, room + 1, parseWithin env limits room⟩ tokens

/-- The formula of a list of tokens. -/
def parse (env : Environment) (limits : Limits) (tokens : List Token) : Except ParseError Expr :=
  (parseWithin env limits limits.maxDepth tokens).map Measured.expr

/-- The tokens of a plain text, each of them a lexeme. -/
def Reader.tokens (r : Reader) (text : String) : List Token :=
  (r.lexemes text.toList).map Token.lexeme

/-- The formula of a plain text in the usual symbols and within the usual
limits. -/
def parseText (env : Environment) (text : String) : Except ParseError Expr :=
  parse env .standard ((Reader.standard env).tokens text)

end Formula
