/-
Formula.Expr.Postfix — formulas in postfix order.

Each node of a tree gives one word, after the words of its operands. The
text is written in one walk over the tree that adds word after word to it,
with a space in front of each but the first. No parentheses are needed, and
none are written; signs are `pos` and `neg`, to keep them apart from the
operators between operands.
-/
import Formula.Expr.Basic
import Formula.Number.Spelling

namespace Formula

namespace Expr

/-- A text with a word added. A space goes in front unless the text is
empty, so an empty word at the start leaves no trace. -/
def pushWord (text word : String) : String :=
  if text.isEmpty then word else text ++ " " ++ word

mutual

/-- A text with the words of a formula added. -/
def writePostfix (out : String) : Expr → String
  | .literal value => pushWord out (Number.text value)
  | .free name => pushWord out name
  | .constant name _ => pushWord out name
  | .arithmetic op left right =>
    pushWord (writePostfix (writePostfix out left) right) (Operator.arithmetic op).word
  | .signed sign operand => pushWord (writePostfix out operand) (Operator.sign sign).word
  | .power base exponent =>
    pushWord (writePostfix (writePostfix out base) exponent) Operator.power.word
  | .root base degree => pushWord (writePostfix (writePostfix out base) degree) "root"
  | .call name _ arguments => pushWord (writePostfixOfList out arguments) name
  | .equation left right =>
    pushWord (writePostfix (writePostfix out left) right) Operator.equals.word

/-- A text with the words of the formulas of a list added. -/
def writePostfixOfList (out : String) : List Expr → String
  | [] => out
  | a :: rest => writePostfixOfList (writePostfix out a) rest

end

/-- A formula in postfix order. -/
def toPostfix (e : Expr) : String := writePostfix "" e

mutual

/-- The words of a formula in postfix order, which are those that it adds to a
text (`Expr.writePostfix_eq_foldl`). -/
def words : Expr → List String
  | .literal value => [Number.text value]
  | .free name => [name]
  | .constant name _ => [name]
  | .arithmetic op left right => words left ++ words right ++ [(Operator.arithmetic op).word]
  | .signed sign operand => words operand ++ [(Operator.sign sign).word]
  | .power base exponent => words base ++ words exponent ++ [Operator.power.word]
  | .root base degree => words base ++ words degree ++ ["root"]
  | .call name _ arguments => wordsOfList arguments ++ [name]
  | .equation left right => words left ++ words right ++ [Operator.equals.word]

/-- The words of the formulas of a list, one formula after the other. -/
def wordsOfList : List Expr → List String
  | [] => []
  | a :: rest => words a ++ wordsOfList rest

end

theorem wordsOfList_eq_flatMap (as : List Expr) : wordsOfList as = as.flatMap words := by
  induction as with
  | nil => rfl
  | cons a rest ih => simp [wordsOfList, ih]

end Expr

end Formula
