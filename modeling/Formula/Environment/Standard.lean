/-
Formula.Environment.Standard — the usual functions and constants.

`realRoot` keeps odd roots of negative numbers real, which a power with the
reciprocal exponent would not.
-/
import Formula.Environment.Declarations

namespace Formula

namespace Number

/-- The whole part of a number, toward zero. -/
def truncate (x : Float) : Float := if x < 0 then x.ceil else x.floor

/-- What a number has beyond its whole part. -/
def fraction (x : Float) : Float := x - truncate x

/-- Whether a number is an odd whole number: it has no fraction, and its
half has one. Infinities and NaN are not odd. -/
def isOdd (x : Float) : Bool := fraction x == 0 && !(fraction (x / 2) == 0)

/-- The root of a given degree. An odd root of a negative number is real; a
root of degree zero is not a number. -/
def realRoot (base degree : Float) : Float :=
  if degree == 0 then 0 / 0
  else if base < 0 && isOdd degree then -(-base).pow (1 / degree)
  else base.pow (1 / degree)

end Number

namespace Body

/-- A function of one argument. -/
def unary (f : Float → Float) : Body
  | x :: _ => f x
  | [] => 0 / 0

/-- A function of two arguments. -/
def binary (f : Float → Float → Float) : Body
  | x :: y :: _ => f x y
  | _ => 0 / 0

/-- The absolute value. -/
def absolute : Body := unary Float.abs

end Body

namespace Declarations

/-- The functions of one argument that every formula may use. -/
def unaryFunctions : List (String × (Float → Float)) :=
  [("sin", Float.sin), ("cos", Float.cos), ("tan", Float.tan), ("asin", Float.asin),
   ("acos", Float.acos), ("atan", Float.atan), ("sinh", Float.sinh), ("cosh", Float.cosh),
   ("tanh", Float.tanh), ("exp", Float.exp), ("ln", Float.log), ("log", Float.log10),
   ("abs", Float.abs), ("sqrt", Float.sqrt)]

/-- The standard declarations: the elementary functions, roots of any
degree, and the constants `pi` (also spelled `π`) and `e`. -/
def standard : Declarations :=
  (unaryFunctions.foldl (fun d f => d.withFunction f.1 1 (Body.unary f.2)) empty)
    |>.withFunction "root" 2 (Body.binary Number.realRoot)
    |>.withConstant "pi" 3.141592653589793
    |>.withConstant "π" 3.141592653589793
    |>.withConstant "e" 2.718281828459045

end Declarations

/-- The environment of the standard declarations. -/
def Environment.standard : Environment := Declarations.standard.toEnvironment

end Formula
