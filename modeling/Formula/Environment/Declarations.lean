/-
Formula.Environment.Declarations — environments made of declarations.

Functions and constants are declared one by one, each kind in a name space
of its own, and a later declaration replaces an earlier one of the same
name. The environment of a set of declarations answers all questions about
a name from its declaration, so its answers agree with each other.

Left out is how declarations and limits are listed for diagnostics. Such a
listing quotes names and shortens numbers by rules of its own, and nothing
reads it.
-/
import Formula.Environment.Basic
import Formula.Dictionary

namespace Formula

/-- A declared function. -/
structure DeclaredFunction where
  arity : Nat
  body : Body

/-- A set of declarations. -/
structure Declarations where
  functions : Dictionary String DeclaredFunction
  constants : Dictionary String Float

namespace Declarations

/-- No declarations. -/
def empty : Declarations := ⟨[], []⟩

/-- The declarations with a function added, in place of one of the same
name. -/
def withFunction (d : Declarations) (name : String) (arity : Nat) (body : Body) : Declarations :=
  { d with functions := Dictionary.set d.functions name ⟨arity, body⟩ }

/-- The declarations with a constant added, in place of one of the same
name. -/
def withConstant (d : Declarations) (name : String) (value : Float) : Declarations :=
  { d with constants := Dictionary.set d.constants name value }

/-- The environment of a set of declarations. -/
def toEnvironment (d : Declarations) : Environment where
  isFunction name := (Dictionary.get? d.functions name).isSome
  arity? name := (Dictionary.get? d.functions name).map DeclaredFunction.arity
  body? name := (Dictionary.get? d.functions name).map DeclaredFunction.body
  isConstant name := (Dictionary.get? d.constants name).isSome
  constant? name := Dictionary.get? d.constants name

end Declarations

end Formula
