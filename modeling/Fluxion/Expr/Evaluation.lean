import Fluxion.Expr.Basic

/-! The value of an expression in any number system. One number is put in the
place of every variable. -/
namespace Fluxion

universe u

/-- What a number system has to offer for expressions to have values in it. -/
structure Arithmetic (α : Type u) where
  ofInt : Int → α
  neg : α → α
  add : α → α → α
  sub : α → α → α
  mul : α → α → α
  div : α → α → α
  pow : α → α → α
  ln : α → α

namespace Arithmetic

def apply {α : Type u} (A : Arithmetic α) : BinaryOp → α → α → α
  | .plus => A.add
  | .minus => A.sub
  | .times => A.mul
  | .divide => A.div
  | .power => A.pow

/-- Double precision: constants are rounded to the nearest double, and nothing
is an error, as division by zero gives an infinity or no number. -/
def binary64 : Arithmetic Float where
  ofInt := Float.ofInt
  neg := fun a => -a
  add := fun a b => a + b
  sub := fun a b => a - b
  mul := fun a b => a * b
  div := fun a b => a / b
  pow := Float.pow
  ln := Float.log

end Arithmetic

namespace Expr

def valueIn {α : Type u} (A : Arithmetic α) (x : α) : Expr → α
  | const v => A.ofInt v.toInt
  | var _ => x
  | neg a => A.neg (a.valueIn A x)
  | binary op a b => A.apply op (a.valueIn A x) (b.valueIn A x)
  | ln a => A.ln (a.valueIn A x)

def value (e : Expr) (x : Float) : Float := e.valueIn .binary64 x

end Expr
end Fluxion
