import Fluxion.Expr.Evaluation

/-! Values of expressions at any double, with signaling NaNs told apart from quiet
ones. The difference shows in powers: the quiet NaN to the power of zero is one, as
is one to the power of it, while a signaling NaN is never lost in an operation.
At what is no signaling NaN the values are those in double precision. -/
namespace Fluxion

/-- A double. A NaN among the floats is quiet. -/
inductive Datum
  | float (x : Float)
  | signaling

namespace Datum

def quietNaN : Float := Float.ofBits 0x7FF8000000000000

/-- Without its sign a signaling NaN lies between infinity and the first quiet
NaN. -/
def ofBits (bits : UInt64) : Datum :=
  let magnitude := bits.toNat % Nat.pow 2 63
  if 0x7FF0000000000000 < magnitude ∧ magnitude < 0x7FF8000000000000 then signaling
  else float (Float.ofBits bits)

def toFloat : Datum → Float
  | float x => x
  | signaling => quietNaN

/-- Only the sign changes, so a signaling NaN stays one. -/
def neg : Datum → Datum
  | float x => float (-x)
  | signaling => signaling

/-- An operation makes a quiet NaN of a signaling one. -/
def map (f : Float → Float) : Datum → Datum
  | float x => float (f x)
  | signaling => float quietNaN

/-- A signaling NaN on either side makes the result a quiet NaN. -/
def map₂ (f : Float → Float → Float) : Datum → Datum → Datum
  | float x, float y => float (f x y)
  | _, _ => float quietNaN

end Datum

def Arithmetic.datum : Arithmetic Datum where
  ofInt := fun n => .float (binary64.ofInt n)
  neg := .neg
  add := .map₂ binary64.add
  sub := .map₂ binary64.sub
  mul := .map₂ binary64.mul
  div := .map₂ binary64.div
  pow := .map₂ binary64.pow
  ln := .map binary64.ln

theorem Arithmetic.apply_datum (op : BinaryOp) (x y : Float) :
    datum.apply op (.float x) (.float y) = .float (binary64.apply op x y) := by
  cases op <;> rfl

namespace Expr

def valueAt (e : Expr) (x : Datum) : Float := (e.valueIn .datum x).toFloat

theorem valueIn_datum (e : Expr) (x : Float) :
    e.valueIn .datum (.float x) = .float (e.value x) := by
  induction e with
  | const v => rfl
  | var name => rfl
  | neg a ih => simp only [valueIn,ih]; rfl
  | binary op a b iha ihb => simp only [valueIn,iha,ihb,Arithmetic.apply_datum]; rfl
  | ln a ih => simp only [valueIn,ih]; rfl

@[simp] theorem valueAt_float (e : Expr) (x : Float) : e.valueAt (.float x) = e.value x := by
  simp [valueAt,valueIn_datum,Datum.toFloat]

end Expr
end Fluxion
