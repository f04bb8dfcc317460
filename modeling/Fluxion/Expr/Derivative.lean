import Fluxion.Expr.Construction

/-! Derivatives by the rules of calculus, one layer at a time and without any
simplification. Every variable is the one that is differentiated by, and the
power rule takes each exponent for a constant. The logarithm rule divides by the
operand, so there is no derivative where this is the constant zero. -/
namespace Fluxion
namespace Expr

def derivative : Expr → Except ConstructionError Expr
  | const _ => .ok (const 0)
  | var _ => .ok (const 1)
  | neg a => do
    let da ← a.derivative
    return -da
  | binary .plus a b => do
    let da ← a.derivative
    let db ← b.derivative
    return da + db
  | binary .minus a b => do
    let da ← a.derivative
    let db ← b.derivative
    return da - db
  | binary .times a b => do
    let da ← a.derivative
    let db ← b.derivative
    return da * b + a * db
  | binary .divide a b => do
    let da ← a.derivative
    let db ← b.derivative
    divide (da * b - a * db) (b ^ const 2)
  | binary .power a b => do
    let da ← a.derivative
    return b * a ^ (b - const 1) * da
  | ln a => do
    let da ← a.derivative
    divide da a

/-- The derivative of a derivative, `n` times. -/
def nthDerivative : Nat → Expr → Except ConstructionError Expr
  | 0, e => .ok e
  | n + 1, e => e.derivative >>= nthDerivative n

end Expr
end Fluxion
