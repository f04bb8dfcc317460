import Fluxion.Expr.Basic

/-! Checked ways to put an expression together. Only the outermost layer is
looked at: a division whose divisor is the constant zero is refused, while a
divisor that merely has the value zero is accepted. -/
namespace Fluxion

/-- Why an expression cannot be built. -/
inductive ConstructionError
  | divideByZero
  | wrongArity (kind : Kind) (found : Nat)
  | notCompound (kind : Kind)
  deriving DecidableEq, Repr

def ConstructionError.message : ConstructionError → String
  | .divideByZero => "Cannot divide by 0"
  | .wrongArity kind found =>
    "A \"" ++ kind.symbol ++ "\" node takes " ++ Decimal.natText kind.arity ++
      " operands, but " ++ Decimal.natText found ++ " were provided"
  | .notCompound kind => "A \"" ++ kind.symbol ++ "\" node can't be built from operands"

namespace Expr

/-- Join two expressions, refusing a constant zero as a divisor. -/
def combine (op : BinaryOp) (left right : Expr) : Except ConstructionError Expr :=
  if op = .divide ∧ right = .const 0 then .error .divideByZero else .ok (.binary op left right)

def divide (left right : Expr) : Except ConstructionError Expr := combine .divide left right

theorem divide_of_ne_zero {right : Expr} (h : right ≠ .const 0) (left : Expr) :
    divide left right = .ok (.binary .divide left right) := by
  simp [divide,combine,h]

@[simp] theorem divide_zero (left : Expr) :
    divide left (.const 0) = .error .divideByZero := by
  simp [divide,combine]

def ofNode : Node Expr → Except ConstructionError Expr
  | .const v => .ok (.const v)
  | .var name => .ok (.var name)
  | .neg a => .ok (.neg a)
  | .binary op a b => combine op a b
  | .ln a => .ok (.ln a)

theorem node_of_ofNode {n : Node Expr} {e : Expr} (h : ofNode n = .ok e) : e.node = n := by
  cases n <;> simp only [ofNode,combine,Except.ok.injEq] at h
  case binary =>
    split at h
    · cases h
    · cases h; rfl
  all_goals subst h; rfl

/-- The expression of a given kind over given operands. Leaves have none, and
every other kind takes exactly as many as its arity. -/
def ofKind : Kind → List Expr → Except ConstructionError Expr
  | .const, _ => .error (.notCompound .const)
  | .var, _ => .error (.notCompound .var)
  | .neg, [a] => .ok (.neg a)
  | .ln, [a] => .ok (.ln a)
  | .binary op, [a, b] => combine op a b
  | kind, operands => .error (.wrongArity kind operands.length)

end Expr
end Fluxion
