import Fluxion.Decimal

/-! Expressions over 64-bit integer constants and named variables.
`Node` is one layer of an expression, and `Kind` is what is left of a layer
when its contents are forgotten. -/
namespace Fluxion

inductive BinaryOp
  | plus | minus | times | divide | power
  deriving DecidableEq, Repr

namespace BinaryOp

def symbol : BinaryOp → Char
  | plus => '+'
  | minus => '-'
  | times => '*'
  | divide => '/'
  | power => '^'

def ofSymbol? : Char → Option BinaryOp
  | '+' => some plus
  | '-' => some minus
  | '*' => some times
  | '/' => some divide
  | '^' => some power
  | _ => none

@[simp] theorem ofSymbol?_symbol (op : BinaryOp) : ofSymbol? op.symbol = some op := by
  cases op <;> rfl

theorem symbol_of_ofSymbol? {c : Char} {op : BinaryOp} (h : ofSymbol? c = some op) :
    op.symbol = c := by
  unfold ofSymbol? at h
  split at h <;> simp_all [symbol] <;> subst h <;> rfl

end BinaryOp

inductive Expr
  | const (value : Int64)
  | var (name : String)
  | neg (operand : Expr)
  | binary (op : BinaryOp) (left right : Expr)
  | ln (operand : Expr)
  deriving DecidableEq, Repr

/-- The kind of a layer. Constants and variables are leaves. -/
inductive Kind
  | const | var | neg | binary (op : BinaryOp) | ln
  deriving DecidableEq, Repr

namespace Kind

def arity : Kind → Nat
  | const | var => 0
  | neg | ln => 1
  | binary _ => 2

/-- An operation is shown as it is written in formulas, a leaf by a word. -/
def symbol : Kind → String
  | const => "constant"
  | var => "variable"
  | neg => "-"
  | binary op => op.symbol.toString
  | ln => "ln"

end Kind

/-- One layer of an expression, with `α` in the place of its operands. -/
inductive Node (α : Type)
  | const (value : Int64)
  | var (name : String)
  | neg (operand : α)
  | binary (op : BinaryOp) (left right : α)
  | ln (operand : α)
  deriving DecidableEq, Repr

namespace Node

def kind {α : Type} : Node α → Kind
  | const _ => .const
  | var _ => .var
  | neg _ => .neg
  | binary op _ _ => .binary op
  | ln _ => .ln

def operands {α : Type} : Node α → List α
  | const _ | var _ => []
  | neg a | ln a => [a]
  | binary _ a b => [a, b]

@[simp] theorem length_operands {α : Type} (n : Node α) :
    n.operands.length = n.kind.arity := by
  cases n <;> rfl

end Node

namespace Expr

instance : Neg Expr := ⟨.neg⟩
instance : Add Expr := ⟨.binary .plus⟩
instance : Sub Expr := ⟨.binary .minus⟩
instance : Mul Expr := ⟨.binary .times⟩
instance : HPow Expr Expr Expr := ⟨.binary .power⟩

def node : Expr → Node Expr
  | const v => .const v
  | var name => .var name
  | neg a => .neg a
  | binary op a b => .binary op a b
  | ln a => .ln a

def kind (e : Expr) : Kind := e.node.kind

def operands (e : Expr) : List Expr := e.node.operands

/-- Every operand stands in parentheses of its own, so the text shows the tree without
any rule of precedence. -/
def chars : Expr → List Char
  | const v => Decimal.ofInt v.toInt
  | var name => name.toList
  | neg a => '-' :: '(' :: a.chars ++ [')']
  | binary op a b => '(' :: a.chars ++ ')' :: op.symbol :: '(' :: b.chars ++ [')']
  | ln a => 'l' :: 'n' :: '(' :: a.chars ++ [')']

def text (e : Expr) : String := String.ofList e.chars

instance : ToString Expr := ⟨text⟩

@[simp] theorem toList_text (e : Expr) : e.text.toList = e.chars := by
  simp [text]

end Expr
end Fluxion
