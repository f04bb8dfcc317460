import Fluxion.Comparison
import Fluxion.Expr.Datum
import Fluxion.Expr.Derivative
import Fluxion.Formula.Reading

/-! A workbench on which expressions are built step by step. Each step has a slot
of its own, which holds the expression that it makes, and later steps take their
operands from slots. A step that makes none leaves its slot empty. -/
namespace Fluxion.Workbench

/-- The slots filled so far, the first step's first. -/
abbrev Slots := List (Option Expr)

inductive Step
  | const (value : Int64)
  | var (name : String)
  | neg (a : Nat)
  | ln (a : Nat)
  | add (a b : Nat)
  | sub (a b : Nat)
  | mul (a b : Nat)
  | pow (a b : Nat)
  | divide (a b : Nat)
  | binary (op : BinaryOp) (a b : Nat)
  | rebuild (a : Nat)
  | ofKind (kind : Kind) (args : List Nat)
  | parse (formula : String)
  | derivative (a : Nat)
  | child (a index : Nat)
  | same (a b : Nat)
  | evaluate (a : Nat) (x : Datum)
  | compare (a b : Nat) (settings : Settings)

inductive Failure
  | emptySlot
  | noChild
  | construction (error : ConstructionError)
  | parse (error : Formula.ParseError)
  deriving DecidableEq, Repr

def Failure.message : Failure → String
  | emptySlot => "empty slot"
  | noChild => "no such child"
  | construction error => error.message
  | parse error => error.message

inductive Answer
  | expr (e : Expr)
  | same (equal : Bool)
  | value (x : Float)
  | comparison (mismatch : Option Mismatch)
  | failure (f : Failure)

def Answer.expr? : Answer → Option Expr
  | expr e => some e
  | _ => none

def Answer.ofExcept : Except Failure Answer → Answer
  | .ok a => a
  | .error f => .failure f

def fetch (slots : Slots) (a : Nat) : Except Failure Expr :=
  match slots[a]? with
  | some (some e) => .ok e
  | _ => .error .emptySlot

def perform (slots : Slots) : Step → Except Failure Answer
  | .const v => return .expr (.const v)
  | .var name => return .expr (.var name)
  | .neg a => return .expr (-(← fetch slots a))
  | .ln a => return .expr (.ln (← fetch slots a))
  | .add a b => return .expr ((← fetch slots a) + (← fetch slots b))
  | .sub a b => return .expr ((← fetch slots a) - (← fetch slots b))
  | .mul a b => return .expr ((← fetch slots a) * (← fetch slots b))
  | .pow a b => return .expr ((← fetch slots a) ^ (← fetch slots b))
  | .divide a b => do
    let l ← fetch slots a
    let r ← fetch slots b
    return .expr (← (Expr.divide l r).mapError .construction)
  | .binary op a b => do
    let l ← fetch slots a
    let r ← fetch slots b
    return .expr (← (Expr.combine op l r).mapError .construction)
  | .rebuild a => do
    let e ← fetch slots a
    return .expr (← (Expr.ofNode e.node).mapError .construction)
  | .ofKind kind args => do
    let operands ← args.mapM (fetch slots)
    return .expr (← (Expr.ofKind kind operands).mapError .construction)
  | .parse formula => return .expr (← (Formula.parse formula).mapError .parse)
  | .derivative a => do
    let e ← fetch slots a
    return .expr (← e.derivative.mapError .construction)
  | .child a index => do
    let e ← fetch slots a
    match e.operands[index]? with
    | some c => return .expr c
    | none => .error .noChild
  | .same a b => return .same ((← fetch slots a) = (← fetch slots b))
  | .evaluate a x => return .value ((← fetch slots a).valueAt x)
  | .compare a b settings => do
    let r ← fetch slots a
    let c ← fetch slots b
    return .comparison (firstMismatch? r c settings)

def answer (slots : Slots) (step : Step) : Answer := .ofExcept (perform slots step)

/-- The answers to some steps, and the slots as they are in the end. -/
def runFrom (slots : Slots) : List Step → List Answer × Slots
  | [] => ([], slots)
  | s :: steps =>
    let a := answer slots s
    let rest := runFrom (slots ++ [a.expr?]) steps
    (a :: rest.1, rest.2)

/-- The answers to some steps from an empty workbench. -/
def run (steps : List Step) : List Answer := (runFrom [] steps).1

end Fluxion.Workbench
