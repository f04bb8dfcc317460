import Fluxion.Decimal
import Fluxion.Expr.Evaluation

/-! Comparison of expressions by their values at sample points. Two expressions
pass for equal if their values are numbers and nearly equal at every whole
number from 1 up to a limit; the first sample that tells them apart is reported. -/
namespace Fluxion

/-- Equality up to a tolerance in any number system. The difference counts
relative to the sum of the magnitudes, except near zero, where it counts as it is
against a tolerance that is smaller by the factor `nearZero`. -/
def withinTolerance {α : Type} [OfNat α 0] [Add α] [Sub α] [Mul α] [Div α] [BEq α] [LT α]
    [DecidableLT α] (abs : α → α) (nearZero a b epsilon : α) : Bool :=
  if a == b then true
  else if a == 0 || b == 0 || decide (abs a + abs b < nearZero) then
    decide (abs (a - b) < epsilon * nearZero)
  else decide (abs (a - b) / (abs a + abs b) < epsilon)

def nearZero : Float := 1e-3

def isClose (a b epsilon : Float) : Bool := withinTolerance Float.abs nearZero a b epsilon

structure Settings where
  epsilon : Float := 1e-4
  /-- Samples are taken below this number. -/
  limit : Nat := 1000

/-- A sample at which two expressions differ, with their values there. -/
structure Mismatch where
  sample : Nat
  expected : Float
  actual : Float

def Mismatch.message (m : Mismatch) : String :=
  "Expected " ++ Decimal.floatText m.expected ++ " but got " ++ Decimal.floatText m.actual ++
    " at x = " ++ Decimal.natText m.sample

/-- What is no number differs from everything, itself included. -/
def mismatchAt? (reference candidate : Expr) (epsilon : Float) (sample : Nat) : Option Mismatch :=
  let expected := reference.value (Float.ofNat sample)
  let actual := candidate.value (Float.ofNat sample)
  if expected.isNaN || actual.isNaN || !isClose expected actual epsilon then
    some ⟨sample, expected, actual⟩
  else none

def firstMismatchFrom? (reference candidate : Expr) (epsilon : Float) :
    (count sample : Nat) → Option Mismatch
  | 0, _ => none
  | count + 1, sample =>
    match mismatchAt? reference candidate epsilon sample with
    | some m => some m
    | none => firstMismatchFrom? reference candidate epsilon count (sample + 1)

/-- The first mismatch among the samples 1, 2, … below the limit. -/
def firstMismatch? (reference candidate : Expr) (settings : Settings) : Option Mismatch :=
  firstMismatchFrom? reference candidate settings.epsilon (settings.limit - 1) 1

theorem firstMismatchFrom?_eq (reference candidate : Expr) (epsilon : Float)
    (count sample : Nat) :
    firstMismatchFrom? reference candidate epsilon count sample =
      (List.range' sample count).findSome? (mismatchAt? reference candidate epsilon) := by
  induction count generalizing sample with
  | zero => rfl
  | succ count ih =>
    simp only [firstMismatchFrom?,List.range'_succ,List.findSome?_cons]
    split <;> simp_all

theorem firstMismatch?_eq (reference candidate : Expr) (settings : Settings) :
    firstMismatch? reference candidate settings =
      (List.range' 1 (settings.limit - 1)).findSome?
        (mismatchAt? reference candidate settings.epsilon) :=
  firstMismatchFrom?_eq ..

end Fluxion
