import Fluxion.Comparison
import Fluxion.Expr.Derivative
import Fluxion.Formula.Reading
import Fluxion.Text

/-! Exercises in differentiation and the answers to them. An answer is right if it
comes close to the derivative at every sample, however it is written. -/
namespace Fluxion

open Formula (ParseError)

/-- Why a written formula is no equation or no answer. -/
inductive InputError
  | unbalancedParentheses (index : Nat)
  | parse (error : ParseError)
  | noDerivative (error : ConstructionError)
  deriving DecidableEq, Repr

def InputError.message : InputError → String
  | unbalancedParentheses index => "Unbalanced parenthesis at index " ++ Decimal.natText index
  | parse error => error.message
  | noDerivative error => "Unable to differentiate: " ++ error.message

/-- A formula without its white space, if its parentheses are balanced. -/
def tidy (input : String) : Except InputError String :=
  let stripped := Text.strip input.toList
  match Text.unbalanced? stripped with
  | some index => .error (.unbalancedParentheses index)
  | none => .ok (String.ofList stripped)

/-- The expression that a formula stands for, however it is spaced. -/
def readFormula (input : String) : Except InputError Expr :=
  (tidy input).bind fun formula => (Formula.parse formula).mapError .parse

/-- An equation as it was written, with its expression and the derivative. -/
structure Exercise where
  equation : String
  expression : Expr
  derivative : Expr
  derivative_eq : expression.derivative = .ok derivative

inductive Verdict
  | correct
  | incorrect (mismatch : Mismatch)
  | invalid (error : InputError)

def Verdict.isCorrect : Verdict → Bool
  | correct => true
  | _ => false

namespace Exercise

def ofEquation (equation : String) : Except InputError Exercise :=
  match readFormula equation with
  | .error e => .error e
  | .ok expression =>
    match h : expression.derivative with
    | .error e => .error (.noDerivative e)
    | .ok derivative => .ok ⟨equation, expression, derivative, h⟩

def grade (exercise : Exercise) (answer : String) (settings : Settings) : Verdict :=
  match readFormula answer with
  | .error e => .invalid e
  | .ok candidate =>
    match firstMismatch? exercise.derivative candidate settings with
    | none => .correct
    | some mismatch => .incorrect mismatch

end Exercise
end Fluxion
