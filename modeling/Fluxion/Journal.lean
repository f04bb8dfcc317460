import Fluxion.Exercise

/-! The journal of an exercise: what is worth noting while an equation is prepared
and an answer is checked, in the order in which it happens. -/
namespace Fluxion

inductive Event
  | parsed (source : String) (expression : Expr) (references : Nat)
  | underivable (equation : String) (error : ConstructionError)
  | prepared (equation : String) (derivative : Expr)
  | invalidAnswer (answer : String) (error : InputError)
  | expressionsDiffer (reference candidate : Expr) (mismatch : Mismatch)
  | incorrectAnswer (equation : String) (derivative : Expr) (answer : String)
      (mismatch : Mismatch)

namespace Event

inductive Level
  | debug | warn
  deriving DecidableEq, Repr

inductive Field
  | text (s : String)
  | count (n : Nat)
  | value (x : Float)

def level : Event → Level
  | underivable .. => .warn
  | _ => .debug

def message : Event → String
  | parsed .. => "Parsed"
  | underivable .. => "Unable to differentiate"
  | prepared .. => "Prepared a problem"
  | invalidAnswer .. => "Invalid answer"
  | expressionsDiffer .. => "Expressions differ"
  | incorrectAnswer .. => "Incorrect answer"

def fields : Event → List (String × Field)
  | parsed source expression references =>
    [("src", .text source), ("expr", .text expression.text), ("placeholders", .count references)]
  | underivable equation error =>
    [("equation", .text equation), ("error", .text error.message)]
  | prepared equation derivative =>
    [("equation", .text equation), ("derivative", .text derivative.text)]
  | invalidAnswer answer error => [("answer", .text answer), ("error", .text error.message)]
  | expressionsDiffer reference candidate m =>
    [("reference", .text reference.text), ("candidate", .text candidate.text),
      ("sample", .count m.sample), ("expected", .value m.expected), ("actual", .value m.actual)]
  | incorrectAnswer equation derivative answer m =>
    [("equation", .text equation), ("derivative", .text derivative.text),
      ("answer", .text answer), ("sample", .count m.sample), ("expected", .value m.expected),
      ("actual", .value m.actual)]

end Event

namespace Journal

/-- Only a formula that can be read is noted. -/
def ofInput (input : String) : List Event :=
  match tidy input with
  | .error _ => []
  | .ok formula =>
    let reading := Formula.read formula
    match reading.outcome with
    | .error _ => []
    | .ok expression => [.parsed formula expression reading.table.size]

/-- What is noted while an exercise is made of an equation. -/
def ofEquation (equation : String) : List Event :=
  ofInput equation ++
    match Exercise.ofEquation equation with
    | .error (.noDerivative e) => [.underivable equation e]
    | .error _ => []
    | .ok exercise => [.prepared equation exercise.derivative]

/-- What is noted while an answer is checked. -/
def ofAnswer (exercise : Exercise) (answer : String) (settings : Settings) : List Event :=
  ofInput answer ++
    match readFormula answer with
    | .error e => [.invalidAnswer answer e]
    | .ok candidate =>
      match firstMismatch? exercise.derivative candidate settings with
      | none => []
      | some m =>
        [.expressionsDiffer exercise.derivative candidate m,
          .incorrectAnswer exercise.equation exercise.derivative answer m]

end Journal
end Fluxion
