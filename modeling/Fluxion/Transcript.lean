import Fluxion.Exercise

/-! What is printed for equations, one on each line. An answer may follow an equation
behind a bar and is checked then. Input that cannot be read ends the run. -/
namespace Fluxion

/-- The lines printed for one line of input, and the complaints about it. -/
structure Report where
  printed : List (List Char) := []
  complaints : List (List Char) := []

namespace Report

def quoted (s : List Char) : List Char := '"' :: Text.trim s ++ ['"']

def ofVerdict (answer : List Char) : Verdict → List Char
  | .correct => "  ".toList ++ quoted answer ++ " is correct".toList
  | .incorrect m => "  ".toList ++ quoted answer ++ " is incorrect: ".toList ++ m.message.toList
  | .invalid e => "  ".toList ++ quoted answer ++ " is invalid: ".toList ++ e.message.toList

/-- An equation that is refused is complained about; another one is printed with
its derivative, and the verdict on its answer follows if there is an answer. -/
def ofLine (line : List Char) : Report :=
  let (equation, answer?) := Text.splitFirst '|' line
  match Exercise.ofEquation (String.ofList equation) with
  | .error e =>
    { complaints := ["Unable to use ".toList ++ quoted equation ++ ": ".toList ++ e.message.toList] }
  | .ok exercise =>
    let shown :=
      "d/dx ".toList ++ exercise.expression.chars ++ " = ".toList ++ exercise.derivative.chars
    let verdicts := answer?.toList.map fun answer =>
      ofVerdict answer (exercise.grade (String.ofList answer) {})
    { printed := shown :: verdicts }

end Report

/-- All that is printed and complained about, and the exit code. -/
structure Transcript where
  output : String
  errors : String
  code : Nat

namespace Transcript

def nothing : Transcript := ⟨"", "", 0⟩

/-- What comes of a line. A refused equation is no failure. -/
def ofLine (line : List Char) : Transcript where
  output := String.ofList (Text.unlines (Report.ofLine line).printed)
  errors := String.ofList (Text.unlines (Report.ofLine line).complaints)
  code := 0

/-- What comes of bytes that are no text. -/
def unreadable : Transcript where
  output := ""
  errors := "Error: Error \x7b kind: InvalidData, message: \"stream did not contain valid UTF-8\" \x7d\n"
  code := 1

/-- Nothing follows a failure. -/
def andThen (t u : Transcript) : Transcript :=
  if t.code = 0 then ⟨t.output ++ u.output, t.errors ++ u.errors, u.code⟩ else t

def ofRaw (raw : List UInt8) : Transcript := (Text.line? raw).elim unreadable ofLine

def ofBytes (input : List UInt8) : Transcript :=
  ((Text.rawLines input).map ofRaw).foldr andThen nothing

def ofText (input : String) : Transcript := ofBytes (Text.encode input.toList)

end Transcript
end Fluxion
