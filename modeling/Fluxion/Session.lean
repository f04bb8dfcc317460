import Fluxion.Exercise

/-! A session works through a list of equations. It has one exercise at a time and
one setting for comparisons. An equation that makes no exercise is passed over, and
the exercise before it stays. -/
namespace Fluxion

structure Session where
  pending : List String
  current : Option Exercise := none
  settings : Settings := {}

namespace Session

inductive Step
  | next
  | configure (settings : Settings)
  | check (answer : String)
  | recall

inductive Answer
  | exhausted
  | refused (error : InputError)
  | exercise (exercise : Exercise)
  | configured (settings : Settings)
  | verdict (verdict : Verdict)
  | noExercise

def step (session : Session) : Step → Session × Answer
  | .next =>
    match session.pending with
    | [] => (session, .exhausted)
    | equation :: pending =>
      match Exercise.ofEquation equation with
      | .error e => ({ session with pending }, .refused e)
      | .ok exercise =>
        ({ session with pending, current := some exercise }, .exercise exercise)
  | .configure settings => ({ session with settings }, .configured settings)
  | .check answer =>
    match session.current with
    | none => (session, .noExercise)
    | some exercise => (session, .verdict (exercise.grade answer session.settings))
  | .recall =>
    match session.current with
    | none => (session, .noExercise)
    | some exercise => (session, .exercise exercise)

/-- The answers to some steps, each in the session that the steps before it have
left. -/
def run (session : Session) : List Step → List Answer
  | [] => []
  | s :: steps => (session.step s).2 :: (session.step s).1.run steps

end Session
end Fluxion
