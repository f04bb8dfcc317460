import Mathlib
import Fluxion.Session

/-! Sessions. A step changes only what it is for, so behind a history the equations that are left
depend on how many have been taken, the settings on the last step that set them, and the exercise
on the last equation that makes one. An answer depends on the history through these alone. -/
namespace Fluxion.Session

/-- How many equations a step takes from the list. -/
def Step.taken : Step → Nat
  | next => 1
  | _ => 0

def Step.settings? : Step → Option Settings
  | configure settings => some settings
  | _ => none

/-- The exercise of the last of some equations that makes one. -/
def lastExercise? (equations : List String) : Option Exercise :=
  (equations.filterMap fun equation => (Exercise.ofEquation equation).toOption).getLast?

def after (session : Session) (steps : List Step) : Session :=
  steps.foldl (fun s t => (s.step t).1) session

variable {session : Session} {t : Step} {steps : List Step} {e : InputError}

section Step

theorem step_check (session : Session) (answer : String) :
    (session.step (.check answer)).1 = session := by
  rw [step]
  split <;> rfl

theorem step_recall (session : Session) : (session.step .recall).1 = session := by
  rw [step]
  split <;> rfl

/-- What a step does to a session. -/
theorem session_step (session : Session) (t : Step) : (session.step t).1 =
    { pending := session.pending.drop t.taken
      current := (lastExercise? (session.pending.take t.taken)).or session.current
      settings := t.settings?.getD session.settings } := by
  cases t with
  | next =>
    rw [step]
    obtain ⟨pending,current,settings⟩ := session
    cases pending with
    | nil => rfl
    | cons equation pending =>
      cases he : Exercise.ofEquation equation <;>
        simp [lastExercise?,Step.taken,Step.settings?,he,Except.toOption]
  | configure settings => rfl
  | check answer => rw [step_check]; rfl
  | _ => rw [step_recall]; rfl

/-- An equation that is refused is taken from the list, and nothing else happens. -/
theorem step_refused (h : (session.step t).2 = .refused e) :
    ∃ equation, Exercise.ofEquation equation = .error e ∧
      session.pending = equation :: (session.step t).1.pending ∧
      (session.step t).1.current = session.current ∧
      (session.step t).1.settings = session.settings := by
  cases t with
  | next =>
    rw [step] at h ⊢
    cases hp : session.pending with
    | nil =>
      rw [hp] at h
      cases h
    | cons equation pending =>
      rw [hp] at h
      cases he : Exercise.ofEquation equation with
      | ok exercise =>
        simp only [he] at h
        cases h
      | error e' =>
        simp only [he] at h ⊢
        cases h
        exact ⟨equation,he,rfl,trivial,trivial⟩
  | configure settings => cases h
  | check answer =>
    rw [step] at h
    split at h <;> cases h
  | _ =>
    rw [step] at h
    split at h <;> cases h

end Step

section Run

@[simp] theorem after_nil (session : Session) : session.after [] = session := rfl

@[simp] theorem after_cons (session : Session) (t : Step) (steps : List Step) :
    session.after (t :: steps) = (session.step t).1.after steps := rfl

theorem run_append (session : Session) (steps rest : List Step) :
    session.run (steps ++ rest) = session.run steps ++ (session.after steps).run rest := by
  induction steps generalizing session with
  | nil => rfl
  | cons t steps ih => simp [run,ih]

@[simp] theorem length_run (session : Session) (steps : List Step) :
    (session.run steps).length = steps.length := by
  induction steps generalizing session with
  | nil => rfl
  | cons t steps ih => rw [run,List.length_cons,ih,List.length_cons]

theorem lastExercise?_append (front back : List String) :
    lastExercise? (front ++ back) = (lastExercise? back).or (lastExercise? front) := by
  rw [lastExercise?,List.filterMap_append,List.getLast?_append]
  rfl

theorem getLast?_settings (t : Step) (steps : List Step) (settings : Settings) :
    ((t :: steps).filterMap Step.settings?).getLast?.getD settings =
      (steps.filterMap Step.settings?).getLast?.getD (t.settings?.getD settings) := by
  cases ht : t.settings? with
  | none => rw [List.filterMap_cons_none ht]; rfl
  | some s =>
    rw [List.filterMap_cons_some ht,List.getLast?_cons]
    rfl

/-- What some steps do to a session. -/
theorem session_after (session : Session) (steps : List Step) : session.after steps =
    { pending := session.pending.drop (steps.map Step.taken).sum
      current := (lastExercise? (session.pending.take (steps.map Step.taken).sum)).or session.current
      settings := (steps.filterMap Step.settings?).getLast?.getD session.settings } := by
  induction steps generalizing session with
  | nil => rfl
  | cons t steps ih =>
    rw [after_cons,ih,session_step,getLast?_settings,List.map_cons,List.sum_cons,List.take_add,
      lastExercise?_append,Option.or_assoc,List.drop_drop]

/-- An answer is checked against the last exercise that was made, under the last settings. -/
theorem run_check (session : Session) (history rest : List Step) (answer : String) :
    (session.run (history ++ .check answer :: rest))[history.length]? =
      some (match (lastExercise? (session.pending.take (history.map Step.taken).sum)).or
          session.current with
        | none => .noExercise
        | some exercise => .verdict (exercise.grade answer
          ((history.filterMap Step.settings?).getLast?.getD session.settings))) := by
  have h : (session.run (history ++ .check answer :: rest))[history.length]? =
      some ((session.after history).step (.check answer)).2 := by
    rw [run_append,List.getElem?_append_right (by simp),length_run,Nat.sub_self,run]
    rfl
  rw [h,session_after,step]
  generalize (lastExercise? _).or session.current = current
  cases current <;> rfl

theorem equation_ofEquation {equation : String} {exercise : Exercise}
    (h : Exercise.ofEquation equation = .ok exercise) : exercise.equation = equation := by
  unfold Exercise.ofEquation at h
  split at h
  · cases h
  · split at h
    · cases h
    · cases h
      rfl

/-- What a session works on is the exercise of an equation that has been taken from the list. -/
theorem current_of_list {equations : List String} {exercise : Exercise}
    (h : (after { pending := equations } steps).current = some exercise) :
    exercise.equation ∈ equations.take (steps.map Step.taken).sum ∧
      Exercise.ofEquation exercise.equation = .ok exercise := by
  rw [session_after,Option.or_none] at h
  obtain ⟨equation,hm,he⟩ := List.mem_filterMap.mp (List.mem_of_getLast? h)
  cases hx : Exercise.ofEquation equation with
  | error e =>
    rw [hx] at he
    cases he
  | ok x =>
    rw [hx] at he
    cases he
    rw [equation_ofEquation hx]
    exact ⟨hm,hx⟩

end Run

end Fluxion.Session
