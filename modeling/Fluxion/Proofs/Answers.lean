import Fluxion.Proofs.Balance
import Fluxion.Proofs.RoundTrip
import Fluxion.Proofs.Sampling

/-! Answers to exercises. An answer that can be read is graded by the samples, and the
derivative of an exercise, as it is printed, can be read: it comes back as the same expression. -/
namespace Fluxion

variable {equation answer : String} {exercise : Exercise} {settings : Settings}

theorem readFormula_eq_ok {input : String} {e : Expr} (h : readFormula input = .ok e) :
    ∃ formula, tidy input = .ok formula ∧ Formula.parse formula = .ok e := by
  unfold readFormula at h
  cases ht : tidy input with
  | error error =>
    rw [ht] at h
    cases h
  | ok formula =>
    rw [ht] at h
    cases hp : Formula.parse formula with
    | error error =>
      simp only [Except.bind,hp] at h
      cases h
    | ok d =>
      simp only [Except.bind,hp] at h
      cases h
      exact ⟨formula,rfl,hp⟩

namespace Exercise

theorem readFormula_of_ofEquation (h : ofEquation equation = .ok exercise) :
    readFormula equation = .ok exercise.expression := by
  unfold ofEquation at h
  split at h
  · cases h
  · split at h
    · cases h
    · cases h
      assumption

theorem writable_derivative (h : ofEquation equation = .ok exercise) :
    exercise.derivative.Writable := by
  obtain ⟨formula,-,hp⟩ := readFormula_eq_ok (readFormula_of_ofEquation h)
  exact (Formula.writable_of_parse hp).derivative exercise.derivative_eq

section Grade

variable {candidate : Expr} (h : readFormula answer = .ok candidate)

include h

theorem grade_ne_invalid (error : InputError) :
    exercise.grade answer settings ≠ .invalid error := by
  simp only [grade,h]
  cases firstMismatch? exercise.derivative candidate settings <;> simp

theorem grade_eq_correct_iff :
    exercise.grade answer settings = .correct ↔
      firstMismatch? exercise.derivative candidate settings = none := by
  simp only [grade,h]
  cases firstMismatch? exercise.derivative candidate settings <;> simp

theorem grade_eq_incorrect_iff {m : Mismatch} :
    exercise.grade answer settings = .incorrect m ↔
      firstMismatch? exercise.derivative candidate settings = some m := by
  simp only [grade,h]
  cases firstMismatch? exercise.derivative candidate settings <;> simp

end Grade

/-- The samples at which the derivative is no number. -/
def undefinedSamples (exercise : Exercise) (settings : Settings) : Set Nat :=
  {x | 1 ≤ x ∧ x < settings.limit ∧ (exercise.derivative.value (Float.ofNat x)).isNaN = true}

/-- The printed derivative of an exercise is an answer to it. It is correct if the derivative
is a number at every sample; otherwise the least sample where it is none is reported, whatever
the tolerance is. -/
theorem grade_own_derivative (h : ofEquation equation = .ok exercise) (settings : Settings) :
    (∀ error, exercise.grade exercise.derivative.text settings ≠ .invalid error) ∧
    (exercise.grade exercise.derivative.text settings = .correct ↔
      ∀ x, 1 ≤ x → x < settings.limit →
        (exercise.derivative.value (Float.ofNat x)).isNaN = false) ∧
    ((exercise.undefinedSamples settings).Nonempty →
      ∃ m, exercise.grade exercise.derivative.text settings = .incorrect m ∧
        IsLeast (exercise.undefinedSamples settings) m.sample ∧
        m.expected.isNaN = true ∧ m.actual.isNaN = true) := by
  have hr := readFormula_of_parse (Formula.parse_text_of_writable (writable_derivative h))
  have hs : disagreements exercise.derivative exercise.derivative settings =
      exercise.undefinedSamples settings := disagreements_self exercise.derivative settings
  refine ⟨grade_ne_invalid hr,?_,fun hn => ?_⟩
  · rw [grade_eq_correct_iff hr,firstMismatch?_eq_none_iff,hs,Set.eq_empty_iff_forall_notMem]
    constructor
    · intro hn x hl hu
      exact Bool.eq_false_iff.mpr fun hx => hn x ⟨hl,hu,hx⟩
    · rintro hn x ⟨hl,hu,hx⟩
      rw [hn x hl hu] at hx
      cases hx
  · have hf : firstMismatch? exercise.derivative exercise.derivative settings ≠ none := by
      rwa [Ne,firstMismatch?_eq_none_iff,hs,← Ne,← Set.nonempty_iff_ne_empty]
    obtain ⟨m,hm⟩ := Option.ne_none_iff_exists'.mp hf
    obtain ⟨hl,he,ha⟩ := firstMismatch?_eq_some_iff.mp hm
    rw [hs] at hl
    exact ⟨m,(grade_eq_incorrect_iff hr).mpr hm,hl,by rw [he,hl.1.2.2],by rw [ha,hl.1.2.2]⟩

theorem ofEquation_eq_ok {e d : Expr} (h : readFormula equation = .ok e)
    (hd : e.derivative = .ok d) : ofEquation equation = .ok ⟨equation, e, d, hd⟩ := by
  unfold ofEquation
  split
  · simp_all
  · rename_i b hb
    cases h.symm.trans hb
    split
    · simp_all
    · rename_i c hc
      cases hd.symm.trans hc
      rfl

/-- The derivative of this logarithm is the fraction of zeros at 2. -/
theorem grade_own_derivative_logarithm :
    ∃ exercise, ofEquation "ln((x-2)(x-2))" = .ok exercise ∧
      ∃ m, exercise.grade exercise.derivative.text ⟨-1, 1000⟩ = .incorrect m ∧
        m.sample = 2 ∧ m.expected.isNaN = true ∧ m.actual.isNaN = true := by
  have hp : Formula.parse "ln((x-2)(x-2))" = .ok (.ln (.binary .times
      (.binary .minus (.var "x") (.const 2)) (.binary .minus (.var "x") (.const 2)))) := by cbv
  have he := ofEquation_eq_ok (readFormula_of_parse hp) rfl
  refine ⟨_,he,?_⟩
  obtain ⟨m,hg,⟨⟨hl,-,hx⟩,hu⟩,hn⟩ :=
    (grade_own_derivative he ⟨-1, 1000⟩).2.2 ⟨2,by decide,by decide,rfl⟩
  have hu : m.sample ≤ 2 := hu ⟨by decide,by decide,rfl⟩
  rcases Nat.lt_or_eq_of_le hu with hlt | h2
  · rw [show m.sample = 1 by omega] at hx
    cases hx
  · exact ⟨m,hg,h2,hn⟩

end Exercise
end Fluxion
