import Fluxion.Proofs.Answers
import Fluxion.Proofs.Doubles

/-! What the settings do to a verdict. A higher limit only adds samples behind those that are
tried already, and a higher tolerance never takes one away at which two expressions agree: the
branch that compares two values is chosen without the tolerance, and both bounds that a branch
can use grow with it. So an answer that was correct stays correct under looser settings. -/
namespace Fluxion

section Limits

variable {reference candidate : Expr} {epsilon : Float} {settings : Settings}

/-- At the sample both expressions are numbers, and nearly equal ones. -/
def AgreeAt (reference candidate : Expr) (epsilon : Float) (sample : Nat) : Prop :=
  (reference.value (Float.ofNat sample)).isNaN = false ∧
  (candidate.value (Float.ofNat sample)).isNaN = false ∧
  isClose (reference.value (Float.ofNat sample)) (candidate.value (Float.ofNat sample))
    epsilon = true

theorem mem_disagreements_iff {x : Nat} :
    x ∈ disagreements reference candidate settings ↔
      1 ≤ x ∧ x < settings.limit ∧ ¬ AgreeAt reference candidate settings.epsilon x := by
  rw [AgreeAt,← mismatchAt?_eq_none_iff]
  rfl

theorem disagreements_eq (reference candidate : Expr) (settings : Settings) :
    disagreements reference candidate settings =
      {x | 1 ≤ x ∧ x < settings.limit ∧ ¬ AgreeAt reference candidate settings.epsilon x} :=
  Set.ext fun _ => mem_disagreements_iff

theorem firstMismatch?_eq_none_iff_agree :
    firstMismatch? reference candidate settings = none ↔
      ∀ x, 1 ≤ x → x < settings.limit → AgreeAt reference candidate settings.epsilon x := by
  rw [firstMismatch?_eq_none_iff,Set.eq_empty_iff_forall_notMem]
  simp only [mem_disagreements_iff,not_and,not_not]

theorem mem_disagreements_limit_iff {limit limit' : Nat} (h : limit ≤ limit') {x : Nat} :
    x ∈ disagreements reference candidate ⟨epsilon, limit⟩ ↔
      x ∈ disagreements reference candidate ⟨epsilon, limit'⟩ ∧ x < limit := by
  simp only [mem_disagreements_iff]
  constructor
  · rintro ⟨hl,hu,hx⟩
    exact ⟨⟨hl,hu.trans_le h,hx⟩,hu⟩
  · rintro ⟨⟨hl,-,hx⟩,hu⟩
    exact ⟨hl,hu,hx⟩

theorem isLeast_disagreements_limit_iff {limit limit' : Nat} (h : limit ≤ limit') {x : Nat} :
    IsLeast (disagreements reference candidate ⟨epsilon, limit⟩) x ↔
      IsLeast (disagreements reference candidate ⟨epsilon, limit'⟩) x ∧ x < limit := by
  constructor
  · rintro ⟨hx,hleast⟩
    obtain ⟨hx',hu⟩ := (mem_disagreements_limit_iff h).mp hx
    refine ⟨⟨hx',fun y hy => ?_⟩,hu⟩
    by_contra hlt
    exact hlt (hleast ((mem_disagreements_limit_iff h).mpr ⟨hy,by omega⟩))
  · rintro ⟨⟨hx,hleast⟩,hu⟩
    exact ⟨(mem_disagreements_limit_iff h).mpr ⟨hx,hu⟩,
      fun y hy => hleast ((mem_disagreements_limit_iff h).mp hy).1⟩

theorem firstMismatch?_limit_iff {limit limit' : Nat} (h : limit ≤ limit') {m : Mismatch} :
    firstMismatch? reference candidate ⟨epsilon, limit⟩ = some m ↔
      firstMismatch? reference candidate ⟨epsilon, limit'⟩ = some m ∧ m.sample < limit := by
  simp only [firstMismatch?_eq_some_iff,isLeast_disagreements_limit_iff h]
  tauto

end Limits

/-- The least sample at which two expressions do not agree is reported, with the values there,
and nothing is reported if they agree at all of them. Up to a higher limit the same is found,
if it is below the lower one. -/
theorem firstMismatch?_least (reference candidate : Expr) (epsilon : Float) :
    (∀ limit, firstMismatch? reference candidate ⟨epsilon, limit⟩ = none ↔
      ∀ x, 1 ≤ x → x < limit → AgreeAt reference candidate epsilon x) ∧
    (∀ limit m, firstMismatch? reference candidate ⟨epsilon, limit⟩ = some m ↔
      IsLeast {x | 1 ≤ x ∧ x < limit ∧ ¬ AgreeAt reference candidate epsilon x} m.sample ∧
      m.expected = reference.value (Float.ofNat m.sample) ∧
      m.actual = candidate.value (Float.ofNat m.sample)) ∧
    ∀ limit limit', limit ≤ limit' →
      (firstMismatch? reference candidate ⟨epsilon, limit'⟩ = none →
        firstMismatch? reference candidate ⟨epsilon, limit⟩ = none) ∧
      (∀ m, firstMismatch? reference candidate ⟨epsilon, limit⟩ = some m →
        firstMismatch? reference candidate ⟨epsilon, limit'⟩ = some m) ∧
      ∀ m, firstMismatch? reference candidate ⟨epsilon, limit'⟩ = some m →
        (firstMismatch? reference candidate ⟨epsilon, limit⟩ = some m ↔ m.sample < limit) := by
  refine ⟨fun limit => firstMismatch?_eq_none_iff_agree,fun limit m => ?_,
    fun limit limit' h => ⟨fun hn => ?_,fun m hm => ?_,fun m hm => ?_⟩⟩
  · rw [firstMismatch?_eq_some_iff,disagreements_eq]
  · rw [firstMismatch?_eq_none_iff_agree] at hn ⊢
    exact fun x hl hu => hn x hl (hu.trans_le h)
  · exact ((firstMismatch?_limit_iff h).mp hm).1
  · exact (firstMismatch?_limit_iff h).trans (and_iff_right hm)

/-- A number and its square agree at 1 and not at 2. -/
theorem firstMismatch?_least_square :
    firstMismatch? (.var "x") (.binary .times (.var "x") (.var "x")) ⟨1e-4, 2⟩ = none ∧
    ∃ m, m.sample = 2 ∧
      firstMismatch? (.var "x") (.binary .times (.var "x") (.var "x")) ⟨1e-4, 3⟩ = some m ∧
      firstMismatch? (.var "x") (.binary .times (.var "x") (.var "x")) ⟨1e-4, 1000⟩ = some m := by
  obtain ⟨hnone,-,hlimits⟩ :=
    firstMismatch?_least (.var "x") (.binary .times (.var "x") (.var "x")) 1e-4
  have h3 : (firstMismatch? (.var "x") (.binary .times (.var "x") (.var "x")) ⟨1e-4, 3⟩).map
      Mismatch.sample = some 2 := by decide +kernel
  obtain ⟨m,hm,h2⟩ := Option.map_eq_some_iff.mp h3
  refine ⟨(hnone 2).mpr fun x hl hu => ?_,m,h2,hm,(hlimits 3 1000 (by decide)).2.1 m hm⟩
  obtain rfl : x = 1 := by omega
  exact ⟨by decide,by decide,by decide +kernel⟩

section Tolerances

variable {a b epsilon epsilon' : Float}

theorem unpack_nearZero : ∃ m e h, nearZero.toModel.unpack = .finite .positive m e h :=
  ⟨_,_,_,rfl⟩

/-- What is close stays so when more is tolerated. -/
theorem isClose_mono (hepsilon : epsilon ≤ epsilon') (h : isClose a b epsilon = true) :
    isClose a b epsilon' = true := by
  obtain ⟨m,e,hm,hz⟩ := unpack_nearZero
  unfold isClose withinTolerance at h ⊢
  split_ifs at h ⊢ with heq hnear
  · rfl
  · rw [decide_eq_true_iff] at h ⊢
    exact Binary64.lt_of_lt_of_le h (Binary64.mul_le_mul_right hz hepsilon)
  · rw [decide_eq_true_iff] at h ⊢
    exact Binary64.lt_of_lt_of_le h hepsilon

theorem AgreeAt.mono {reference candidate : Expr} {sample : Nat} (hepsilon : epsilon ≤ epsilon')
    (h : AgreeAt reference candidate epsilon sample) :
    AgreeAt reference candidate epsilon' sample :=
  ⟨h.1,h.2.1,isClose_mono hepsilon h.2.2⟩

variable {reference candidate : Expr} {strict loose : Settings}

theorem disagreements_anti (hepsilon : strict.epsilon ≤ loose.epsilon)
    (hlimit : loose.limit ≤ strict.limit) :
    disagreements reference candidate loose ⊆ disagreements reference candidate strict := by
  intro x hx
  obtain ⟨hl,hu,hn⟩ := mem_disagreements_iff.mp hx
  exact mem_disagreements_iff.mpr
    ⟨hl,hu.trans_le hlimit,fun hs => hn (AgreeAt.mono hepsilon hs)⟩

theorem exists_firstMismatch?_of_loose (hepsilon : strict.epsilon ≤ loose.epsilon)
    (hlimit : loose.limit ≤ strict.limit) {m' : Mismatch}
    (h : firstMismatch? reference candidate loose = some m') :
    ∃ m, firstMismatch? reference candidate strict = some m ∧ m.sample ≤ m'.sample := by
  have hmem := disagreements_anti hepsilon hlimit (firstMismatch?_eq_some_iff.mp h).1.1
  cases hs : firstMismatch? reference candidate strict with
  | none =>
    rw [firstMismatch?_eq_none_iff] at hs
    rw [hs] at hmem
    exact hmem.elim
  | some m => exact ⟨m,rfl,(firstMismatch?_eq_some_iff.mp hs).1.2 hmem⟩

end Tolerances

namespace Exercise

/-- Looser settings, with a higher tolerance and a lower limit, accept every answer that was
accepted; an answer that they reject was rejected at the same sample or at an earlier one; and
the answers that cannot be read are the same ones. -/
theorem grade_loosened (exercise : Exercise) (answer : String) {strict loose : Settings}
    (hepsilon : strict.epsilon ≤ loose.epsilon) (hlimit : loose.limit ≤ strict.limit) :
    (exercise.grade answer strict = .correct → exercise.grade answer loose = .correct) ∧
    (∀ m', exercise.grade answer loose = .incorrect m' →
      ∃ m, exercise.grade answer strict = .incorrect m ∧ m.sample ≤ m'.sample) ∧
    ∀ error, exercise.grade answer strict = .invalid error ↔
      exercise.grade answer loose = .invalid error := by
  cases hr : readFormula answer with
  | error e => simp [grade,hr]
  | ok candidate =>
    refine ⟨fun hs => ?_,fun m' hm => ?_,fun error => ?_⟩
    · rw [grade_eq_correct_iff hr,firstMismatch?_eq_none_iff] at hs ⊢
      exact Set.subset_eq_empty (disagreements_anti hepsilon hlimit) hs
    · obtain ⟨m,hm,hle⟩ :=
        exists_firstMismatch?_of_loose hepsilon hlimit ((grade_eq_incorrect_iff hr).mp hm)
      exact ⟨m,(grade_eq_incorrect_iff hr).mpr hm,hle⟩
    · exact iff_of_false (grade_ne_invalid hr error) (grade_ne_invalid hr error)

/-- The answer is off by 1. With a tolerance of 0.2 that is too much at 3 and not yet at 2. -/
theorem grade_loosened_offset :
    (0.1 : Float) ≤ 0.2 ∧ ∃ exercise, ofEquation "x*x" = .ok exercise ∧
      (∃ m', exercise.grade "x*x+1" ⟨0.2, 5⟩ = .incorrect m' ∧ m'.sample = 3) ∧
      ∃ m, exercise.grade "x*x+1" ⟨0.1, 1000⟩ = .incorrect m ∧ m.sample ≤ 3 := by
  have he : Formula.parse "x*x" = .ok (.binary .times (.var "x") (.var "x")) := by cbv
  have ha : Formula.parse "x*x+1" =
      .ok (.binary .plus (.binary .times (.var "x") (.var "x")) (.const 1)) := by cbv
  obtain ⟨exercise,hx,hd⟩ : ∃ exercise, ofEquation "x*x" = .ok exercise ∧
      exercise.derivative = .binary .plus (.binary .times (.const 1) (.var "x"))
        (.binary .times (.var "x") (.const 1)) :=
    ⟨_,ofEquation_eq_ok (readFormula_of_parse he) rfl,rfl⟩
  have hle : (0.1 : Float) ≤ 0.2 := by decide
  obtain ⟨m',hm,h3⟩ : ∃ m', exercise.grade "x*x+1" ⟨0.2, 5⟩ = .incorrect m' ∧ m'.sample = 3 := by
    simp only [grade_eq_incorrect_iff (readFormula_of_parse ha),hd]
    exact Option.map_eq_some_iff.mp (by decide +kernel)
  obtain ⟨m,hs,hm'⟩ :=
    (@grade_loosened exercise "x*x+1" ⟨0.1, 1000⟩ ⟨0.2, 5⟩ hle (by decide)).2.1 m' hm
  exact ⟨hle,exercise,hx,⟨m',hm,h3⟩,m,hs,hm'.trans_eq h3⟩

end Exercise
end Fluxion
