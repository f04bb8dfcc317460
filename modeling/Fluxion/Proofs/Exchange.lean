import Fluxion.Proofs.Sampling
import Fluxion.Proofs.Sums
import Mathlib

/-! Comparison with the two sides exchanged. A tolerance is asked of the sum of the magnitudes
and of the magnitude of the difference, and these do not tell the sides apart. So whichever of
two expressions is the reference, they differ at the same samples. -/
namespace Fluxion

/-- Only three laws of the number system matter. -/
theorem withinTolerance_comm {α : Type} [OfNat α 0] [Add α] [Sub α] [Mul α] [Div α] [BEq α] [LT α]
    [DecidableLT α] {abs : α → α} (hbeq : ∀ a b : α, (a == b) = (b == a))
    (hadd : ∀ a b : α, a + b = b + a) (hsub : ∀ a b : α, abs (a - b) = abs (b - a))
    (nearZero a b epsilon : α) :
    withinTolerance abs nearZero a b epsilon = withinTolerance abs nearZero b a epsilon := by
  unfold withinTolerance
  rw [hbeq a b,hadd (abs a),hsub a b,Bool.or_comm (a == 0)]

theorem isClose_comm (a b epsilon : Float) : isClose a b epsilon = isClose b a epsilon :=
  withinTolerance_comm (fun _ _ => BEq.comm) Binary64.float_add_comm Binary64.float_abs_sub_comm
    nearZero a b epsilon

/-- The mismatch as it is seen from the other side. -/
def Mismatch.exchanged (m : Mismatch) : Mismatch := ⟨m.sample, m.actual, m.expected⟩

section Sides

variable (reference candidate : Expr) (epsilon : Float)

theorem mismatchAt?_exchanged (sample : Nat) :
    mismatchAt? candidate reference epsilon sample =
      (mismatchAt? reference candidate epsilon sample).map Mismatch.exchanged := by
  simp only [mismatchAt?]
  rw [isClose_comm,Bool.or_comm (Float.isNaN (candidate.value _))]
  split <;> rfl

theorem firstMismatchFrom?_exchanged (count sample : Nat) :
    firstMismatchFrom? candidate reference epsilon count sample =
      (firstMismatchFrom? reference candidate epsilon count sample).map Mismatch.exchanged := by
  induction count generalizing sample with
  | zero => rfl
  | succ count ih =>
    simp only [firstMismatchFrom?,mismatchAt?_exchanged reference candidate]
    cases mismatchAt? reference candidate epsilon sample with
    | some m => rfl
    | none => exact ih (sample + 1)

end Sides

/-- With the sides exchanged two expressions pass for equal as before, or they differ at the
same sample, where the values have changed places. -/
theorem firstMismatch?_exchanged (reference candidate : Expr) (settings : Settings) :
    (firstMismatch? candidate reference settings = none ↔
      firstMismatch? reference candidate settings = none) ∧
    ∀ sample expected actual,
      firstMismatch? candidate reference settings = some ⟨sample, actual, expected⟩ ↔
        firstMismatch? reference candidate settings = some ⟨sample, expected, actual⟩ := by
  have h : firstMismatch? candidate reference settings =
      (firstMismatch? reference candidate settings).map Mismatch.exchanged :=
    firstMismatchFrom?_exchanged reference candidate settings.epsilon (settings.limit - 1) 1
  rw [h]
  refine ⟨Option.map_eq_none_iff,fun sample expected actual => ?_⟩
  rw [Option.map_eq_some_iff]
  constructor
  · rintro ⟨⟨s,e,a⟩,hm,he⟩
    cases he
    exact hm
  · intro hm
    exact ⟨_,hm,rfl⟩

end Fluxion
