import Fluxion.Comparison
import Fluxion.Proofs.Quotients
import Mathlib

/-! Which large doubles pass for nearly equal. The sum of their magnitudes and their difference
are rounded before they are divided, but this takes little from either. Only where the sum is too
large for a double it says nothing about the numbers any more, and all differences are small
against it. -/
namespace Fluxion

open Binary64 (number?)

theorem error_le {r x : ℚ} (h : |r - x| ≤ 2 ^ (-52 : ℤ) * |x|) : |r - x| ≤ 1 / 4 * |x| :=
  h.trans (mul_le_mul_of_nonneg_right (by norm_num) (abs_nonneg x))

section Large

variable {a b epsilon : Float} {p q e z s d : ℚ}

theorem sum_bounds (hp : number? a = some p) (hq : number? b = some q)
    (hs : number? (a.abs + b.abs) = some s) :
    3 / 4 * (|p| + |q|) ≤ s ∧ s ≤ 5 / 4 * (|p| + |q|) := by
  have he := error_le
    (Binary64.add_error (Binary64.number?_abs_of_eq hp) (Binary64.number?_abs_of_eq hq) hs)
  rw [abs_of_nonneg (add_nonneg (abs_nonneg p) (abs_nonneg q)),abs_le] at he
  exact ⟨by linarith [he.1],by linarith [he.2]⟩

theorem le_difference (hp : number? a = some p) (hq : number? b = some q)
    (hd : number? (a - b) = some d) : 3 / 4 * |p - q| ≤ |d| := by
  have he := error_le (Binary64.sub_error hp hq hd)
  have hdown := abs_sub_abs_le_abs_sub (p - q) d
  rw [abs_sub_comm (p - q) d] at hdown
  linarith

theorem sum_infinite (hp : number? a = some p) (hq : number? b = some q) (hp0 : p ≠ 0)
    (h : (a.abs + b.abs).isFinite = false) :
    (a.abs + b.abs).toModel.unpack = .infinity .positive :=
  Binary64.unpack_add_infinite (Binary64.number?_abs_of_eq hp) (Binary64.number?_abs_of_eq hq)
    (add_pos_of_pos_of_nonneg (abs_pos.mpr hp0) (abs_nonneg q)) h

theorem beq_zero_of_number (hp : number? a = some p) (hp0 : p ≠ 0) : (a == 0) = false :=
  Bool.eq_false_iff.mpr fun h => hp0 (Binary64.eq_of_beq hp rfl h)

theorem not_sum_lt_nearZero (hp : number? a = some p) (hq : number? b = some q) (hp0 : p ≠ 0)
    (hz : number? nearZero = some z) (hsum : 2 * z ≤ |p| + |q|) :
    ¬a.abs + b.abs < nearZero := by
  cases hfinite : (a.abs + b.abs).isFinite with
  | true =>
    obtain ⟨s,hs⟩ := Binary64.isFinite_iff.mp hfinite
    rw [Binary64.lt_iff_of_number hs hz,not_lt]
    linarith [(sum_bounds hp hq hs).1,abs_nonneg p,abs_nonneg q]
  | false => exact Binary64.not_lt_of_infinite (sum_infinite hp hq hp0 hfinite)

/-- Large numbers are compared by the quotient. -/
theorem isClose_iff_of_large (epsilon : Float) (hp : number? a = some p) (hq : number? b = some q)
    (hp0 : p ≠ 0) (hq0 : q ≠ 0) (hz : number? nearZero = some z) (hsum : 2 * z ≤ |p| + |q|) :
    isClose a b epsilon = true ↔
      (a == b) = true ∨ (a - b).abs / (a.abs + b.abs) < epsilon := by
  have hnear : ¬(a == 0 || b == 0 || decide (a.abs + b.abs < nearZero)) = true := by
    rw [beq_zero_of_number hp hp0,beq_zero_of_number hq hq0,
      decide_eq_false (not_sum_lt_nearZero hp hq hp0 hz hsum)]
    exact Bool.noConfusion
  rw [isClose,withinTolerance,if_neg hnear]
  split_ifs with heq
  · exact iff_of_true rfl (.inl heq)
  · rw [decide_eq_true_iff,or_iff_right heq]

/-- As long as the sum of the magnitudes is not too large for a double, large numbers that are
accepted differ little. As soon as it is too large, every pair of numbers is accepted that has a
difference. -/
theorem isClose_of_large (hp : number? a = some p) (hq : number? b = some q)
    (he : number? epsilon = some e) (hz : number? nearZero = some z) (hp0 : p ≠ 0) (hq0 : q ≠ 0)
    (he0 : 0 < e) (hsum : 2 * z ≤ |p| + |q|) :
    ((a.abs + b.abs).isFinite = true → isClose a b epsilon = true →
        |p - q| ≤ 2 * e * (|p| + |q|)) ∧
      ((a.abs + b.abs).isFinite = false → isClose a b epsilon = (a - b).isFinite) := by
  have hclose := isClose_iff_of_large epsilon hp hq hp0 hq0 hz hsum
  have hsum0 : 0 < |p| + |q| := add_pos (abs_pos.mpr hp0) (abs_pos.mpr hq0)
  refine ⟨fun hfinite h => ?_,fun hfinite => ?_⟩
  · obtain ⟨s,hs⟩ := Binary64.isFinite_iff.mp hfinite
    obtain ⟨hlow,hhigh⟩ := sum_bounds hp hq hs
    rcases hclose.mp h with heq | hlt
    · rw [Binary64.eq_of_beq hp hq heq,sub_self,abs_zero]
      positivity
    · have hs0 : 0 < s := by linarith
      obtain ⟨d,hd,hquot⟩ := Binary64.div_lt_of_lt hs he hs0 he0 hlt
      have hdiff := le_difference hp hq hd
      have hbound : e * s ≤ e * (5 / 4 * (|p| + |q|)) := mul_le_mul_of_nonneg_left hhigh he0.le
      have hpos : 0 < e * (|p| + |q|) := mul_pos he0 hsum0
      rw [div_lt_iff₀ hs0] at hquot
      linarith
  · have hinf := sum_infinite hp hq hp0 hfinite
    rw [Bool.eq_iff_iff,hclose,Binary64.div_infinite_lt_iff hinf he he0,or_iff_right_iff_imp]
    intro heq
    obtain rfl := Binary64.eq_of_beq hp hq heq
    exact Binary64.sub_isFinite_of_eq hp hq

/-- Two numbers that can be added, and two that cannot and are accepted far apart. -/
theorem isClose_of_large_overflow :
    (∃ p q e, number? 1e300 = some p ∧ number? 1.0001e300 = some q ∧ number? 1e-4 = some e ∧
      isClose 1e300 1.0001e300 1e-4 = true ∧ |p - q| ≤ 2 * e * (|p| + |q|)) ∧
    ∃ p q e, number? 1.7e308 = some p ∧ number? 1e308 = some q ∧ number? 1e-4 = some e ∧
      isClose 1.7e308 1e308 1e-4 = true ∧ 2 * e * (|p| + |q|) < |p - q| := by
  have hz : number? nearZero = some (Binary64.dyadic .positive 4611686018427388 (-62)) := rfl
  have he : number? 1e-4 = some (Binary64.dyadic .positive 7378697629483821 (-66)) := rfl
  constructor
  · have hp : number? 1e300 = some (Binary64.dyadic .positive 6724873095247260 944) := by
      decide +kernel
    have hq : number? 1.0001e300 = some (Binary64.dyadic .positive 6725545582556784 944) := by
      decide +kernel
    have hclose : isClose 1e300 1.0001e300 1e-4 = true := by decide +kernel
    exact ⟨_,_,_,hp,hq,he,hclose,
      (isClose_of_large hp hq he hz (by decide +kernel) (by decide +kernel) (by decide +kernel)
        (by decide +kernel)).1 (by decide +kernel) hclose⟩
  · have hp : number? 1.7e308 = some (Binary64.dyadic .positive 8517715530038134 971) := by
      decide +kernel
    have hq : number? 1e308 = some (Binary64.dyadic .positive 5010420900022432 971) := by
      decide +kernel
    have hfinite : (1.7e308 - 1e308 : Float).isFinite = true := by decide +kernel
    have hclose : isClose 1.7e308 1e308 1e-4 = (1.7e308 - 1e308 : Float).isFinite :=
      (isClose_of_large hp hq he hz (by decide +kernel) (by decide +kernel) (by decide +kernel)
        (by decide +kernel)).2 (by decide +kernel)
    exact ⟨_,_,_,hp,hq,he,hclose.trans hfinite,by decide +kernel⟩

end Large

end Fluxion
