import Fluxion.Comparison
import Mathlib

/-! What is accepted under a tolerance, in exact arithmetic. The branches of the comparison are
one condition: the difference counts against the sum of the magnitudes, or against the bound
for what is near zero if this is larger. Moving towards the expected value takes at least as
much from the difference as from the bound, so nothing is refused on the way. -/
namespace Fluxion

section Exact

variable {nearZero epsilon a b c : ℚ}

theorem abs_sub_of_zero (h : a = 0 ∨ b = 0) : |a - b| = |a| + |b| := by
  rcases h with rfl | rfl
  · rw [zero_sub,abs_neg,abs_zero,zero_add]
  · rw [sub_zero,abs_zero,add_zero]

/-- All branches at once. -/
theorem withinTolerance_iff (hz : 0 < nearZero) (h1 : epsilon ≤ 1) :
    withinTolerance abs nearZero a b epsilon = true ↔
      a = b ∨ |a - b| < epsilon * max nearZero (|a| + |b|) := by
  unfold withinTolerance
  split_ifs with heq hnear
  · exact iff_of_true rfl (.inl (eq_of_beq heq))
  · have hne : a ≠ b := fun h => heq (beq_iff_eq.mpr h)
    simp only [Bool.or_eq_true,beq_iff_eq,decide_eq_true_eq] at hnear ⊢
    rw [or_iff_right hne]
    rcases le_or_gt (|a| + |b|) nearZero with hle | hlt
    · rw [max_eq_left hle]
    · have hd : |a - b| = |a| + |b| := abs_sub_of_zero (hnear.resolve_right hlt.not_gt)
      rw [max_eq_right hlt.le,hd]
      have hs : 0 < |a| + |b| := hz.trans hlt
      have hbound : epsilon * (|a| + |b|) ≤ |a| + |b| := mul_le_of_le_one_left hs.le h1
      have hbound' : epsilon * nearZero ≤ nearZero := mul_le_of_le_one_left hz.le h1
      exact iff_of_false (by linarith) (by linarith)
  · have hne : a ≠ b := fun h => heq (beq_iff_eq.mpr h)
    simp only [Bool.or_eq_true,beq_iff_eq,decide_eq_true_eq,not_or,not_lt] at hnear ⊢
    rw [or_iff_right hne,max_eq_right hnear.2,div_lt_iff₀ (hz.trans_le hnear.2)]

/-- The values that are accepted for an expected one. -/
def accepted (nearZero epsilon a : ℚ) : Set ℚ :=
  {b | withinTolerance abs nearZero a b epsilon = true}

theorem accepted_of_between (hz : 0 < nearZero) (h1 : epsilon ≤ 1)
    (hb : b ∈ accepted nearZero epsilon a) (hc : c ∈ Set.uIcc a b) :
    c ∈ accepted nearZero epsilon a := by
  rcases (withinTolerance_iff hz h1).mp hb with rfl | hlt
  · rw [Set.uIcc_self,Set.mem_singleton_iff] at hc
    rwa [hc]
  · refine (withinTolerance_iff hz h1).mpr (.inr ?_)
    have h0 : 0 < epsilon :=
      (mul_pos_iff_of_pos_right (lt_max_of_lt_left hz)).mp ((abs_nonneg (a - b)).trans_lt hlt)
    have hdist : |a - c| + |c - b| = |a - b| := by
      rcases Set.mem_uIcc.mp hc with ⟨hl,hu⟩ | ⟨hl,hu⟩
      · rw [abs_of_nonpos (by linarith),abs_of_nonpos (by linarith),abs_of_nonpos (by linarith)]
        ring
      · rw [abs_of_nonneg (by linarith),abs_of_nonneg (by linarith),abs_of_nonneg (by linarith)]
        ring
    have hmax : max nearZero (|a| + |b|) ≤ max nearZero (|a| + |c|) + |c - b| := by
      have hsum : |b| ≤ |c| + |c - b| := by
        have := abs_sub_abs_le_abs_sub b c
        rw [abs_sub_comm b c] at this
        linarith
      refine max_le ?_ ?_
      · linarith [le_max_left nearZero (|a| + |c|),abs_nonneg (c - b)]
      · linarith [le_max_right nearZero (|a| + |c|)]
    calc |a - c| = |a - b| - |c - b| := by linarith
      _ < epsilon * max nearZero (|a| + |b|) - |c - b| := sub_lt_sub_right hlt _
      _ ≤ epsilon * (max nearZero (|a| + |c|) + |c - b|) - |c - b| :=
        sub_le_sub_right (mul_le_mul_of_nonneg_left hmax h0.le) _
      _ ≤ epsilon * max nearZero (|a| + |c|) := by
        have := mul_le_of_le_one_left (abs_nonneg (c - b)) h1
        linarith

/-- The accepted values are an interval with the expected one in it, wherever being near zero
begins: together with a value, all those between it and the expected one are accepted. Outside
it are the values whose difference reaches the bound. -/
theorem accepted_interval (hz : 0 < nearZero) (h1 : epsilon ≤ 1) (a : ℚ) :
    a ∈ accepted nearZero epsilon a ∧ (accepted nearZero epsilon a).OrdConnected ∧
      (∀ b, withinTolerance abs nearZero a b epsilon = true →
        ∀ c ∈ Set.uIcc a b, withinTolerance abs nearZero a c epsilon = true) ∧
      ∀ b, withinTolerance abs nearZero a b epsilon = false ↔
        a ≠ b ∧ epsilon * max nearZero (|a| + |b|) ≤ |a - b| := by
  have hbetween : ∀ b ∈ accepted nearZero epsilon a,
      Set.uIcc a b ⊆ accepted nearZero epsilon a :=
    fun b hb c hc => accepted_of_between hz h1 hb hc
  refine ⟨(withinTolerance_iff hz h1).mpr (.inl rfl),
    Set.ordConnected_of_uIcc_subset_left hbetween,hbetween,fun b => ?_⟩
  rw [← Bool.not_eq_true,withinTolerance_iff hz h1,not_or,not_lt]

/-- Here the farther value is compared by the sum of the magnitudes, the nearer one as a number
near zero. -/
theorem accepted_interval_seam :
    (0 : ℚ) < 1 / 1000 ∧ (1 / 2 : ℚ) ≤ 1 ∧
      withinTolerance abs (1 / 1000) (3 / 10000) (8 / 10000) (1 / 2 : ℚ) = true ∧
      (6 / 10000 : ℚ) ∈ Set.uIcc (3 / 10000) (8 / 10000) ∧
      withinTolerance abs (1 / 1000) (3 / 10000) (6 / 10000) (1 / 2 : ℚ) = true := by
  have hc : (6 / 10000 : ℚ) ∈ Set.uIcc (3 / 10000) (8 / 10000) :=
    Set.mem_uIcc.mpr (.inl ⟨by norm_num,by norm_num⟩)
  have hb : withinTolerance abs (1 / 1000) (3 / 10000) (8 / 10000) (1 / 2 : ℚ) = true := by
    decide +kernel
  exact ⟨by norm_num,by norm_num,hb,hc,
    (accepted_interval (by norm_num) (by norm_num) (3 / 10000)).2.2.1 _ hb _ hc⟩

end Exact

end Fluxion
