import Mathlib

/-! Rounding of doubles keeps their order. What is lost when a mantissa is made shorter is kept
in two bits, and all of it is one number that halving keeps in order. A double is then told by
its rank, the number of doubles from zero to it, and a product by that of its factors. -/
namespace Fluxion.Binary64

open Float.Model Float.Model.UnpackedFloat

section Mantissa

/-- A mantissa with its round bit and its sticky bit behind it. -/
def extended (em : ExtendedMantissa) : ℕ :=
  4 * em.mantissa + 2 * em.roundBit.toNat + em.stickyBit.toNat

variable {em em' : ExtendedMantissa}

theorem extended_div (em : ExtendedMantissa) : extended em / 4 = em.mantissa := by
  have hr := em.roundBit.toNat_le
  have hs := em.stickyBit.toNat_le
  unfold extended
  omega

theorem roundedMantissa_eq (em : ExtendedMantissa) :
    em.roundedMantissa = (extended em + 1 + em.mantissa % 2) / 4 := by
  obtain ⟨m,r,s⟩ := em
  cases r <;> cases s <;>
    simp [ExtendedMantissa.roundedMantissa,ExtendedMantissa.accuracy,Accuracy.roundToNearestEven,
      extended] <;> omega

theorem roundedMantissa_mono (h : extended em ≤ extended em') :
    em.roundedMantissa ≤ em'.roundedMantissa := by
  have hm := extended_div em
  have hm' := extended_div em'
  rw [roundedMantissa_eq,roundedMantissa_eq]
  rcases Nat.eq_or_lt_of_le (Nat.div_le_div_right (c := 4) h) with he | hlt
  · rw [hm,hm'] at he
    rw [he]
    omega
  · omega

theorem extended_shiftRightOne (em : ExtendedMantissa) :
    extended em.shiftRightOne = 2 * (extended em / 4) + min 1 (extended em % 4) := by
  obtain ⟨m,r,s⟩ := em
  rcases Nat.mod_two_eq_zero_or_one m with hm | hm <;> cases r <;> cases s <;>
    simp [ExtendedMantissa.shiftRightOne,extended,hm] <;> omega

theorem shift_zero (em : ExtendedMantissa) : em >>> 0 = em := rfl

theorem shift_succ (em : ExtendedMantissa) (k : ℕ) :
    em >>> (k + 1) = (em >>> k).shiftRightOne := rfl

theorem extended_shift_mono (h : extended em ≤ extended em') (k : ℕ) :
    extended (em >>> k) ≤ extended (em' >>> k) := by
  induction k with
  | zero => exact h
  | succ k ih =>
    rw [shift_succ,shift_succ,extended_shiftRightOne,extended_shiftRightOne]
    omega

theorem shift_add (em : ExtendedMantissa) (j k : ℕ) : em >>> (j + k) = (em >>> j) >>> k := by
  induction k with
  | zero => rfl
  | succ k ih => rw [← Nat.add_assoc,shift_succ,shift_succ,ih]

/-- The quotient of a number and a power of two, to the nearest whole number and on a tie to
the even one. -/
def nearest (m k : ℕ) : ℕ :=
  (ExtendedMantissa.ofMantissaAndAccuracy m .exact >>> k).roundedMantissa

variable {m m' k k' : ℕ}

theorem nearest_mono (h : m ≤ m') (k : ℕ) : nearest m k ≤ nearest m' k := by
  refine roundedMantissa_mono (extended_shift_mono ?_ k)
  simp [extended,ExtendedMantissa.ofMantissaAndAccuracy]
  omega

theorem shift_exact (m k : ℕ) :
    ExtendedMantissa.ofMantissaAndAccuracy (m * 2 ^ k) .exact >>> k =
      ExtendedMantissa.ofMantissaAndAccuracy m .exact := by
  induction k generalizing m with
  | zero => simp [shift_zero]
  | succ k ih =>
    rw [pow_succ',← mul_assoc,shift_succ,ih]
    simp [ExtendedMantissa.ofMantissaAndAccuracy,ExtendedMantissa.shiftRightOne]

theorem nearest_scale (m j k : ℕ) : nearest (m * 2 ^ j) (j + k) = nearest m k := by
  rw [nearest,shift_add,shift_exact,nearest]

theorem nearest_le_nearest (h : m * 2 ^ k' ≤ m' * 2 ^ k) : nearest m k ≤ nearest m' k' := by
  rw [← nearest_scale m k' k,← nearest_scale m' k k',Nat.add_comm k k']
  exact nearest_mono h _

theorem nearest_le (h : m ≤ m' * 2 ^ k) : nearest m k ≤ m' := by
  have h0 : m * 2 ^ 0 ≤ m' * 2 ^ k := by simpa using h
  exact nearest_le_nearest h0

theorem le_nearest (h : m' * 2 ^ k ≤ m) : m' ≤ nearest m k := by
  have h0 : m' * 2 ^ k ≤ m * 2 ^ 0 := by simpa using h
  exact nearest_le_nearest h0

/-- The same for a number that had more behind its mantissa. The accuracy says how much. -/
def nearestWith (m : ℕ) (accuracy : Accuracy) (k : ℕ) : ℕ :=
  (ExtendedMantissa.ofMantissaAndAccuracy m accuracy >>> k).roundedMantissa

theorem nearestWith_exact (m k : ℕ) : nearestWith m .exact k = nearest m k := rfl

theorem extended_bounds (m : ℕ) (accuracy : Accuracy) :
    extended (.ofMantissaAndAccuracy m .exact) ≤ extended (.ofMantissaAndAccuracy m accuracy) ∧
      extended (.ofMantissaAndAccuracy m accuracy) ≤
        extended (.ofMantissaAndAccuracy (m + 1) .exact) := by
  rcases accuracy with _ | (_ | _ | _) <;>
    simp [extended,ExtendedMantissa.ofMantissaAndAccuracy] <;> omega

theorem nearest_le_nearestWith (m : ℕ) (accuracy : Accuracy) (k : ℕ) :
    nearest m k ≤ nearestWith m accuracy k :=
  roundedMantissa_mono (extended_shift_mono (extended_bounds m accuracy).1 k)

theorem nearestWith_le_nearest (m : ℕ) (accuracy : Accuracy) (k : ℕ) :
    nearestWith m accuracy k ≤ nearest (m + 1) k :=
  roundedMantissa_mono (extended_shift_mono (extended_bounds m accuracy).2 k)

end Mantissa

/-- The exponent that a number is rounded to. -/
def quantum (m : ℕ) (e : ℤ) : ℤ := Format.binary64.targetExponent (totalExponent m e)

theorem quantum_eq (m : ℕ) (e : ℤ) : quantum m e = max (m.log2 + e - 52) (-1074) := by
  simp [quantum,Format.targetExponent,totalExponent,Format.mantissaBits,Format.minExponent]
  omega

/-- A rounded mantissa has 53 bits, or fewer if its exponent is the least one. -/
def Rounded : UnpackedFloat → Prop
  | .finite _ m e _ => m < 2 ^ 53 ∧ -1074 ≤ e ∧ (2 ^ 52 ≤ m ∨ e = -1074)
  | _ => True

/-- How many doubles there are from zero to this one, with its sign. Exponents may be as large
as they like. -/
def rank : UnpackedFloat → ℤ
  | .infinity s => s.apply (2047 * 2 ^ 52)
  | .notANumber => 0
  | .zero _ => 0
  | .finite s m e _ => s.apply ((e + 1074) * 2 ^ 52 + m)

/-- The rank that a number is rounded to. -/
def roundedRank (m : ℕ) (e : ℤ) : ℤ :=
  (quantum m e + 1074) * 2 ^ 52 + nearest m (quantum m e - e).toNat

section Round

variable {m m' : ℕ} {e e' : ℤ}

theorem nearestWith_quantum_le (m : ℕ) (accuracy : Accuracy) (e : ℤ) :
    nearestWith m accuracy (quantum m e - e).toNat ≤ 2 ^ 53 := by
  refine (nearestWith_le_nearest _ _ _).trans (nearest_le ?_)
  rw [← pow_add]
  refine (Nat.succ_le_of_lt Nat.lt_log2_self).trans (Nat.pow_le_pow_right two_pos ?_)
  rw [quantum_eq]
  omega

theorem nearest_quantum_le (m : ℕ) (e : ℤ) : nearest m (quantum m e - e).toNat ≤ 2 ^ 53 :=
  nearestWith_quantum_le m .exact e

theorem le_nearest_quantum (he : e ≤ quantum m e) (hq : -1074 < quantum m e) :
    2 ^ 52 ≤ nearest m (quantum m e - e).toNat := by
  have hm : m ≠ 0 := by
    rintro rfl
    rw [quantum_eq,Nat.log2_zero] at he hq
    omega
  refine le_nearest ?_
  rw [← pow_add]
  refine (Nat.pow_le_pow_right two_pos ?_).trans (Nat.log2_self_le hm)
  rw [quantum_eq] at hq he ⊢
  omega

theorem shift_of_lt (hm : m < 2 ^ 53) (he : -1074 ≤ e) :
    shiftToTargetExponent Format.binary64 m e .exact =
      (ExtendedMantissa.ofMantissaAndAccuracy m .exact, e) := by
  have hl : m.log2 ≤ 52 := by
    rcases Nat.eq_zero_or_pos m with rfl | hp
    · decide
    · exact Nat.le_of_lt_succ ((Nat.log2_lt hp.ne').mpr hm)
  have hq : (quantum m e - e).toNat = 0 := by
    rw [quantum_eq]
    omega
  rw [quantum] at hq
  simp [shiftToTargetExponent,shiftToExponent,hq,shift_zero]

theorem shift_of_full (he : -1074 ≤ e) :
    shiftToTargetExponent Format.binary64 (2 ^ 53) e .exact =
      (ExtendedMantissa.ofMantissaAndAccuracy (2 ^ 52) .exact, e + 1) := by
  have hq : (quantum (2 ^ 53) e - e).toNat = 1 := by
    rw [quantum_eq,Nat.log2_two_pow]
    omega
  rw [quantum] at hq
  simp only [shiftToTargetExponent,shiftToExponent,hq]
  rw [show (2 : ℕ) ^ 53 = 2 ^ 52 * 2 ^ 1 by decide,shift_exact]
  rfl

theorem carry_eq (s : Sign) {r : ℕ} (hr : r ≤ 2 ^ 53) (he : -1074 ≤ e) :
    (if h : (shiftToTargetExponent Format.binary64 r e .exact).1.mantissa = 0 then .zero s
      else .finite s (shiftToTargetExponent Format.binary64 r e .exact).1.mantissa
        (shiftToTargetExponent Format.binary64 r e .exact).2 (Nat.pos_of_ne_zero h)) =
      if h : r = 0 then UnpackedFloat.zero s
      else if r < 2 ^ 53 then .finite s r e (Nat.pos_of_ne_zero h)
      else .finite s (2 ^ 52) (e + 1) (by decide) := by
  rcases Nat.lt_or_eq_of_le hr with hlt | rfl
  · simp only [shift_of_lt hlt he,ExtendedMantissa.ofMantissaAndAccuracy,if_pos hlt]
  · simp only [shift_of_full he]
    rfl

theorem roundWithAccuracy_eq (s : Sign) (accuracy : Accuracy) (he : e ≤ quantum m e) :
    roundWithAccuracy Format.binary64 s m e accuracy =
      if h : nearestWith m accuracy (quantum m e - e).toNat = 0 then .zero s
      else if nearestWith m accuracy (quantum m e - e).toNat < 2 ^ 53 then
        .finite s (nearestWith m accuracy (quantum m e - e).toNat) (quantum m e)
          (Nat.pos_of_ne_zero h)
      else .finite s (2 ^ 52) (quantum m e + 1) (by decide) := by
  have hq : -1074 ≤ quantum m e := by
    rw [quantum_eq]
    omega
  have hfirst : shiftToTargetExponent Format.binary64 m e accuracy =
      (ExtendedMantissa.ofMantissaAndAccuracy m accuracy >>> (quantum m e - e).toNat,
        quantum m e) := by
    refine Prod.ext rfl ?_
    change e + ((quantum m e - e).toNat : ℤ) = quantum m e
    omega
  rw [← carry_eq s (nearestWith_quantum_le m accuracy e) hq]
  simp only [roundWithAccuracy,hfirst]
  rfl

theorem rank_roundWithAccuracy (s : Sign) (he : e ≤ quantum m e) :
    rank (roundWithAccuracy Format.binary64 s m e .exact) = s.apply (roundedRank m e) := by
  have hle := nearest_quantum_le m e
  have hge := le_nearest_quantum he
  have hq : -1074 ≤ quantum m e := by
    rw [quantum_eq]
    omega
  rw [roundWithAccuracy_eq s .exact he,roundedRank]
  rw [← nearestWith_exact] at hle hge ⊢
  split
  · rename_i hz
    have hmin : quantum m e = -1074 := by
      by_contra hne
      have := hge (by omega)
      omega
    rw [hz,hmin]
    cases s <;> rfl
  · split
    · rfl
    · rw [show nearestWith m .exact (quantum m e - e).toNat = 2 ^ 53 by omega]
      rw [rank]
      congr 1
      push_cast
      ring

theorem rounded_roundWithAccuracy (s : Sign) (accuracy : Accuracy) (he : e ≤ quantum m e) :
    Rounded (roundWithAccuracy Format.binary64 s m e accuracy) := by
  have hge := le_nearest_quantum he
  have hle := nearest_le_nearestWith m accuracy (quantum m e - e).toNat
  have hq : -1074 ≤ quantum m e := by
    rw [quantum_eq]
    omega
  rw [roundWithAccuracy_eq s accuracy he]
  split
  · trivial
  · split
    · rename_i hlt
      refine ⟨hlt,hq,?_⟩
      rcases hq.lt_or_eq with h | h
      · exact .inl ((hge h).trans hle)
      · exact .inr h.symm
    · exact ⟨by decide,by omega,.inl le_rfl⟩

/-- Rounding keeps the order. -/
theorem roundedRank_mono (hm : m ≠ 0) (he' : e' ≤ quantum m' e') (hee : e ≤ e')
    (h : m ≤ m' * 2 ^ (e' - e).toNat) : roundedRank m e ≤ roundedRank m' e' := by
  have hlog : (m.log2 : ℤ) + e ≤ m'.log2 + e' := by
    have hl : m.log2 ≤ m'.log2 + (e' - e).toNat := by
      have hlt : m < 2 ^ (m'.log2 + (e' - e).toNat + 1) := by
        calc m ≤ m' * 2 ^ (e' - e).toNat := h
          _ < 2 ^ (m'.log2 + 1) * 2 ^ (e' - e).toNat :=
            Nat.mul_lt_mul_of_pos_right Nat.lt_log2_self (by positivity)
          _ = 2 ^ (m'.log2 + (e' - e).toNat + 1) := by rw [← pow_add]; congr 1; omega
      exact Nat.le_of_lt_succ ((Nat.log2_lt hm).mpr hlt)
    omega
  have hq : quantum m e ≤ quantum m' e' := by
    rw [quantum_eq,quantum_eq]
    omega
  have hmin : -1074 ≤ quantum m e := by
    rw [quantum_eq]
    omega
  unfold roundedRank
  rcases hq.lt_or_eq with hlt | heq
  · have hr := nearest_quantum_le m e
    have hr' := le_nearest_quantum he' (by omega)
    omega
  · have hk : (quantum m e - e).toNat = (e' - e).toNat + (quantum m' e' - e').toNat := by omega
    have hr : nearest m (quantum m e - e).toNat ≤ nearest m' (quantum m' e' - e').toNat := by
      rw [hk,← nearest_scale m' (e' - e).toNat]
      exact nearest_mono h _
    rw [heq] at hr ⊢
    omega

end Round

end Fluxion.Binary64
