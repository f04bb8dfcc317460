import Fluxion.Proofs.Numbers
import Mathlib

/-! Quotients of doubles. So many digits of a quotient are computed that its mantissa is complete,
and then it is rounded. So a quotient that is not less than a double does not come out below it,
and a quotient by the infinite is zero. -/
namespace Fluxion.Binary64

open Float.Model (Format UnpackedFloat)
open Float.Model.UnpackedFloat (Sign Accuracy roundWithAccuracy)

section Quotient

variable {m₁ m₂ n : ℕ} {e₁ e₂ i : ℤ}

/-- The exponent at which the digits of a quotient end that are computed before it is rounded. -/
def quotientExponent (m₁ : ℕ) (e₁ : ℤ) (m₂ : ℕ) (e₂ : ℤ) : ℤ :=
  min (e₁ - e₂)
    (Format.binary64.targetExponent
      (Float.Model.totalExponent m₁ e₁ - Float.Model.totalExponent m₂ e₂))

/-- The digits of a quotient that are computed before it is rounded. -/
def quotientDigits (m₁ : ℕ) (e₁ : ℤ) (m₂ : ℕ) (e₂ : ℤ) : ℕ :=
  m₁ * 2 ^ (e₁ - e₂ - quotientExponent m₁ e₁ m₂ e₂).toNat / m₂

theorem quotientExponent_eq (m₁ : ℕ) (e₁ : ℤ) (m₂ : ℕ) (e₂ : ℤ) :
    quotientExponent m₁ e₁ m₂ e₂ =
      min (e₁ - e₂) (max (m₁.log2 + e₁ - (m₂.log2 + e₂) - 53) (-1074)) := by
  simp [quotientExponent,Format.targetExponent,Float.Model.totalExponent,Format.mantissaBits,
    Format.minExponent]
  omega

theorem exists_div_eq (s₁ s₂ : Sign) (e₁ e₂ : ℤ) (h₁ : 0 < m₁) (h₂ : 0 < m₂) :
    ∃ accuracy, UnpackedFloat.div Format.binary64 (.finite s₁ m₁ e₁ h₁) (.finite s₂ m₂ e₂ h₂) =
      roundWithAccuracy Format.binary64 (s₁ / s₂) (quotientDigits m₁ e₁ m₂ e₂)
        (quotientExponent m₁ e₁ m₂ e₂) accuracy := by
  rw [quotientDigits,← Nat.shiftLeft_eq]
  exact ⟨_,rfl⟩

theorem le_quotientDigits (h₁ : 0 < m₁) (h₂ : 0 < m₂)
    (h : -1074 < quotientExponent m₁ e₁ m₂ e₂) : 2 ^ 52 ≤ quotientDigits m₁ e₁ m₂ e₂ := by
  rw [quotientDigits,Nat.le_div_iff_mul_le h₂]
  have hk : 52 + (m₂.log2 + 1) ≤
      m₁.log2 + (e₁ - e₂ - quotientExponent m₁ e₁ m₂ e₂).toNat := by
    rw [quotientExponent_eq] at h ⊢
    omega
  calc 2 ^ 52 * m₂ ≤ 2 ^ 52 * 2 ^ (m₂.log2 + 1) := Nat.mul_le_mul_left _ Nat.lt_log2_self.le
    _ = 2 ^ (52 + (m₂.log2 + 1)) := (pow_add _ _ _).symm
    _ ≤ 2 ^ (m₁.log2 + (e₁ - e₂ - quotientExponent m₁ e₁ m₂ e₂).toNat) :=
      Nat.pow_le_pow_right two_pos hk
    _ ≤ m₁ * 2 ^ (e₁ - e₂ - quotientExponent m₁ e₁ m₂ e₂).toNat := by
      rw [pow_add]
      exact Nat.mul_le_mul_right _ (Nat.log2_self_le h₁.ne')

theorem quotientExponent_le_quantum (e₁ e₂ : ℤ) (h₁ : 0 < m₁) (h₂ : 0 < m₂) :
    quotientExponent m₁ e₁ m₂ e₂ ≤
      quantum (quotientDigits m₁ e₁ m₂ e₂) (quotientExponent m₁ e₁ m₂ e₂) := by
  rw [quantum_eq]
  rcases le_or_gt (quotientExponent m₁ e₁ m₂ e₂) (-1074) with hle | hlt
  · omega
  · have hd := le_quotientDigits h₁ h₂ hlt
    have hlog : 52 ≤ (quotientDigits m₁ e₁ m₂ e₂).log2 :=
      (Nat.le_log2 (by omega)).mpr hd
    omega

theorem le_quotientDigits_mul (h₁ : 0 < m₁) (h₂ : 0 < m₂) (hn : n < 2 ^ 53) (hi : -1074 ≤ i)
    (h : (n : ℚ) * 2 ^ i ≤ m₁ * 2 ^ e₁ / (m₂ * 2 ^ e₂)) :
    (n : ℚ) * 2 ^ i ≤ quotientDigits m₁ e₁ m₂ e₂ * 2 ^ quotientExponent m₁ e₁ m₂ e₂ := by
  rcases le_or_gt (quotientExponent m₁ e₁ m₂ e₂) i with hle | hlt
  · rw [mul_two_zpow_le_iff hle,quotientDigits,Nat.le_div_iff_mul_le h₂]
    have ht : e₂ + quotientExponent m₁ e₁ m₂ e₂ ≤ e₁ := by
      rw [quotientExponent_eq]
      omega
    have hk : e₁ - e₂ - quotientExponent m₁ e₁ m₂ e₂ =
        e₁ - (e₂ + quotientExponent m₁ e₁ m₂ e₂) := by ring
    rw [le_div_iff₀ (dyadic_pos h₂ e₂),two_zpow_split hle,two_zpow_split ht,
      zpow_add₀ two_ne_zero,← hk] at h
    have hpos : (0 : ℚ) < 2 ^ e₂ * 2 ^ quotientExponent m₁ e₁ m₂ e₂ :=
      mul_pos (two_zpow_pos _) (two_zpow_pos _)
    have hle' : (n : ℚ) * 2 ^ (i - quotientExponent m₁ e₁ m₂ e₂).toNat * m₂ ≤
        m₁ * 2 ^ (e₁ - e₂ - quotientExponent m₁ e₁ m₂ e₂).toNat := by
      refine le_of_mul_le_mul_right ?_ hpos
      linarith
    exact_mod_cast hle'
  · exact (mul_two_zpow_lt hn (le_quotientDigits h₁ h₂ (by omega)) hlt).le

theorem le_nearest_mul {m : ℕ} {e : ℤ} (hn : n < 2 ^ 53) (hi : -1074 ≤ i) (he : e ≤ quantum m e)
    (h : (n : ℚ) * 2 ^ i ≤ m * 2 ^ e) :
    (n : ℚ) * 2 ^ i ≤ nearest m (quantum m e - e).toNat * 2 ^ quantum m e := by
  rcases le_or_gt (quantum m e) i with hle | hlt
  · rw [mul_two_zpow_le_iff hle]
    refine le_nearest ?_
    rw [mul_assoc,← pow_add]
    rw [mul_two_zpow_le_iff (he.trans hle)] at h
    have hk : (i - quantum m e).toNat + (quantum m e - e).toNat = (i - e).toNat := by omega
    rwa [hk]
  · exact (mul_two_zpow_lt hn (le_nearest_quantum he (by omega)) hlt).le

theorem le_rational_div (h₁ : 0 < m₁) (h₂ : 0 < m₂) (hn : n < 2 ^ 53) (hi : -1074 ≤ i)
    (h : (n : ℚ) * 2 ^ i ≤ m₁ * 2 ^ e₁ / (m₂ * 2 ^ e₂)) :
    ∃ r, rational? (UnpackedFloat.div Format.binary64 (.finite .positive m₁ e₁ h₁)
        (.finite .positive m₂ e₂ h₂)) = some r ∧ (n : ℚ) * 2 ^ i ≤ r := by
  obtain ⟨accuracy,hd⟩ := exists_div_eq .positive .positive e₁ e₂ h₁ h₂
  have hq := quotientExponent_le_quantum e₁ e₂ h₁ h₂
  have hs : (.positive / .positive : Sign) = .positive := rfl
  refine ⟨_,(congrArg rational? hd).trans (rational?_roundWithAccuracy hq),?_⟩
  rw [hs,dyadic_positive]
  refine (le_nearest_mul hn hi hq (le_quotientDigits_mul h₁ h₂ hn hi h)).trans ?_
  refine mul_le_mul_of_nonneg_right ?_ (two_zpow_pos _).le
  exact_mod_cast nearest_le_nearestWith _ accuracy _

theorem rounded_div (x y : UnpackedFloat) : Rounded (UnpackedFloat.div Format.binary64 x y) := by
  cases x with
  | notANumber => trivial
  | infinity s => cases y <;> trivial
  | zero s => cases y <;> trivial
  | finite s₁ m₁ e₁ h₁ =>
    cases y with
    | finite s₂ m₂ e₂ h₂ =>
      obtain ⟨accuracy,hd⟩ := exists_div_eq s₁ s₂ e₁ e₂ h₁ h₂
      rw [hd]
      exact rounded_roundWithAccuracy _ _ (quotientExponent_le_quantum e₁ e₂ h₁ h₂)
    | _ => trivial

end Quotient

section Floats

variable {a b c : Float} {q r : ℚ}

theorem unpack_div (a b : Float) :
    (a / b).toModel.unpack =
      store (UnpackedFloat.div Format.binary64 a.toModel.unpack b.toModel.unpack) :=
  unpack_pack (rounded_div _ _)

theorem rank_lt_of_store {x : UnpackedFloat} (hx : Rounded x) {i : ℤ} (hi : i < top)
    (h : rank (store x) < i) : rank x < i := by
  rw [rank_store hx] at h
  omega

/-- A quotient of magnitudes that comes out below a double is below it. -/
theorem div_lt_of_lt (hq : number? b = some q) (hr : number? c = some r) (hq0 : 0 < q)
    (hr0 : 0 < r) (h : a.abs / b < c) : ∃ p, number? a = some p ∧ |p| / q < r := by
  obtain ⟨m₂,e₂,h₂,hb⟩ := exists_finite_of_pos hq hq0
  obtain ⟨n,i,hn,hc⟩ := exists_finite_of_pos hr hr0
  have hs : Stored (.finite .positive n i hn) := hc ▸ stored_unpack c.toModel
  obtain ⟨hnan,-,hlt⟩ := lt_iff.mp h
  change (a.abs / b).toModel.unpack.isNaN = false at hnan
  rw [unpack_div,unpack_abs,hb] at hnan hlt
  rw [hc] at hlt
  rw [number?] at hq hr ⊢
  rw [hb] at hq
  rw [hc] at hr
  obtain rfl := Option.some.inj hq
  obtain rfl := Option.some.inj hr
  rw [dyadic_positive,dyadic_positive] at *
  cases ha : a.toModel.unpack with
  | notANumber =>
    rw [ha] at hnan
    cases hnan
  | infinity s =>
    rw [ha] at hlt
    exact absurd hlt (rank_bounds hs).2.not_gt
  | zero s => exact ⟨0,rfl,by simpa using hr0⟩
  | finite s m₁ e₁ h₁ =>
    refine ⟨_,rfl,?_⟩
    rw [abs_dyadic]
    by_contra hle
    rw [ha] at hlt
    obtain ⟨r',hr',hle'⟩ := le_rational_div h₁ h₂ hs.1.1 hs.1.2.1 (not_lt.mp hle)
    have hrank := rank_lt_of_store (rounded_div _ _) (rank_bounds hs).2 hlt
    exact hle'.not_gt ((rank_lt_iff (rounded_div _ _) hs.1 hr' rfl).mp hrank)

theorem div_infinite_lt_iff (hb : b.toModel.unpack = .infinity .positive)
    (hr : number? c = some r) (hr0 : 0 < r) : a.abs / b < c ↔ a.isFinite = true := by
  obtain ⟨n,i,hn,hc⟩ := exists_finite_of_pos hr hr0
  have hs : Stored (.finite .positive n i hn) := hc ▸ stored_unpack c.toModel
  rw [lt_iff]
  change (a.abs / b).toModel.unpack.isNaN = false ∧ _ ↔ a.toModel.unpack.isFinite = true
  rw [unpack_div,unpack_abs,hb,hc]
  cases a.toModel.unpack with
  | notANumber | infinity s => exact iff_of_false (fun h => Bool.noConfusion h.1) Bool.noConfusion
  | zero s | finite s m e hm =>
    exact iff_of_true ⟨rfl,isNaN_of_number hr,rank_pos hs.1⟩ rfl

end Floats

end Fluxion.Binary64
