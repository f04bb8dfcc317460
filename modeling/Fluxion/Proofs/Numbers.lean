import Fluxion.Proofs.Sums
import Mathlib

/-! The numbers that doubles stand for. A finite double stands for a fraction, and doubles are
ordered as their fractions are. A sum or a difference is off by less than one part in 2 ^ 52
unless it is too large for a double. -/
namespace Fluxion.Binary64

open Float.Model (Format UnpackedFloat)
open Float.Model.UnpackedFloat (Sign Accuracy roundWithAccuracy)

/-- The fraction that a sign, a mantissa and an exponent stand for. -/
def dyadic (s : Sign) (m : ℕ) (e : ℤ) : ℚ := ((s.apply m : ℤ) : ℚ) * 2 ^ e

/-- The number that an unpacked double stands for, if it is finite. -/
def rational? : UnpackedFloat → Option ℚ
  | .finite s m e _ => some (dyadic s m e)
  | .zero _ => some 0
  | _ => none

/-- The number that a double stands for, if it is finite. -/
def number? (a : Float) : Option ℚ := rational? a.toModel.unpack

section Powers

variable {e f : ℤ}

theorem two_zpow_split (h : e ≤ f) : (2 : ℚ) ^ f = 2 ^ (f - e).toNat * 2 ^ e := by
  rw [← zpow_natCast,← zpow_add₀ two_ne_zero,Int.toNat_of_nonneg (sub_nonneg.mpr h),
    sub_add_cancel]

theorem two_zpow_pos (e : ℤ) : (0 : ℚ) < 2 ^ e := zpow_pos two_pos e

theorem two_zpow_le (h : e ≤ f) : (2 : ℚ) ^ e ≤ 2 ^ f := zpow_le_zpow_right₀ one_le_two h

theorem mul_two_zpow_le_iff {m n : ℕ} (h : e ≤ f) :
    (n : ℚ) * 2 ^ f ≤ m * 2 ^ e ↔ n * 2 ^ (f - e).toNat ≤ m := by
  rw [two_zpow_split h,← mul_assoc,mul_le_mul_iff_left₀ (two_zpow_pos e)]
  norm_cast

/-- Below an exponent all mantissas of 53 bits are short of the least one of 53 bits above it. -/
theorem mul_two_zpow_lt {m n : ℕ} (hn : n < 2 ^ 53) (hm : 2 ^ 52 ≤ m) (h : f < e) :
    (n : ℚ) * 2 ^ f < m * 2 ^ e := by
  have hn' : (n : ℚ) < 2 ^ 53 := by exact_mod_cast hn
  have hm' : (2 : ℚ) ^ 52 ≤ m := by exact_mod_cast hm
  have hf : (2 : ℚ) ^ f * 2 ≤ 2 ^ e := by
    rw [← zpow_add_one₀ two_ne_zero]
    exact two_zpow_le (by omega)
  calc (n : ℚ) * 2 ^ f < 2 ^ 53 * 2 ^ f := mul_lt_mul_of_pos_right hn' (two_zpow_pos f)
    _ = 2 ^ 52 * (2 ^ f * 2) := by ring
    _ ≤ m * 2 ^ e := mul_le_mul hm' hf (by positivity) (by positivity)

end Powers

section Nearest

variable {e i : ℤ}

theorem nearest_zero (m : ℕ) : nearest m 0 = m :=
  le_antisymm (nearest_le (by simp)) (le_nearest (by simp))

theorem nearest_error (m : ℕ) (he : e ≤ i) :
    |(nearest m (i - e).toNat : ℚ) * 2 ^ i - m * 2 ^ e| ≤ 2 ^ i := by
  obtain ⟨k,hk⟩ : ∃ k, k = (i - e).toNat := ⟨_,rfl⟩
  have hdiv : m < (m / 2 ^ k + 1) * 2 ^ k :=
    Nat.lt_mul_of_div_lt (Nat.lt_succ_self _) (Nat.two_pow_pos k)
  have hlow : m / 2 ^ k ≤ nearest m k := le_nearest (Nat.div_mul_le_self m _)
  have hhigh : nearest m k ≤ m / 2 ^ k + 1 := nearest_le hdiv.le
  have hup : nearest m k * 2 ^ k ≤ m + 2 ^ k := by
    calc nearest m k * 2 ^ k ≤ (m / 2 ^ k + 1) * 2 ^ k := Nat.mul_le_mul_right _ hhigh
      _ = m / 2 ^ k * 2 ^ k + 2 ^ k := by ring
      _ ≤ m + 2 ^ k := Nat.add_le_add_right (Nat.div_mul_le_self m _) _
  have hdown : m ≤ nearest m k * 2 ^ k + 2 ^ k := by
    calc m ≤ (m / 2 ^ k + 1) * 2 ^ k := hdiv.le
      _ = m / 2 ^ k * 2 ^ k + 2 ^ k := by ring
      _ ≤ nearest m k * 2 ^ k + 2 ^ k := Nat.add_le_add_right (Nat.mul_le_mul_right _ hlow) _
  have hup' : (nearest m k : ℚ) * 2 ^ k ≤ m + 2 ^ k := by exact_mod_cast hup
  have hdown' : (m : ℚ) ≤ nearest m k * 2 ^ k + 2 ^ k := by exact_mod_cast hdown
  rw [← hk,two_zpow_split he,← hk,← mul_assoc,← sub_mul,abs_mul,abs_of_pos (two_zpow_pos e)]
  exact mul_le_mul_of_nonneg_right (abs_le.mpr ⟨by linarith,by linarith⟩) (two_zpow_pos e).le

end Nearest

section Rational

variable {x y : UnpackedFloat} {p q r : ℚ} {s : Sign} {m n : ℕ} {e f : ℤ} {accuracy : Accuracy}

theorem dyadic_pos (hm : 0 < m) (e : ℤ) : (0 : ℚ) < m * 2 ^ e :=
  mul_pos (Nat.cast_pos.mpr hm) (two_zpow_pos e)

theorem dyadic_positive (m : ℕ) (e : ℤ) : dyadic .positive m e = m * 2 ^ e := rfl

theorem dyadic_neg (s : Sign) (m : ℕ) (e : ℤ) : dyadic (-s) m e = -dyadic s m e := by
  rw [dyadic,apply_neg,Int.cast_neg,neg_mul,dyadic]

theorem dyadic_negative (m : ℕ) (e : ℤ) : dyadic .negative m e = -(m * 2 ^ e) :=
  dyadic_neg .positive m e

theorem abs_dyadic (s : Sign) (m : ℕ) (e : ℤ) : |dyadic s m e| = m * 2 ^ e := by
  have h : (0 : ℚ) ≤ m * 2 ^ e := mul_nonneg (Nat.cast_nonneg m) (two_zpow_pos e).le
  cases s
  · rw [dyadic_negative,abs_neg,abs_of_nonneg h]
  · rw [dyadic_positive,abs_of_nonneg h]

theorem abs_dyadic_sub (s : Sign) (m n : ℕ) (e f : ℤ) :
    |dyadic s m e - dyadic s n f| = |(m : ℚ) * 2 ^ e - n * 2 ^ f| := by
  cases s
  · rw [dyadic_negative,dyadic_negative,neg_sub_neg,abs_sub_comm]
  · rfl

theorem rational?_neg (x : UnpackedFloat) : rational? x.neg = (rational? x).map (- ·) := by
  cases x with
  | finite s m e hm => exact congrArg some (dyadic_neg s m e)
  | zero s => exact congrArg some neg_zero.symm
  | _ => rfl

theorem rational?_abs (x : UnpackedFloat) : rational? x.abs = (rational? x).map (|·|) := by
  cases x with
  | finite s m e hm => exact congrArg some (abs_dyadic s m e).symm
  | zero s => exact congrArg some abs_zero.symm
  | _ => rfl

theorem rational?_of_store (h : rational? (store x) = some p) : rational? x = some p := by
  cases x with
  | finite s m e hm =>
    by_cases he : e ≤ 971
    · rwa [store,if_pos he] at h
    · rw [store,if_neg he] at h
      cases h
  | _ => exact h

theorem rational?_store_of_zero (h : rational? x = some 0) : rational? (store x) = some 0 := by
  cases x with
  | finite s m e hm =>
    have h0 : (m : ℚ) * 2 ^ e = 0 := by
      rw [← abs_dyadic s,Option.some.inj h,abs_zero]
    exact absurd h0 (dyadic_pos hm e).ne'
  | _ => exact h

/-- A mantissa that has become too long by rounding is shortened again, and stands for the same
number. -/
theorem rational?_roundWithAccuracy (he : e ≤ quantum m e) :
    rational? (roundWithAccuracy Format.binary64 s m e accuracy) =
      some (dyadic s (nearestWith m accuracy (quantum m e - e).toNat) (quantum m e)) := by
  have hle := nearestWith_quantum_le m accuracy e
  rw [roundWithAccuracy_eq s accuracy he]
  split
  · rename_i hz
    rw [hz,dyadic]
    cases s <;> simp [rational?,Sign.apply]
  · split
    · rfl
    · have heq : nearestWith m accuracy (quantum m e - e).toNat = 2 ^ 53 := by omega
      rw [heq,rational?,dyadic,dyadic,zpow_add_one₀ two_ne_zero]
      cases s <;> simp [Sign.apply] <;> ring

/-- Rounding is off by less than one part in 2 ^ 52 if the exponent is that of a double. -/
theorem round_error (s : Sign) (hm : m ≠ 0) (he : -1074 ≤ e) :
    ∃ r, rational? (UnpackedFloat.round Format.binary64 s m e) = some r ∧
      |r - dyadic s m e| ≤ 2 ^ (-52 : ℤ) * |dyadic s m e| := by
  refine ⟨_,(congrArg rational? (round_eq s m e)).trans
    (rational?_roundWithAccuracy (le_quantum_scale hm e)),?_⟩
  rw [nearestWith_exact,quantum_scale hm,abs_dyadic_sub,abs_dyadic]
  rcases le_or_gt (quantum m e) e with hle | hlt
  · have hk : (quantum m e - (e - (e - quantum m e).toNat)).toNat = 0 := by omega
    rw [hk,nearest_zero,two_zpow_split hle]
    push_cast
    rw [mul_assoc,sub_self,abs_zero]
    exact mul_nonneg (two_zpow_pos _).le (by positivity)
  · have hz : (e - quantum m e).toNat = 0 := by omega
    rw [hz,pow_zero,mul_one,Nat.cast_zero,sub_zero]
    refine (nearest_error m hlt.le).trans ?_
    have hq : quantum m e = m.log2 + e - 52 := by
      rw [quantum_eq] at hlt ⊢
      omega
    have hlog : (2 : ℚ) ^ (m.log2 : ℤ) ≤ m := by
      rw [zpow_natCast]
      exact_mod_cast Nat.log2_self_le hm
    calc (2 : ℚ) ^ quantum m e = 2 ^ (-52 : ℤ) * (2 ^ (m.log2 : ℤ) * 2 ^ e) := by
          rw [← zpow_add₀ two_ne_zero,← zpow_add₀ two_ne_zero,hq]
          congr 1
          ring
      _ ≤ 2 ^ (-52 : ℤ) * (m * 2 ^ e) :=
        mul_le_mul_of_nonneg_left (mul_le_mul_of_nonneg_right hlog (two_zpow_pos e).le)
          (two_zpow_pos _).le

theorem normalize_error (m : ℤ) (he : -1074 ≤ e) :
    ∃ r, rational? (UnpackedFloat.normalize Format.binary64 m e .positive) = some r ∧
      |r - m * 2 ^ e| ≤ 2 ^ (-52 : ℤ) * |(m : ℚ) * 2 ^ e| := by
  rcases lt_trichotomy m 0 with hm | rfl | hm
  · have hd : (m : ℚ) * 2 ^ e = dyadic .negative (-m).toNat e := by
      have hcast : ((-m).toNat : ℤ) = -m := Int.toNat_of_nonneg (by omega)
      rw [dyadic,Sign.apply,hcast,neg_neg]
    simp only [UnpackedFloat.normalize,compare_lt_iff_lt.mpr hm,hd]
    exact round_error _ (by omega) he
  · exact ⟨0,rfl,by simp⟩
  · have hd : (m : ℚ) * 2 ^ e = dyadic .positive m.toNat e := by
      have hcast : (m.toNat : ℤ) = m := Int.toNat_of_nonneg hm.le
      rw [dyadic,Sign.apply,hcast]
    simp only [UnpackedFloat.normalize,compare_gt_iff_gt.mpr hm,hd]
    exact round_error _ (by omega) he

theorem dyadic_decreaseExponent (s : Sign) (m : ℕ) (h : f ≤ e) :
    ((s.apply (UnpackedFloat.decreaseExponent m e f).1 : ℤ) : ℚ) * 2 ^ f = dyadic s m e := by
  change dyadic s (m <<< (e - f).toNat) f = dyadic s m e
  have hm : ((m <<< (e - f).toNat : ℕ) : ℚ) * 2 ^ f = m * 2 ^ e := by
    rw [Nat.shiftLeft_eq,two_zpow_split h]
    push_cast
    ring
  cases s
  · rw [dyadic_negative,dyadic_negative,hm]
  · rw [dyadic_positive,dyadic_positive,hm]

/-- Only what is too large for a double is missing from this. -/
theorem rational?_add (hx : Stored x) (hy : Stored y) (hp : rational? x = some p)
    (hq : rational? y = some q) :
    ∃ r, rational? (UnpackedFloat.add Format.binary64 x y) = some r ∧
      |r - (p + q)| ≤ 2 ^ (-52 : ℤ) * |p + q| := by
  cases x with
  | notANumber => cases hp
  | infinity s => cases hp
  | zero s =>
    obtain rfl := Option.some.inj hp
    cases y with
    | notANumber => cases hq
    | infinity s' => cases hq
    | zero s' =>
      obtain rfl := Option.some.inj hq
      refine ⟨0,?_,by simp⟩
      cases s <;> cases s' <;> rfl
    | finite s' m' e' hm' =>
      refine ⟨q,hq,?_⟩
      rw [zero_add,sub_self,abs_zero]
      positivity
  | finite s m e hm =>
    cases y with
    | notANumber => cases hq
    | infinity s' => cases hq
    | zero s' =>
      obtain rfl := Option.some.inj hq
      refine ⟨p,hp,?_⟩
      rw [add_zero,sub_self,abs_zero]
      positivity
    | finite s' m' e' hm' =>
      obtain rfl := Option.some.inj hp
      obtain rfl := Option.some.inj hq
      have he : -1074 ≤ min e e' := le_min hx.1.2.1 hy.1.2.1
      rw [← dyadic_decreaseExponent s m (min_le_left e e'),
        ← dyadic_decreaseExponent s' m' (min_le_right e e'),← add_mul,← Int.cast_add]
      exact normalize_error _ he

theorem rational?_sub (hx : Stored x) (hy : Stored y) (hp : rational? x = some p)
    (hq : rational? y = some q) :
    ∃ r, rational? (UnpackedFloat.sub Format.binary64 x y) = some r ∧
      |r - (p - q)| ≤ 2 ^ (-52 : ℤ) * |p - q| := by
  have hq' : rational? y.neg = some (-q) := by rw [rational?_neg,hq,Option.map_some]
  rw [unpacked_sub_eq,sub_eq_add_neg p q]
  exact rational?_add hx (stored_neg hy) hp hq'

end Rational

section Order

variable {x y : UnpackedFloat} {p q : ℚ} {m n : ℕ} {e f : ℤ} {hm : 0 < m} {hn : 0 < n}

theorem rank_pos (h : Rounded (.finite .positive m e hm)) :
    0 < rank (.finite .positive m e hm) := by
  obtain ⟨-,hmin,-⟩ := h
  simp only [rank,Sign.apply]
  omega

theorem rank_lt_iff_of_positive (h : Rounded (.finite .positive m e hm))
    (h' : Rounded (.finite .positive n f hn)) :
    rank (.finite .positive m e hm) < rank (.finite .positive n f hn) ↔
      (m : ℚ) * 2 ^ e < n * 2 ^ f := by
  obtain ⟨hlt,hmin,hnormal⟩ := h
  obtain ⟨hlt',hmin',hnormal'⟩ := h'
  simp only [rank,Sign.apply]
  rcases lt_trichotomy e f with he | rfl | he
  · exact iff_of_true (by omega) (mul_two_zpow_lt hlt (by omega) he)
  · rw [mul_lt_mul_iff_left₀ (two_zpow_pos e),Nat.cast_lt]
    omega
  · exact iff_of_false (by omega) (mul_two_zpow_lt hlt' (by omega) he).not_gt

/-- Numbers are ordered as their ranks are. -/
theorem rank_lt_iff (hx : Rounded x) (hy : Rounded y) (hp : rational? x = some p)
    (hq : rational? y = some q) : rank x < rank y ↔ p < q := by
  cases x with
  | notANumber => cases hp
  | infinity s => cases hp
  | zero s =>
    obtain rfl := Option.some.inj hp
    cases y with
    | notANumber => cases hq
    | infinity s' => cases hq
    | zero s' =>
      obtain rfl := Option.some.inj hq
      exact iff_of_false (lt_irrefl 0) (lt_irrefl 0)
    | finite s' n f hn =>
      obtain rfl := Option.some.inj hq
      cases s'
      · rw [dyadic_negative,rank_negative]
        exact iff_of_false (neg_neg_of_pos (rank_pos hy)).not_gt
          (neg_neg_of_pos (dyadic_pos hn f)).not_gt
      · exact iff_of_true (rank_pos hy) (dyadic_pos hn f)
  | finite s m e hm =>
    obtain rfl := Option.some.inj hp
    cases y with
    | notANumber => cases hq
    | infinity s' => cases hq
    | zero s' =>
      obtain rfl := Option.some.inj hq
      cases s
      · rw [dyadic_negative,rank_negative]
        exact iff_of_true (neg_neg_of_pos (rank_pos hx)) (neg_neg_of_pos (dyadic_pos hm e))
      · exact iff_of_false (rank_pos hx).not_gt (dyadic_pos hm e).not_gt
    | finite s' n f hn =>
      obtain rfl := Option.some.inj hq
      cases s <;> cases s'
      · rw [dyadic_negative,dyadic_negative,rank_negative,rank_negative,neg_lt_neg_iff,
          neg_lt_neg_iff]
        exact rank_lt_iff_of_positive hy hx
      · rw [dyadic_negative,rank_negative]
        exact iff_of_true ((neg_neg_of_pos (rank_pos hx)).trans (rank_pos hy))
          ((neg_neg_of_pos (dyadic_pos hm e)).trans (dyadic_pos hn f))
      · rw [dyadic_negative,rank_negative]
        exact iff_of_false ((neg_neg_of_pos (rank_pos hy)).trans (rank_pos hx)).not_gt
          ((neg_neg_of_pos (dyadic_pos hn f)).trans (dyadic_pos hm e)).not_gt
      · exact rank_lt_iff_of_positive hx hy

theorem exists_finite_of_pos (hp : rational? x = some p) (h : 0 < p) :
    ∃ m e hm, x = .finite .positive m e hm := by
  cases x with
  | notANumber => cases hp
  | infinity s => cases hp
  | zero s => exact absurd (Option.some.inj hp) h.ne
  | finite s m e hm =>
    cases s
    · obtain rfl := Option.some.inj hp
      rw [dyadic_negative] at h
      exact absurd h (neg_neg_of_pos (dyadic_pos hm e)).not_gt
    · exact ⟨m,e,hm,rfl⟩

end Order

section Floats

variable {a b c : Float} {p q r : ℚ}

theorem number?_abs (a : Float) : number? a.abs = (number? a).map (|·|) := by
  rw [number?,unpack_abs,rational?_abs,number?]

theorem number?_abs_of_eq (h : number? a = some p) : number? a.abs = some |p| := by
  rw [number?_abs,h,Option.map_some]

theorem add_error (hp : number? a = some p) (hq : number? b = some q)
    (hr : number? (a + b) = some r) : |r - (p + q)| ≤ 2 ^ (-52 : ℤ) * |p + q| := by
  obtain ⟨r',hr',he⟩ := rational?_add (stored_unpack _) (stored_unpack _) hp hq
  rw [number?,unpack_add] at hr
  rwa [Option.some.inj ((rational?_of_store hr).symm.trans hr')]

theorem sub_error (hp : number? a = some p) (hq : number? b = some q)
    (hr : number? (a - b) = some r) : |r - (p - q)| ≤ 2 ^ (-52 : ℤ) * |p - q| := by
  obtain ⟨r',hr',he⟩ := rational?_sub (stored_unpack _) (stored_unpack _) hp hq
  rw [number?,unpack_sub] at hr
  rwa [Option.some.inj ((rational?_of_store hr).symm.trans hr')]

theorem isNaN_of_number (hp : number? a = some p) : a.isNaN = false := by
  change a.toModel.unpack.isNaN = false
  rw [number?] at hp
  cases hx : a.toModel.unpack with
  | notANumber =>
    rw [hx] at hp
    cases hp
  | _ => rfl

theorem isFinite_iff : a.isFinite = true ↔ ∃ p, number? a = some p := by
  change a.toModel.unpack.isFinite = true ↔ _
  rw [number?]
  cases a.toModel.unpack <;> simp [UnpackedFloat.isFinite,rational?]

theorem lt_iff_of_number (hp : number? a = some p) (hq : number? b = some q) : a < b ↔ p < q := by
  rw [lt_iff,← rank_lt_iff (stored_unpack _).rounded (stored_unpack _).rounded hp hq]
  exact ⟨fun h => h.2.2,fun h => ⟨isNaN_of_number hp,isNaN_of_number hq,h⟩⟩

theorem eq_of_beq (hp : number? a = some p) (hq : number? b = some q) (h : (a == b) = true) :
    p = q := by
  rcases Float.beq_iff_ne_nan_and_eq.mp h with ⟨-,-,rfl | ⟨rfl,rfl⟩ | ⟨rfl,rfl⟩⟩
  · exact Option.some.inj (hp.symm.trans hq)
  · exact (Option.some.inj hp).symm.trans (Option.some.inj hq)
  · exact (Option.some.inj hp).symm.trans (Option.some.inj hq)

/-- A sum above zero that is no double is too large for one. -/
theorem unpack_add_infinite (hp : number? a = some p) (hq : number? b = some q) (h0 : 0 < p + q)
    (h : (a + b).isFinite = false) : (a + b).toModel.unpack = .infinity .positive := by
  obtain ⟨r,hr,he⟩ := rational?_add (stored_unpack _) (stored_unpack _) hp hq
  have hr0 : 0 < r := by
    rw [abs_of_pos h0,abs_le] at he
    norm_num at he
    linarith
  obtain ⟨m,e,hm,hx⟩ := exists_finite_of_pos hr hr0
  have hunpack := unpack_add a b
  rw [hx,store] at hunpack
  split_ifs at hunpack with hle
  · have hfinite : (a + b).isFinite = true := isFinite_iff.mpr ⟨_,congrArg rational? hunpack⟩
    exact absurd (hfinite.symm.trans h) Bool.noConfusion
  · exact hunpack

theorem sub_isFinite_of_eq (hp : number? a = some p) (hq : number? b = some p) :
    (a - b).isFinite = true := by
  obtain ⟨r,hr,he⟩ := rational?_sub (stored_unpack _) (stored_unpack _) hp hq
  rw [sub_self,abs_zero,mul_zero,sub_zero,abs_nonpos_iff] at he
  refine isFinite_iff.mpr ⟨0,?_⟩
  rw [number?,unpack_sub]
  exact rational?_store_of_zero (hr.trans (congrArg some he))

theorem not_lt_of_infinite (ha : a.toModel.unpack = .infinity .positive) : ¬a < b := by
  intro h
  obtain ⟨-,-,hlt⟩ := lt_iff.mp h
  rw [ha,← store_of_stored (stored_unpack b.toModel),rank_store (stored_unpack _).rounded] at hlt
  exact hlt.not_ge (max_le (by decide) (min_le_left _ _))

end Floats

end Fluxion.Binary64
