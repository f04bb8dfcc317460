import Fluxion.Proofs.Doubles
import Mathlib

/-! Sums and differences of doubles. Two numbers are brought to the smaller one of their
exponents, added as integers, and rounded. A difference is the sum with the opposite, so it is
enough to look at sums: they do not depend on the order, and changing both signs does nothing
that the magnitude of the result would show. -/
namespace Fluxion.Binary64

open Float.Model Float.Model.UnpackedFloat

section Signs

variable (format : Format) (x y : UnpackedFloat)

theorem apply_neg (s : Sign) (m : ℤ) : (-s).apply m = -s.apply m := by
  cases s
  · exact (Int.neg_neg m).symm
  · rfl

theorem unpacked_sub_eq :
    UnpackedFloat.sub format x y = UnpackedFloat.add format x y.neg := by
  cases x with
  | finite s m e hm =>
    cases y with
    | finite s' m' e' hm' =>
      simp only [UnpackedFloat.sub,UnpackedFloat.add,UnpackedFloat.neg,apply_neg,
        Int.sub_eq_add_neg]
    | _ => rfl
  | _ => cases y <;> rfl

theorem unpacked_add_comm : UnpackedFloat.add format x y = UnpackedFloat.add format y x := by
  cases x with
  | notANumber => cases y <;> rfl
  | infinity s =>
    cases y with
    | infinity s' => cases s <;> cases s' <;> rfl
    | _ => rfl
  | zero s =>
    cases y with
    | zero s' => cases s <;> cases s' <;> rfl
    | _ => rfl
  | finite s m e hm =>
    cases y with
    | finite s' m' e' hm' =>
      simp only [UnpackedFloat.add]
      rw [min_comm,Int.add_comm]
    | _ => rfl

theorem unpacked_neg_neg : x.neg.neg = x := by
  cases x with
  | notANumber => rfl
  | infinity s | zero s => cases s <;> rfl
  | finite s m e hm => cases s <;> rfl

theorem abs_roundWithAccuracy (s : Sign) (m : ℕ) (e : ℤ) (accuracy : Accuracy) :
    (roundWithAccuracy format s m e accuracy).abs =
      roundWithAccuracy format .positive m e accuracy := by
  unfold roundWithAccuracy
  simp only
  split <;> rfl

theorem abs_normalize (m e : ℤ) :
    (UnpackedFloat.normalize format m e .positive).abs =
      if m = 0 then .zero .positive else UnpackedFloat.round format .positive m.natAbs e := by
  rcases lt_trichotomy m 0 with hm | rfl | hm
  · have hn : (-m).toNat = m.natAbs := by omega
    simp only [UnpackedFloat.normalize,compare_lt_iff_lt.mpr hm,hn,if_neg hm.ne]
    exact abs_roundWithAccuracy _ _ _ _ _
  · rfl
  · have hn : m.toNat = m.natAbs := by omega
    simp only [UnpackedFloat.normalize,compare_gt_iff_gt.mpr hm,hn,if_neg hm.ne']
    exact abs_roundWithAccuracy _ _ _ _ _

/-- With both signs changed the sum is the opposite, or a zero as before. -/
theorem abs_add_neg_neg :
    (UnpackedFloat.add format x.neg y.neg).abs = (UnpackedFloat.add format x y).abs := by
  cases x with
  | notANumber => cases y <;> rfl
  | infinity s =>
    cases y with
    | infinity s' => cases s <;> cases s' <;> rfl
    | _ => rfl
  | zero s =>
    cases y with
    | zero s' => cases s <;> cases s' <;> rfl
    | _ => rfl
  | finite s m e hm =>
    cases y with
    | finite s' m' e' hm' =>
      simp only [UnpackedFloat.add,UnpackedFloat.neg,apply_neg,abs_normalize,← Int.neg_add,
        Int.natAbs_neg,Int.neg_eq_zero]
    | _ => rfl

theorem unpacked_abs_sub_comm :
    (UnpackedFloat.sub format x y).abs = (UnpackedFloat.sub format y x).abs := by
  rw [unpacked_sub_eq,unpacked_sub_eq,unpacked_add_comm format y,← abs_add_neg_neg,unpacked_neg_neg]

end Signs

section Rounding

variable {x y : UnpackedFloat} {m : ℕ}

theorem log2_mul_two_pow (hm : m ≠ 0) (k : ℕ) : (m * 2 ^ k).log2 = m.log2 + k := by
  refine (Nat.log2_eq_iff (Nat.mul_ne_zero hm (Nat.two_pow_pos k).ne')).mpr ⟨?_,?_⟩
  · rw [pow_add]
    exact Nat.mul_le_mul_right _ (Nat.log2_self_le hm)
  · rw [Nat.add_right_comm,pow_add]
    exact Nat.mul_lt_mul_of_pos_right Nat.lt_log2_self (Nat.two_pow_pos k)

/-- The exponent that a number is rounded to does not depend on the way the number is written. -/
theorem quantum_scale (hm : m ≠ 0) (k : ℕ) (e : ℤ) :
    quantum (m * 2 ^ k) (e - k) = quantum m e := by
  rw [quantum_eq,quantum_eq,log2_mul_two_pow hm]
  push_cast
  congr 1
  ring

/-- The mantissa gets the bits that it lacks first. -/
theorem round_eq (s : Sign) (m : ℕ) (e : ℤ) :
    UnpackedFloat.round Format.binary64 s m e =
      roundWithAccuracy Format.binary64 s (m * 2 ^ (e - quantum m e).toNat)
        (e - (e - quantum m e).toNat) .exact := by
  simp only [UnpackedFloat.round,decreaseExponent,Nat.shiftLeft_eq]
  rfl

theorem le_quantum_scale (hm : m ≠ 0) (e : ℤ) :
    e - (e - quantum m e).toNat ≤
      quantum (m * 2 ^ (e - quantum m e).toNat) (e - (e - quantum m e).toNat) := by
  rw [quantum_scale hm]
  omega

theorem rounded_round (s : Sign) (hm : m ≠ 0) (e : ℤ) :
    Rounded (UnpackedFloat.round Format.binary64 s m e) := by
  rw [round_eq]
  exact rounded_roundWithAccuracy s .exact (le_quantum_scale hm e)

theorem rounded_normalize (m e : ℤ) :
    Rounded (UnpackedFloat.normalize Format.binary64 m e .positive) := by
  rcases lt_trichotomy m 0 with hm | rfl | hm
  · simp only [UnpackedFloat.normalize,compare_lt_iff_lt.mpr hm]
    exact rounded_round _ (by omega) _
  · trivial
  · simp only [UnpackedFloat.normalize,compare_gt_iff_gt.mpr hm]
    exact rounded_round _ (by omega) _

theorem rounded_add (hx : Rounded x) (hy : Rounded y) :
    Rounded (UnpackedFloat.add Format.binary64 x y) := by
  cases x with
  | notANumber => trivial
  | infinity s =>
    cases y with
    | infinity s' =>
      simp only [UnpackedFloat.add]
      split <;> trivial
    | _ => trivial
  | zero s =>
    cases y with
    | zero s' =>
      simp only [UnpackedFloat.add]
      split <;> trivial
    | finite s' m' e' hm' => exact hy
    | _ => trivial
  | finite s m e hm =>
    cases y with
    | finite s' m' e' hm' => exact rounded_normalize _ _
    | zero s' => exact hx
    | _ => trivial

theorem rounded_neg (hx : Rounded x) : Rounded x.neg := by
  cases x
  case finite => exact hx
  all_goals trivial

theorem stored_abs (hx : Stored x) : Stored x.abs := by
  cases x
  case finite => exact hx
  all_goals trivial

theorem abs_store (x : UnpackedFloat) : (store x).abs = store x.abs := by
  cases x with
  | finite s m e hm =>
    by_cases he : e ≤ 971
    · simp only [store,UnpackedFloat.abs,if_pos he]
    · simp only [store,UnpackedFloat.abs,if_neg he]
  | _ => rfl

theorem store_of_stored (hx : Stored x) : store x = x := by
  cases x with
  | finite s m e hm => exact if_pos hx.2
  | _ => rfl

end Rounding

section Floats

variable (a b : Float)

theorem unpack_add :
    (a + b).toModel.unpack =
      store (UnpackedFloat.add Format.binary64 a.toModel.unpack b.toModel.unpack) :=
  unpack_pack (rounded_add (stored_unpack _).rounded (stored_unpack _).rounded)

theorem unpack_sub :
    (a - b).toModel.unpack =
      store (UnpackedFloat.sub Format.binary64 a.toModel.unpack b.toModel.unpack) := by
  refine unpack_pack ?_
  rw [unpacked_sub_eq]
  exact rounded_add (stored_unpack _).rounded (rounded_neg (stored_unpack _).rounded)

theorem unpack_abs : a.abs.toModel.unpack = a.toModel.unpack.abs :=
  (unpack_pack (stored_abs (stored_unpack _)).rounded).trans
    (store_of_stored (stored_abs (stored_unpack _)))

/-- The sum of two doubles does not depend on their order. -/
theorem float_add_comm : a + b = b + a :=
  congrArg (fun x => Float.ofModel (Float.Model.pack x)) (unpacked_add_comm _ _ _)

/-- Nor does the magnitude of their difference. -/
theorem float_abs_sub_comm : (a - b).abs = (b - a).abs := by
  refine congrArg (fun x => Float.ofModel (Float.Model.pack x)) ?_
  rw [unpack_sub,unpack_sub,abs_store,abs_store,unpacked_abs_sub_comm]

end Floats

end Fluxion.Binary64
