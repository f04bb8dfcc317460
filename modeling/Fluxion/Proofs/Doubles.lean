import Fluxion.Proofs.Rounding

/-! The order of doubles. A double is read off its bits and put into them again without a
change, and what is too large for them becomes infinite. Doubles are compared as their ranks
are, and multiplying by a positive double keeps their order. -/
namespace Fluxion.Binary64

open Float.Model Float.Model.UnpackedFloat

/-- What is read off the bits of a double. -/
def Stored : UnpackedFloat → Prop
  | .finite s m e h => Rounded (.finite s m e h) ∧ e ≤ 971
  | _ => True

def store : UnpackedFloat → UnpackedFloat
  | .finite s m e h => if e ≤ 971 then .finite s m e h else .infinity s
  | x => x

section Packing

variable {x : UnpackedFloat}

theorem Stored.rounded (h : Stored x) : Rounded x := by
  cases x
  case finite => exact h.1
  all_goals trivial

theorem toNat_implicit (m : BitVec 52) : (1#1 ++ m).toNat = 2 ^ 52 + m.toNat := by
  rw [BitVec.toNat_append,← Nat.shiftLeft_add_eq_or_of_lt m.isLt]
  rfl

theorem stored_unpack (v : Float.Model) : Stored v.unpack := by
  have hm := (@unpackMantissa Format.binary64 v.toBits.toBitVec).isLt
  have he := (@unpackExponent Format.binary64 v.toBits.toBitVec).isLt
  simp only [Float.Model.unpack,UnpackedFloat.unpack]
  split
  · split <;> trivial
  · rename_i hinf
    have hne : (@unpackExponent Format.binary64 v.toBits.toBitVec).toNat ≠ 2047 :=
      fun h => hinf (BitVec.eq_of_toNat_eq h)
    simp only [Format.binary64] at hm he hne
    split
    · rename_i hz
      split
      · trivial
      · simp only [Stored,Rounded,hz,Format.exponentBias]
        norm_num
        omega
    · rename_i hz
      have hnz : (@unpackExponent Format.binary64 v.toBits.toBitVec).toNat ≠ 0 :=
        fun h => hz (BitVec.eq_of_toNat_eq h)
      have hi := toNat_implicit (@unpackMantissa Format.binary64 v.toBits.toBitVec)
      simp only [Stored,Rounded,hi,Format.exponentBias]
      norm_num
      omega

section Finite

variable (s : Sign) {m : ℕ} {e : ℤ} (hm : 0 < m)

theorem unpack_pack_infinite (he : 971 < e) :
    (Float.Model.pack (.finite s m e hm)).unpack = .infinity s := by
  have hb : 2 ^ 11 ≤ (e + 1023 + 52).toNat + 1 := by omega
  have hp : UnpackedFloat.pack Format.binary64 (.finite s m e hm) =
      packedInfinity Format.binary64 s := if_pos hb
  simp only [Float.Model.unpack,Float.Model.pack,hp]
  cases s <;> rfl

theorem unpack_pack_normal (hlow : 2 ^ 52 ≤ m) (hlt : m < 2 ^ 53) (hmin : -1074 ≤ e)
    (he : e ≤ 971) : (Float.Model.pack (.finite s m e hm)).unpack = .finite s m e hm := by
  have hb : ¬2 ^ 11 ≤ (e + 1023 + 52).toNat + 1 := by omega
  have hl : m.log2 + 1 = 53 := by rw [(Nat.log2_eq_iff hm.ne').mpr ⟨hlow,hlt⟩]
  have hp : UnpackedFloat.pack Format.binary64 (.finite s m e hm) =
      packComponents Format.binary64 s (BitVec.ofNat 11 (e + 1023 + 52).toNat)
        (BitVec.ofNat 52 m) := (if_neg hb).trans (if_pos hl)
  have hexp : (BitVec.ofNat 11 (e + 1023 + 52).toNat).toNat = (e + 1075).toNat := by
    rw [BitVec.toNat_ofNat]
    omega
  have hinf : BitVec.ofNat 11 (e + 1023 + 52).toNat ≠ -1#11 := fun h => by
    have := congrArg BitVec.toNat h
    simp at this
    omega
  have hz : BitVec.ofNat 11 (e + 1023 + 52).toNat ≠ 0#11 := fun h => by
    have := congrArg BitVec.toNat h
    simp at this
    omega
  have hmant : (1#1 ++ BitVec.ofNat 52 m).toNat = m := by
    rw [toNat_implicit,BitVec.toNat_ofNat]
    omega
  simp only [Float.Model.unpack,Float.Model.pack,hp,UnpackedFloat.unpack,
    unpackExponent_packComponents,unpackMantissa_packComponents,unpackSign_packComponents,
    Sign.ofBitVec_toBitVec,if_neg hinf,if_neg hz,hexp,hmant,Format.exponentBias]
  congr 1
  norm_num
  omega

theorem unpack_pack_subnormal (hlt : m < 2 ^ 52) (he : e = -1074) :
    (Float.Model.pack (.finite s m e hm)).unpack = .finite s m e hm := by
  have hb : ¬2 ^ 11 ≤ (e + 1023 + 52).toNat + 1 := by omega
  have hl : ¬m.log2 + 1 = 53 := by
    have := (Nat.log2_lt hm.ne').mpr hlt
    omega
  have hp : UnpackedFloat.pack Format.binary64 (.finite s m e hm) =
      packComponents Format.binary64 s 0#11 (BitVec.ofNat 52 m) := (if_neg hb).trans (if_neg hl)
  have hmant : (BitVec.ofNat 52 m).toNat = m := by
    rw [BitVec.toNat_ofNat]
    omega
  have hz : BitVec.ofNat 52 m ≠ 0#52 := fun h => by
    have := congrArg BitVec.toNat h
    rw [hmant] at this
    simp at this
    omega
  simp only [Float.Model.unpack,Float.Model.pack,hp,UnpackedFloat.unpack,
    unpackExponent_packComponents,unpackMantissa_packComponents,unpackSign_packComponents,
    Sign.ofBitVec_toBitVec,dif_neg hz,hmant]
  subst he
  rfl

end Finite

theorem unpack_pack (h : Rounded x) : (Float.Model.pack x).unpack = store x := by
  cases x with
  | infinity s => cases s <;> rfl
  | notANumber => rfl
  | zero s => cases s <;> rfl
  | finite s m e hm =>
    obtain ⟨hlt,hmin,hnormal⟩ := h
    by_cases he : e ≤ 971
    · rw [store,if_pos he]
      by_cases hlow : 2 ^ 52 ≤ m
      · exact unpack_pack_normal s hm hlow hlt hmin he
      · exact unpack_pack_subnormal s hm (by omega) (hnormal.resolve_left hlow)
    · rw [store,if_neg he]
      exact unpack_pack_infinite s hm (by omega)

end Packing

section Order

variable {x y : UnpackedFloat}

/-- The rank of the infinite. -/
abbrev top : ℤ := 2047 * 2 ^ 52

theorem rank_store (h : Rounded x) : rank (store x) = max (-top) (min top (rank x)) := by
  cases x with
  | infinity s => cases s <;> decide
  | notANumber => rfl
  | zero s => rfl
  | finite s m e hm =>
    obtain ⟨hlt,hmin,hnormal⟩ := h
    simp only [store]
    split <;> cases s <;> simp only [rank,Sign.apply,top] <;> omega

theorem isNaN_store (x : UnpackedFloat) : (store x).isNaN = x.isNaN := by
  cases x with
  | finite s m e hm =>
    simp only [store]
    split <;> rfl
  | _ => rfl

theorem rank_positive {s : Sign} {m : ℕ} {e : ℤ} {hm : 0 < m}
    (h : Stored (.finite s m e hm)) :
    0 < rank (.finite .positive m e hm) ∧ rank (.finite .positive m e hm) < top := by
  obtain ⟨⟨hlt,hmin,-⟩,he⟩ := h
  simp only [rank,Sign.apply,top]
  omega

theorem rank_negative (m : ℕ) (e : ℤ) (hm : 0 < m) :
    rank (.finite .negative m e hm) = -rank (.finite .positive m e hm) := rfl

theorem rank_bounds {s : Sign} {m : ℕ} {e : ℤ} {hm : 0 < m} (h : Stored (.finite s m e hm)) :
    -top < rank (.finite s m e hm) ∧ rank (.finite s m e hm) < top := by
  have hp := rank_positive h
  cases s
  · rw [rank_negative]
    omega
  · omega

theorem compare_neg (a b : ℤ) : compare (-a) (-b) = (compare a b).swap := by
  rcases lt_trichotomy a b with h | rfl | h
  · rw [compare_lt_iff_lt.mpr h,Ordering.swap_lt,compare_gt_iff_gt.mpr (neg_lt_neg h)]
  · rw [compare_eq_iff_eq.mpr rfl,compare_eq_iff_eq.mpr rfl,Ordering.swap_eq]
  · rw [compare_gt_iff_gt.mpr h,Ordering.swap_gt,compare_lt_iff_lt.mpr (neg_lt_neg h)]

/-- Exponents come first, since there is no mantissa that could make up for a smaller one. -/
theorem compare_finite {s s' : Sign} {m m' : ℕ} {e e' : ℤ} {hm : 0 < m} {hm' : 0 < m'}
    (h : Stored (.finite s m e hm)) (h' : Stored (.finite s' m' e' hm')) :
    (compare e e').then (compare m m') =
      compare (rank (.finite .positive m e hm)) (rank (.finite .positive m' e' hm')) := by
  obtain ⟨⟨hlt,hmin,hnormal⟩,-⟩ := h
  obtain ⟨⟨hlt',hmin',hnormal'⟩,-⟩ := h'
  simp only [rank,Sign.apply]
  rcases lt_trichotomy e e' with he | rfl | he
  · have hr : (e + 1074) * 2 ^ 52 + (m : ℤ) < (e' + 1074) * 2 ^ 52 + m' := by omega
    rw [compare_lt_iff_lt.mpr he,compare_lt_iff_lt.mpr hr]
    rfl
  · rw [compare_eq_iff_eq.mpr rfl,Ordering.eq_then]
    rcases lt_trichotomy m m' with hlt | rfl | hlt
    · rw [compare_lt_iff_lt.mpr hlt,compare_lt_iff_lt.mpr (by omega)]
    · rw [compare_eq_iff_eq.mpr rfl,compare_eq_iff_eq.mpr rfl]
    · rw [compare_gt_iff_gt.mpr hlt,compare_gt_iff_gt.mpr (by omega)]
  · have hr : (e' + 1074) * 2 ^ 52 + (m' : ℤ) < (e + 1074) * 2 ^ 52 + m := by omega
    rw [compare_gt_iff_gt.mpr he,compare_gt_iff_gt.mpr hr]
    rfl

/-- Doubles are compared as their ranks are. -/
theorem compare_eq (hx : Stored x) (hy : Stored y) (hnx : x.isNaN = false)
    (hny : y.isNaN = false) : x.compare y = some (compare (rank x) (rank y)) := by
  cases x with
  | notANumber => cases hnx
  | infinity s =>
    cases y with
    | notANumber => cases hny
    | infinity s' => cases s <;> cases s' <;> rfl
    | zero s' => cases s <;> rfl
    | finite s' m' e' hm' =>
      have hb := rank_bounds hy
      cases s
      · exact (congrArg some (compare_lt_iff_lt.mpr hb.1)).symm
      · exact (congrArg some (compare_gt_iff_gt.mpr hb.2)).symm
  | zero s =>
    cases y with
    | notANumber => cases hny
    | infinity s' => cases s' <;> rfl
    | zero s' => rfl
    | finite s' m' e' hm' =>
      have hp := (rank_positive hy).1
      cases s'
      · exact (congrArg some (compare_gt_iff_gt.mpr (neg_lt_zero.mpr hp))).symm
      · exact (congrArg some (compare_lt_iff_lt.mpr hp)).symm
  | finite s m e hm =>
    have hb := rank_bounds hx
    have hp := (rank_positive hx).1
    cases y with
    | notANumber => cases hny
    | infinity s' =>
      cases s'
      · exact (congrArg some (compare_gt_iff_gt.mpr hb.1)).symm
      · exact (congrArg some (compare_lt_iff_lt.mpr hb.2)).symm
    | zero s' =>
      cases s
      · exact (congrArg some (compare_lt_iff_lt.mpr (neg_lt_zero.mpr hp))).symm
      · exact (congrArg some (compare_gt_iff_gt.mpr hp)).symm
    | finite s' m' e' hm' =>
      have hp' := (rank_positive hy).1
      have hc := compare_finite hx hy
      cases s <;> cases s'
      · rw [rank_negative,rank_negative,compare_neg,← hc]
        rfl
      · exact (congrArg some (compare_lt_iff_lt.mpr ((neg_lt_zero.mpr hp).trans hp'))).symm
      · exact (congrArg some (compare_gt_iff_gt.mpr ((neg_lt_zero.mpr hp').trans hp))).symm
      · exact congrArg some hc

theorem compare_isNaN (hx : Stored x) (hy : Stored y) :
    x.compare y =
      if x.isNaN || y.isNaN then none else some (compare (rank x) (rank y)) := by
  cases hnx : x.isNaN with
  | true =>
    obtain rfl := isNaN_iff.mp hnx
    rfl
  | false =>
    cases hny : y.isNaN with
    | true =>
      obtain rfl := isNaN_iff.mp hny
      cases x <;> rfl
    | false => exact compare_eq hx hy hnx hny

end Order

section Product

variable {x y : UnpackedFloat} {s s' : Sign} {m m' : ℕ} {e e' : ℤ} {hm : 0 < m} {hm' : 0 < m'}

theorem le_quantum_mul (h : Stored (.finite s m e hm)) (h' : Stored (.finite s' m' e' hm')) :
    e + e' ≤ quantum (m * m') (e + e') := by
  obtain ⟨⟨-,hmin,hnormal⟩,-⟩ := h
  obtain ⟨⟨-,hmin',hnormal'⟩,-⟩ := h'
  have hlog : 2 ^ 52 ≤ m * m' → 52 ≤ (m * m').log2 :=
    (Nat.le_log2 (Nat.mul_pos hm hm').ne').mpr
  rw [quantum_eq]
  rcases hnormal with hn | rfl
  · have := hlog (hn.trans (Nat.le_mul_of_pos_right m hm'))
    omega
  · rcases hnormal' with hn' | rfl
    · have := hlog (hn'.trans (Nat.le_mul_of_pos_left m' hm))
      omega
    · omega

theorem rank_mul (h : Stored (.finite s m e hm)) (h' : Stored (.finite s' m' e' hm')) :
    rank (mul Format.binary64 (.finite s m e hm) (.finite s' m' e' hm')) =
      (s * s').apply (roundedRank (m * m') (e + e')) :=
  rank_roundWithAccuracy _ (le_quantum_mul h h')

theorem rounded_mul (h : Stored x) (h' : Stored y) : Rounded (mul Format.binary64 x y) := by
  cases x with
  | notANumber => trivial
  | infinity s => cases y <;> trivial
  | zero s => cases y <;> trivial
  | finite s m e hm =>
    cases y with
    | finite s' m' e' hm' =>
      exact rounded_roundWithAccuracy _ _ (le_quantum_mul h h')
    | _ => trivial

theorem roundedRank_nonneg (m : ℕ) (e : ℤ) : 0 ≤ roundedRank m e := by
  have hq : -1074 ≤ quantum m e := by
    rw [quantum_eq]
    omega
  unfold roundedRank
  omega

theorem exponent_le_of_rank_le (h : Stored (.finite .positive m e hm))
    (h' : Stored (.finite .positive m' e' hm'))
    (hr : rank (.finite .positive m e hm) ≤ rank (.finite .positive m' e' hm')) :
    e ≤ e' ∧ m ≤ m' * 2 ^ (e' - e).toNat := by
  obtain ⟨⟨hlt,hmin,hnormal⟩,-⟩ := h
  obtain ⟨⟨hlt',hmin',hnormal'⟩,-⟩ := h'
  simp only [rank,Sign.apply] at hr
  rcases lt_trichotomy e e' with he | rfl | he
  · refine ⟨he.le,?_⟩
    have hpow : 2 ^ 1 ≤ 2 ^ (e' - e).toNat := Nat.pow_le_pow_right two_pos (by omega)
    have hfull : 2 ^ 52 ≤ m' := by omega
    calc m ≤ 2 ^ 52 * 2 ^ 1 := by omega
      _ ≤ m' * 2 ^ (e' - e).toNat := Nat.mul_le_mul hfull hpow
  · refine ⟨le_rfl,?_⟩
    rw [sub_self,Int.toNat_zero,pow_zero,mul_one]
    omega
  · omega

theorem roundedRank_mul_mono {n : ℕ} {i : ℤ} {hn : 0 < n} {t : Sign}
    (hz : Stored (.finite t n i hn)) (h : Stored (.finite .positive m e hm))
    (h' : Stored (.finite .positive m' e' hm'))
    (hr : rank (.finite .positive m e hm) ≤ rank (.finite .positive m' e' hm')) :
    roundedRank (m * n) (e + i) ≤ roundedRank (m' * n) (e' + i) := by
  obtain ⟨he,hle⟩ := exponent_le_of_rank_le h h' hr
  refine roundedRank_mono (Nat.mul_pos hm hn).ne' (le_quantum_mul h' hz) (by omega) ?_
  rw [add_sub_add_right_eq_sub]
  calc m * n ≤ m' * 2 ^ (e' - e).toNat * n := Nat.mul_le_mul_right n hle
    _ = m' * n * 2 ^ (e' - e).toNat := by ring

theorem rank_neg (x : UnpackedFloat) : rank x.neg = -rank x := by
  cases x with
  | notANumber => rfl
  | zero s => rfl
  | infinity s => cases s <;> rfl
  | finite s m e hm =>
    cases s
    · exact (neg_neg _).symm
    · rfl

theorem stored_neg (h : Stored x) : Stored x.neg := by
  cases x
  case finite => exact h
  all_goals trivial

theorem roundWithAccuracy_neg (s : Sign) (m : ℕ) (e : ℤ) :
    roundWithAccuracy Format.binary64 (-s) m e .exact =
      (roundWithAccuracy Format.binary64 s m e .exact).neg := by
  unfold roundWithAccuracy
  simp only
  split <;> rfl

theorem isNaN_roundWithAccuracy (s : Sign) (m : ℕ) (e : ℤ) :
    (roundWithAccuracy Format.binary64 s m e .exact).isNaN = false := by
  unfold roundWithAccuracy
  simp only
  split <;> rfl

section Positive

variable {n : ℕ} {i : ℤ} {hn : 0 < n} (hz : Stored (.finite .positive n i hn))

theorem mul_of_neg (x : UnpackedFloat) :
    mul Format.binary64 x.neg (.finite .positive n i hn) =
      (mul Format.binary64 x (.finite .positive n i hn)).neg := by
  cases x with
  | notANumber => rfl
  | zero s => cases s <;> rfl
  | infinity s => cases s <;> rfl
  | finite s m e hm =>
    have hs : -s * .positive = -(s * .positive) := by cases s <;> rfl
    exact (congrArg (roundWithAccuracy Format.binary64 · (m * n) (e + i) .exact) hs).trans
      (roundWithAccuracy_neg _ _ _)

include hz

theorem rank_mul_nonneg (hx : Stored x) (h : 0 ≤ rank x) :
    0 ≤ rank (mul Format.binary64 x (.finite .positive n i hn)) := by
  cases x with
  | notANumber => exact le_rfl
  | zero s => exact le_rfl
  | infinity s =>
    cases s
    · exact absurd h (by decide)
    · exact h
  | finite s m e hm =>
    rw [rank_mul hx hz]
    cases s
    · have hp := (rank_positive hx).1
      rw [rank_negative] at h
      omega
    · exact roundedRank_nonneg _ _

/-- What has a positive rank is a positive number or infinite. -/
theorem rank_mul_mono_of_pos (hx : Stored x) (hy : Stored y) (h : 0 < rank x)
    (hr : rank x ≤ rank y) :
    min top (rank (mul Format.binary64 x (.finite .positive n i hn))) ≤
      rank (mul Format.binary64 y (.finite .positive n i hn)) := by
  cases y with
  | notANumber => exact absurd (h.trans_le hr) (lt_irrefl 0)
  | zero s => exact absurd (h.trans_le hr) (lt_irrefl 0)
  | infinity s =>
    cases s
    · exact absurd (h.trans_le hr) (by decide)
    · exact min_le_left _ _
  | finite s m e hm =>
    have hp := rank_positive hy
    cases s
    · rw [rank_negative] at hr
      omega
    · cases x with
      | notANumber => exact absurd h (lt_irrefl 0)
      | zero s => exact absurd h (lt_irrefl 0)
      | infinity s =>
        cases s
        · exact absurd h (by decide)
        · exact absurd hp.2 hr.not_gt
      | finite s m' e' hm' =>
        cases s
        · have hp' := (rank_positive hx).1
          rw [rank_negative] at h
          omega
        · rw [rank_mul hx hz,rank_mul hy hz]
          exact min_le_of_right_le (roundedRank_mul_mono hz hx hy hr)

/-- Multiplying by a positive number keeps the order of ranks. -/
theorem rank_mul_mono (hx : Stored x) (hy : Stored y) (hr : rank x ≤ rank y) :
    rank (store (mul Format.binary64 x (.finite .positive n i hn))) ≤
      rank (store (mul Format.binary64 y (.finite .positive n i hn))) := by
  rw [rank_store (rounded_mul hx hz),rank_store (rounded_mul hy hz)]
  rcases lt_or_ge 0 (rank x) with hpos | hnonpos
  · have hle := rank_mul_mono_of_pos hz hx hy hpos hr
    omega
  rcases lt_or_ge (rank y) 0 with hneg | hnonneg
  · have hle := rank_mul_mono_of_pos hz (stored_neg hy) (stored_neg hx)
      (by rw [rank_neg]; omega) (by rw [rank_neg,rank_neg]; omega)
    rw [mul_of_neg,mul_of_neg,rank_neg,rank_neg] at hle
    omega
  · have hy' := rank_mul_nonneg hz hy hnonneg
    have hx' := rank_mul_nonneg hz (stored_neg hx) (by rw [rank_neg]; omega)
    rw [mul_of_neg,rank_neg] at hx'
    omega

end Positive

end Product

section Floats

variable {a b c : Float}

theorem lt_iff : a < b ↔ a.isNaN = false ∧ b.isNaN = false ∧
    rank a.toModel.unpack < rank b.toModel.unpack := by
  have h : a < b ↔ (a.toModel.unpack.compare b.toModel.unpack == some .lt) = true :=
    decide_eq_true_iff
  rw [h,compare_isNaN (stored_unpack _) (stored_unpack _)]
  simp only [Float.isNaN,Float.Model.isNaN]
  cases a.toModel.unpack.isNaN <;> cases b.toModel.unpack.isNaN <;> simp [compare_lt_iff_lt]

theorem le_iff : a ≤ b ↔ a.isNaN = false ∧ b.isNaN = false ∧
    rank a.toModel.unpack ≤ rank b.toModel.unpack := by
  have h : a ≤ b ↔ ((a.toModel.unpack.compare b.toModel.unpack).any (·.isLE)) = true :=
    decide_eq_true_iff
  rw [h,compare_isNaN (stored_unpack _) (stored_unpack _)]
  simp only [Float.isNaN,Float.Model.isNaN]
  cases a.toModel.unpack.isNaN <;> cases b.toModel.unpack.isNaN <;> simp [Std.isLE_compare]

theorem lt_of_lt_of_le (h : a < b) (h' : b ≤ c) : a < c := by
  obtain ⟨ha,-,hab⟩ := lt_iff.mp h
  obtain ⟨-,hc,hbc⟩ := le_iff.mp h'
  exact lt_iff.mpr ⟨ha,hc,hab.trans_le hbc⟩

theorem unpack_mul (a b : Float) :
    (a * b).toModel.unpack = store (mul Format.binary64 a.toModel.unpack b.toModel.unpack) :=
  unpack_pack (rounded_mul (stored_unpack _) (stored_unpack _))

/-- Multiplying by a positive double that is finite keeps the order. -/
theorem mul_le_mul_right {n : ℕ} {i : ℤ} {hn : 0 < n}
    (hc : c.toModel.unpack = .finite .positive n i hn) (h : a ≤ b) : a * c ≤ b * c := by
  obtain ⟨ha,hb,hab⟩ := le_iff.mp h
  have hz := stored_unpack c.toModel
  have hnum : ∀ d : Float, d.isNaN = false → (d * c).isNaN = false := by
    intro d hd
    change (d * c).toModel.unpack.isNaN = false
    rw [unpack_mul,isNaN_store,hc]
    change d.toModel.unpack.isNaN = false at hd
    generalize d.toModel.unpack = x at hd ⊢
    cases x with
    | notANumber => cases hd
    | zero s => rfl
    | infinity s => rfl
    | finite s m e hm => exact isNaN_roundWithAccuracy _ _ _
  refine le_iff.mpr ⟨hnum a ha,hnum b hb,?_⟩
  rw [unpack_mul,unpack_mul,hc]
  rw [hc] at hz
  exact rank_mul_mono hz (stored_unpack _) (stored_unpack _) hab

end Floats

end Fluxion.Binary64
