import Fluxion.Comparison
import Mathlib

/-! Samples that tell two expressions apart. They are tried in order, so what is reported is
the least of them, with the values there. A number is close to itself whatever the tolerance
is, and what is no number is not; so an expression differs from itself exactly where its
value is no number. -/
namespace Fluxion

theorem isClose_self {a : Float} (h : a.isNaN = false) (epsilon : Float) :
    isClose a a epsilon = true := by
  rw [Float.isNaN_eq_decide_eq_nan,decide_eq_false_iff_not] at h
  rw [isClose,withinTolerance,if_pos (Float.beq_self_iff.mpr h)]

section Samples

variable {reference candidate : Expr} {epsilon : Float} {settings : Settings} {m : Mismatch}

theorem mismatchAt?_eq_none_iff {sample : Nat} :
    mismatchAt? reference candidate epsilon sample = none ↔
      (reference.value (Float.ofNat sample)).isNaN = false ∧
      (candidate.value (Float.ofNat sample)).isNaN = false ∧
      isClose (reference.value (Float.ofNat sample)) (candidate.value (Float.ofNat sample))
        epsilon = true := by
  simp [mismatchAt?,and_assoc]

theorem mismatchAt?_eq_some {sample : Nat}
    (h : mismatchAt? reference candidate epsilon sample = some m) :
    m = ⟨sample, reference.value (Float.ofNat sample), candidate.value (Float.ofNat sample)⟩ := by
  obtain ⟨-,he⟩ := Option.ite_none_right_eq_some.mp h
  exact (Option.some.inj he).symm

theorem firstMismatchFrom?_eq_some_iff {count sample : Nat} :
    firstMismatchFrom? reference candidate epsilon count sample = some m ↔
      sample ≤ m.sample ∧ m.sample < sample + count ∧
      mismatchAt? reference candidate epsilon m.sample = some m ∧
      ∀ x, sample ≤ x → x < m.sample → mismatchAt? reference candidate epsilon x = none := by
  induction count generalizing sample with
  | zero =>
    simp only [firstMismatchFrom?]
    constructor
    · intro h
      cases h
    · rintro ⟨hl,hu,-⟩
      omega
  | succ count ih =>
    simp only [firstMismatchFrom?]
    cases h : mismatchAt? reference candidate epsilon sample with
    | some n =>
      have hn : n.sample = sample := by rw [mismatchAt?_eq_some h]
      constructor
      · rintro ⟨⟩
        rw [hn]
        exact ⟨Nat.le_refl _,by omega,h,fun x hl hu => by omega⟩
      · rintro ⟨hl,-,hm,hx⟩
        rcases Nat.eq_or_lt_of_le hl with he | he
        · rw [← hm,← he,h]
        · rw [hx sample (Nat.le_refl _) he] at h
          cases h
    | none =>
      rw [ih]
      constructor
      · rintro ⟨hl,hu,hm,hx⟩
        refine ⟨by omega,by omega,hm,fun x hxl hxu => ?_⟩
        rcases Nat.eq_or_lt_of_le hxl with rfl | he
        · exact h
        · exact hx x he hxu
      · rintro ⟨hl,hu,hm,hx⟩
        rcases Nat.eq_or_lt_of_le hl with he | he
        · rw [he,hm] at h
          cases h
        · exact ⟨he,by omega,hm,fun x hxl hxu => hx x (by omega) hxu⟩

/-- The samples that tell two expressions apart. -/
def disagreements (reference candidate : Expr) (settings : Settings) : Set Nat :=
  {x | 1 ≤ x ∧ x < settings.limit ∧ mismatchAt? reference candidate settings.epsilon x ≠ none}

theorem firstMismatch?_eq_some_iff :
    firstMismatch? reference candidate settings = some m ↔
      IsLeast (disagreements reference candidate settings) m.sample ∧
      m.expected = reference.value (Float.ofNat m.sample) ∧
      m.actual = candidate.value (Float.ofNat m.sample) := by
  rw [firstMismatch?,firstMismatchFrom?_eq_some_iff]
  constructor
  · rintro ⟨hl,hu,hm,hx⟩
    have he := mismatchAt?_eq_some hm
    refine ⟨⟨⟨hl,by omega,by simp [hm]⟩,fun x ⟨hxl,_,hxm⟩ => ?_⟩,congrArg Mismatch.expected he,
      congrArg Mismatch.actual he⟩
    by_contra hlt
    exact hxm (hx x hxl (by omega))
  · rintro ⟨⟨⟨hl,hu,hm⟩,hx⟩,he,ha⟩
    obtain ⟨n,hn⟩ := Option.ne_none_iff_exists'.mp hm
    refine ⟨hl,by omega,?_,fun x hxl hxu => ?_⟩
    · rw [hn,mismatchAt?_eq_some hn,← he,← ha]
    · by_contra hxm
      have := hx ⟨hxl,by omega,hxm⟩
      omega

theorem firstMismatch?_eq_none_iff :
    firstMismatch? reference candidate settings = none ↔
      disagreements reference candidate settings = ∅ := by
  rw [firstMismatch?_eq,List.findSome?_eq_none_iff,Set.eq_empty_iff_forall_notMem]
  simp only [List.mem_range'_1,disagreements,Set.mem_ofPred_eq]
  constructor
  · rintro h x ⟨hl,hu,hm⟩
    exact hm (h x ⟨hl,by omega⟩)
  · rintro h x ⟨hl,hu⟩
    by_contra hm
    exact h x ⟨hl,by omega,hm⟩

/-- An expression differs from itself where its value is no number. -/
theorem disagreements_self (e : Expr) (settings : Settings) :
    disagreements e e settings =
      {x | 1 ≤ x ∧ x < settings.limit ∧ (e.value (Float.ofNat x)).isNaN = true} := by
  ext x
  have hx : mismatchAt? e e settings.epsilon x ≠ none ↔
      (e.value (Float.ofNat x)).isNaN = true := by
    rw [Ne,mismatchAt?_eq_none_iff]
    constructor
    · intro h
      by_contra hn
      have hn := Bool.eq_false_iff.mpr hn
      exact h ⟨hn,hn,isClose_self hn settings.epsilon⟩
    · rintro h ⟨hn,-⟩
      rw [h] at hn
      cases hn
  simp only [disagreements,Set.mem_ofPred_eq,hx]

end Samples

end Fluxion
