import Mathlib

/-! A field of real functions with a derivation and a logarithm. A function is in it that is
analytic at almost every place, and two of them are one if they agree on a large set of places:
then they agree in a neighbourhood of most of these, and so do their derivatives. -/
namespace Fluxion

open Filter Topology

/-- Analytic everywhere but on a meagre set. -/
def IsTame (f : ℝ → ℝ) : Prop := ∀ᶠ y in residual ℝ, AnalyticAt ℝ f y

namespace IsTame

variable {f g : ℝ → ℝ}

theorem of_analyticAt (h : ∀ y, AnalyticAt ℝ f y) : IsTame f := Eventually.of_forall h

theorem add (hf : IsTame f) (hg : IsTame g) : IsTame (f + g) := by
  filter_upwards [hf,hg] with y hy hy'
  exact hy.add hy'

theorem mul (hf : IsTame f) (hg : IsTame g) : IsTame (f * g) := by
  filter_upwards [hf,hg] with y hy hy'
  exact hy.mul hy'

theorem neg (hf : IsTame f) : IsTame (-f) := by
  filter_upwards [hf] with y hy
  exact hy.neg

theorem deriv (hf : IsTame f) : IsTame (deriv f) := by
  filter_upwards [hf] with y hy
  exact hy.deriv

/-- At almost every place a tame function is not zero, or it is zero all around. -/
theorem zero_or_ne_zero (hf : IsTame f) :
    ∀ᶠ y in residual ℝ, (∀ᶠ z in 𝓝 y, f z = 0) ∨ f y ≠ 0 := by
  have hs : {y | (∀ᶠ z in 𝓝 y, f z = 0) ∨ ∀ᶠ z in 𝓝 y, f z ≠ 0} ∈ residual ℝ := by
    refine residual_of_dense_open
      (isOpen_setOfPred_eventually_nhds.union isOpen_setOfPred_eventually_nhds) ?_
    refine Dense.of_closure ((dense_of_mem_residual hf).mono fun y hy => ?_)
    rcases AnalyticAt.eventually_eq_zero_or_eventually_ne_zero hy with hz | hn
    · exact subset_closure (.inl hz)
    · have hc : ∀ᶠ z in 𝓝[≠] y, ∀ᶠ w in 𝓝 z, f w ≠ 0 := by
        filter_upwards [eventually_eventually_nhdsWithin.mpr hn,self_mem_nhdsWithin] with z hz hzy
        rwa [isOpen_compl_singleton.nhdsWithin_eq hzy] at hz
      exact mem_closure_iff_frequently.mpr
        ((hc.mono fun z hz => .inr hz).frequently.filter_mono nhdsWithin_le_nhds)
  filter_upwards [hs] with y hy
  exact hy.imp_right fun hn => hn.self_of_nhds

theorem inv (hf : IsTame f) : IsTame f⁻¹ := by
  filter_upwards [hf,hf.zero_or_ne_zero] with y hy hz
  rcases hz with hz | hz
  · have he : (0 : ℝ → ℝ) =ᶠ[𝓝 y] f⁻¹ := hz.mono fun z hz => by simp [hz]
    exact analyticAt_const.congr he
  · exact hy.inv hz

theorem log (hf : IsTame f) : IsTame fun y => Real.log (f y) := by
  filter_upwards [hf,hf.zero_or_ne_zero] with y hy hz
  rcases hz with hz | hz
  · have he : (0 : ℝ → ℝ) =ᶠ[𝓝 y] fun y => Real.log (f y) := hz.mono fun z hz => by simp [hz]
    exact analyticAt_const.congr he
  · rcases lt_or_gt_of_ne hz with hn | hp
    · have he : (fun y => Real.log (-f y)) =ᶠ[𝓝 y] fun y => Real.log (f y) :=
        Eventually.of_forall fun z => Real.log_neg_eq_log (f z)
      exact (hy.neg.log (neg_pos.mpr hn)).congr he
    · exact hy.log hp

end IsTame

instance neBot_residual : NeBot (residual ℝ) :=
  ⟨fun h => (dense_of_mem_residual (h ▸ mem_bot : (∅ : Set ℝ) ∈ residual ℝ)).nonempty.ne_empty rfl⟩

/-- What sets of places are large. Almost all places always are. -/
noncomputable def places : Ultrafilter ℝ := .of (residual ℝ)

theorem eventually_places {p : ℝ → Prop} (h : ∀ᶠ y in residual ℝ, p y) : ∀ᶠ y in places, p y :=
  Ultrafilter.of_le (residual ℝ) h

/-- Tame functions, two of which are the same if they agree at most places. -/
def tameGerms : Subfield (Germ (places : Filter ℝ) ℝ) where
  carrier := {u | ∃ f, IsTame f ∧ u = (f : Germ (places : Filter ℝ) ℝ)}
  zero_mem' := ⟨0,.of_analyticAt fun _ => analyticAt_const,rfl⟩
  one_mem' := ⟨1,.of_analyticAt fun _ => analyticAt_const,rfl⟩
  add_mem' := by
    rintro u w ⟨f,hf,rfl⟩ ⟨g,hg,rfl⟩
    exact ⟨f + g,hf.add hg,rfl⟩
  mul_mem' := by
    rintro u w ⟨f,hf,rfl⟩ ⟨g,hg,rfl⟩
    exact ⟨f * g,hf.mul hg,rfl⟩
  neg_mem' := by
    rintro u ⟨f,hf,rfl⟩
    exact ⟨-f,hf.neg,rfl⟩
  inv_mem' := by
    rintro u ⟨f,hf,rfl⟩
    exact ⟨f⁻¹,hf.inv,rfl⟩

namespace TameGerm

variable {f g : ℝ → ℝ}

noncomputable def of (f : ℝ → ℝ) (hf : IsTame f) : tameGerms := ⟨f, f, hf, rfl⟩

theorem of_eq_of_iff (hf : IsTame f) (hg : IsTame g) :
    of f hf = of g hg ↔ f =ᶠ[(places : Filter ℝ)] g := by
  rw [Subtype.ext_iff]
  exact Germ.coe_eq

theorem exists_of (u : tameGerms) : ∃ f, ∃ hf : IsTame f, u = of f hf := by
  obtain ⟨u,f,hf,rfl⟩ := u
  exact ⟨f,hf,rfl⟩

theorem of_add (hf : IsTame f) (hg : IsTame g) : of f hf + of g hg = of (f + g) (hf.add hg) := rfl

theorem of_mul (hf : IsTame f) (hg : IsTame g) : of f hf * of g hg = of (f * g) (hf.mul hg) := rfl

theorem deriv_congr (hf : IsTame f) (hg : IsTame g) (h : f =ᶠ[(places : Filter ℝ)] g) :
    deriv f =ᶠ[(places : Filter ℝ)] deriv g := by
  have hz := (hf.add hg.neg).zero_or_ne_zero
  filter_upwards [h,eventually_places hz] with y hy hz
  have he : ∀ᶠ z in 𝓝 y, (f + -g) z = 0 := hz.resolve_right (by simp [hy])
  have he' : f =ᶠ[𝓝 y] g := he.mono fun z hz => by simpa [add_neg_eq_zero] using hz
  exact he'.deriv_eq

noncomputable def rep (u : tameGerms) : ℝ → ℝ := (exists_of u).choose

theorem isTame_rep (u : tameGerms) : IsTame (rep u) := (exists_of u).choose_spec.choose

theorem of_rep (u : tameGerms) : of (rep u) (isTame_rep u) = u :=
  (exists_of u).choose_spec.choose_spec.symm

noncomputable def derivative (u : tameGerms) : tameGerms := of (deriv (rep u)) (isTame_rep u).deriv

theorem derivative_of (hf : IsTame f) : derivative (of f hf) = of (deriv f) hf.deriv :=
  (of_eq_of_iff _ _).mpr
    (deriv_congr (isTame_rep _) hf ((of_eq_of_iff _ _).mp (of_rep (of f hf))))

theorem derivative_add (u w : tameGerms) : derivative (u + w) = derivative u + derivative w := by
  obtain ⟨f,hf,rfl⟩ := exists_of u
  obtain ⟨g,hg,rfl⟩ := exists_of w
  rw [of_add,derivative_of,derivative_of,derivative_of,of_add,of_eq_of_iff]
  filter_upwards [eventually_places hf,eventually_places hg] with y hy hy'
  exact deriv_add hy.differentiableAt hy'.differentiableAt

theorem derivative_mul (u w : tameGerms) :
    derivative (u * w) = u • derivative w + w • derivative u := by
  obtain ⟨f,hf,rfl⟩ := exists_of u
  obtain ⟨g,hg,rfl⟩ := exists_of w
  rw [smul_eq_mul,smul_eq_mul,of_mul,derivative_of,derivative_of,derivative_of,of_mul,of_mul,of_add,
    of_eq_of_iff]
  filter_upwards [eventually_places hf,eventually_places hg] with y hy hy'
  have hd := deriv_mul hy.differentiableAt hy'.differentiableAt
  simp only [Pi.add_apply,Pi.mul_apply]
  rw [hd]
  ring

noncomputable def derivation : Derivation ℤ tameGerms tameGerms :=
  .mk' (AddMonoidHom.mk' derivative derivative_add).toIntLinearMap derivative_mul

noncomputable def logarithm (u : tameGerms) : tameGerms :=
  of (fun y => Real.log (rep u y)) (isTame_rep u).log

theorem derivation_logarithm {u : tameGerms} (hu : u ≠ 0) :
    derivation (logarithm u) = derivation u / u := by
  have hn : ∀ᶠ y in places, rep u y ≠ 0 := by
    rw [Ultrafilter.eventually_not]
    intro hz
    have hu0 : of (rep u) (isTame_rep u) = 0 := Subtype.ext (Germ.coe_eq.mpr hz)
    exact hu (of_rep u ▸ hu0)
  have hd : derivation (logarithm u) =
      of (deriv fun y => Real.log (rep u y)) (isTame_rep u).log.deriv := derivative_of _
  have hm : derivation (logarithm u) * of (rep u) (isTame_rep u) =
      of (deriv (rep u)) (isTame_rep u).deriv := by
    rw [hd,of_mul,of_eq_of_iff]
    filter_upwards [eventually_places (isTame_rep u),hn] with y hy hy0
    rw [Pi.mul_apply,deriv.log hy.differentiableAt hy0,div_mul_cancel₀ _ hy0]
  rw [eq_div_iff hu]
  rwa [of_rep] at hm

noncomputable def argument : tameGerms := of id (.of_analyticAt fun _ => analyticAt_id)

theorem derivation_argument : derivation argument = 1 := by
  have hd : derivation argument = of (deriv id) _ :=
    derivative_of (.of_analyticAt fun _ => analyticAt_id)
  rw [hd]
  refine Subtype.ext (Germ.coe_eq.mpr (Eventually.of_forall fun y => ?_))
  exact deriv_id y

theorem argument_ne_zero : argument ≠ 0 := by
  intro h
  have hz : id =ᶠ[(places : Filter ℝ)] 0 := Germ.coe_eq.mp (congrArg Subtype.val h)
  have hn : ∀ᶠ y : ℝ in residual ℝ, y ≠ 0 :=
    residual_of_dense_open isOpen_compl_singleton (dense_compl_singleton 0)
  exact (hz.and (eventually_places hn)).exists.elim fun y hy => hy.2 hy.1

end TameGerm

end Fluxion
