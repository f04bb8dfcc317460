import Mathlib.Algebra.Field.Basic
import Fluxion.Expr.Evaluation
import Fluxion.Proofs.Lockstep

/-! Implicit multiplication and values. A product without a sign is grouped differently from
one with a sign, and in every field the groupings have the same value. -/
namespace Fluxion

universe u

/-- The arithmetic of a field, in which powers and logarithms may be any functions. -/
def Arithmetic.field {K : Type u} [Field K] (pow : K → K → K) (ln : K → K) : Arithmetic K where
  ofInt := fun n => n
  neg := fun a => -a
  add := fun a b => a + b
  sub := fun a b => a - b
  mul := fun a b => a * b
  div := fun a b => a * b⁻¹
  pow := pow
  ln := ln

/-- The same value in every field, whatever functions stand for powers and logarithms. -/
def Expr.SameValue (a b : Expr) : Prop :=
  ∀ (K : Type u) [Field K] (pow : K → K → K) (ln : K → K) (x : K),
    a.valueIn (.field pow ln) x = b.valueIn (.field pow ln) x

/-- Regrouping of products does not change the value, nor does it make a constant zero. -/
theorem Expr.regrouping_sameValue : Expr.Regrouping .implicit
    fun a b => (a = .const 0 ↔ b = .const 0) ∧ SameValue.{u} a b where
  const v := ⟨.rfl,fun K _ pow ln x => rfl⟩
  var name := ⟨.rfl,fun K _ pow ln x => rfl⟩
  neg h := ⟨by simp,fun K _ pow ln x => by simp only [valueIn,h.2 K pow ln x]⟩
  binary op := by
    intro a b c d h h'
    exact ⟨by simp,fun K _ pow ln x => by simp only [valueIn,h.2 K pow ln x,h'.2 K pow ln x]⟩
  ln h := ⟨by simp,fun K _ pow ln x => by simp only [valueIn,h.2 K pow ln x]⟩
  zero h := h.1
  trans h h' := ⟨h.1.trans h'.1,fun K _ pow ln x => (h.2 K pow ln x).trans (h'.2 K pow ln x)⟩
  regroup _ {op} hop a b c := by
    refine ⟨by simp,fun K _ pow ln x => ?_⟩
    cases op with
    | times => exact (mul_assoc _ _ _).symm
    | divide => exact (mul_assoc _ _ _).symm
    | plus => cases hop
    | minus => cases hop
    | power => cases hop

namespace Formula

/-- Implicit multiplication means the same as multiplication with a sign. -/
theorem parse_of_star {s : String} {b : Expr} (hs : isSpaced none s.toList = true)
    (hn : negatesLongPower none s.toList = false)
    (hb : parse (String.ofList (star none s.toList)) = .ok b) :
    ∃ a, parse s = .ok a ∧ Expr.SameValue.{u} a b := by
  obtain ⟨hallowed,hparsed⟩ := parse_eq_ok_iff.mp hb
  rw [String.toList_ofList] at hallowed
  rw [Fragment.ofString,String.toList_ofList] at hparsed
  have hsound : Fragment.Sound ((star none s.toList).map .char) :=
    sound_of_parsed? (by simp [hparsed])
  have hinit : Linked none s.toList Scan.init .operator := .operator rfl fun hm => by cases hm
  obtain ⟨v,hi,he⟩ := agree_star hinit hs hn hsound.place hsound.depth
  have hv : some b = v := hparsed.symm.trans (Fragment.parsed?_of_scan? he)
  subst hv
  have hrel := Fragment.rel_parsed? Expr.regrouping_sameValue.{u} hi
  cases ha : Fragment.parsed? (s.toList.map .char) with
  | none =>
    rw [ha] at hrel
    cases hrel
  | some a =>
    rw [ha] at hrel
    rcases hrel with h | _
    exact ⟨a,parse_eq_ok_iff.mpr ⟨fun c hc => hallowed c (mem_star hc),ha⟩,h.2⟩

theorem parse_of_star_quotient :
    parse "2*x/3*y" = .ok (.binary .times (.binary .divide (.binary .times (.const 2) (.var "x"))
        (.const 3)) (.var "y")) ∧
      ∃ a, parse "2x/3y" = .ok a ∧ Expr.SameValue.{u} a
        (.binary .times (.binary .divide (.binary .times (.const 2) (.var "x")) (.const 3))
          (.var "y")) := by
  have hs : "2x/3y".toList = ['2', 'x', '/', '3', 'y'] := by decide
  have hstar : "2*x/3*y" = String.ofList (star none "2x/3y".toList) := by
    rw [hs]
    decide
  have hb : parse "2*x/3*y" = .ok (.binary .times (.binary .divide (.binary .times (.const 2)
      (.var "x")) (.const 3)) (.var "y")) := by
    have ht : "2*x/3*y".toList = ['2', '*', 'x', '/', '3', '*', 'y'] := by decide
    refine parse_eq_ok_iff.mpr ⟨?_,?_⟩
    · rw [ht]
      simp only [List.forall_mem_cons]
      exact ⟨rfl,rfl,rfl,rfl,rfl,rfl,rfl,List.forall_mem_nil _⟩
    · rw [Fragment.ofString,ht]
      exact Fragment.parsed?_of_scan? rfl
  exact ⟨hb,parse_of_star (by rw [hs]; rfl) (by rw [hs]; rfl) (hstar ▸ hb)⟩

end Formula
end Fluxion
