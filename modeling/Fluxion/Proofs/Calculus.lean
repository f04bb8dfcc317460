import Fluxion.Expr.Derivative
import Fluxion.Expr.Evaluation
import Fluxion.Proofs.AnalyticGerms

/-! The rules of calculus. In any field with a derivation and a logarithm, the derivative of an
expression has the derivative of its value for a value, as long as no divisor, no base of a
power and no operand of a logarithm is zero and all exponents are integers. What the rules
give is again of this kind, so there are derivatives of every order. -/
namespace Fluxion

universe u

/-- A value in a field, and the integer that it is as an exponent. -/
structure Exact (K : Type u) where
  value : K
  exponent : ℤ

/-- Exact arithmetic. Exponents are made with signs, sums, differences and products only. -/
def Arithmetic.exact {K : Type u} [Field K] (L : K → K) : Arithmetic (Exact K) where
  ofInt := fun n => ⟨n, n⟩
  neg := fun a => ⟨-a.value, -a.exponent⟩
  add := fun a b => ⟨a.value + b.value, a.exponent + b.exponent⟩
  sub := fun a b => ⟨a.value - b.value, a.exponent - b.exponent⟩
  mul := fun a b => ⟨a.value * b.value, a.exponent * b.exponent⟩
  div := fun a b => ⟨a.value / b.value, 0⟩
  pow := fun a b => ⟨a.value ^ b.exponent, 0⟩
  ln := fun a => ⟨L a.value, 0⟩

namespace Expr

/-- Constants, and their signs, sums, differences and products. -/
inductive Closed : Expr → Prop
  | const (v : Int64) : Closed (.const v)
  | neg {a : Expr} (h : Closed a) : Closed (.neg a)
  | plus {a b : Expr} (h : Closed a) (h' : Closed b) : Closed (.binary .plus a b)
  | minus {a b : Expr} (h : Closed a) (h' : Closed b) : Closed (.binary .minus a b)
  | times {a b : Expr} (h : Closed a) (h' : Closed b) : Closed (.binary .times a b)

section Value

variable {K : Type u} [Field K] (L : K → K) (x : K)

def exactValue (e : Expr) : K := (e.valueIn (.exact L) ⟨x, 0⟩).value

def exactExponent (e : Expr) : ℤ := (e.valueIn (.exact L) ⟨x, 0⟩).exponent

variable (a b : Expr) (v : Int64)

@[simp] theorem exactValue_const : (const v).exactValue L x = (v.toInt : K) := rfl

@[simp] theorem exactValue_var (name : String) : (var name).exactValue L x = x := rfl

@[simp] theorem exactValue_neg : (neg a).exactValue L x = -a.exactValue L x := rfl

@[simp] theorem exactValue_plus :
    (binary .plus a b).exactValue L x = a.exactValue L x + b.exactValue L x := rfl

@[simp] theorem exactValue_minus :
    (binary .minus a b).exactValue L x = a.exactValue L x - b.exactValue L x := rfl

@[simp] theorem exactValue_times :
    (binary .times a b).exactValue L x = a.exactValue L x * b.exactValue L x := rfl

@[simp] theorem exactValue_divide :
    (binary .divide a b).exactValue L x = a.exactValue L x / b.exactValue L x := rfl

@[simp] theorem exactValue_power :
    (binary .power a b).exactValue L x = a.exactValue L x ^ b.exactExponent L x := rfl

@[simp] theorem exactValue_ln : (ln a).exactValue L x = L (a.exactValue L x) := rfl

@[simp] theorem exactExponent_const : (const v).exactExponent L x = v.toInt := rfl

@[simp] theorem exactExponent_neg : (neg a).exactExponent L x = -a.exactExponent L x := rfl

@[simp] theorem exactExponent_plus :
    (binary .plus a b).exactExponent L x = a.exactExponent L x + b.exactExponent L x := rfl

@[simp] theorem exactExponent_minus :
    (binary .minus a b).exactExponent L x = a.exactExponent L x - b.exactExponent L x := rfl

@[simp] theorem exactExponent_times :
    (binary .times a b).exactExponent L x = a.exactExponent L x * b.exactExponent L x := rfl

theorem Closed.exactValue_eq {e : Expr} (h : e.Closed) :
    e.exactValue L x = (e.exactExponent L x : K) := by
  induction h with
  | const v => rfl
  | neg h ih => simp [ih]
  | plus h h' ih ih' | minus h h' ih ih' | times h h' ih ih' => simp [ih,ih']

/-- No divisor, no base of a power and no operand of a logarithm has the value zero, and
exponents are closed. -/
def Regular : Expr → Prop
  | const _ | var _ => True
  | neg a => a.Regular
  | binary .plus a b | binary .minus a b | binary .times a b => a.Regular ∧ b.Regular
  | binary .divide a b => a.Regular ∧ b.Regular ∧ b.exactValue L x ≠ 0
  | binary .power a b => a.Regular ∧ a.exactValue L x ≠ 0 ∧ b.Closed
  | ln a => a.Regular ∧ a.exactValue L x ≠ 0

theorem Closed.regular {e : Expr} (h : e.Closed) : e.Regular L x := by
  induction h with
  | const v => trivial
  | neg h ih => exact ih
  | plus h h' ih ih' | minus h h' ih ih' | times h h' ih ih' => exact ⟨ih,ih'⟩

end Value

section Rules

variable {K : Type u} [Field K]

/-- An expression has a derivative, which is regular again and has the right value. -/
structure Derives (D : Derivation ℤ K K) (L : K → K) (x : K) (e d : Expr) : Prop where
  derivative_eq : e.derivative = .ok d
  regular : d.Regular L x
  value_eq : d.exactValue L x = D (e.exactValue L x)

namespace Derives

variable {D : Derivation ℤ K K} {L : K → K} {x : K} {a b da db : Expr}

theorem const (v : Int64) : Derives D L x (.const v) (.const 0) where
  derivative_eq := rfl
  regular := trivial
  value_eq := by simp

theorem var (hx : D x = 1) (name : String) : Derives D L x (.var name) (.const 1) where
  derivative_eq := rfl
  regular := trivial
  value_eq := by simp [hx]

theorem neg (ha : Derives D L x a da) : Derives D L x (.neg a) (.neg da) where
  derivative_eq := by rw [derivative,ha.derivative_eq]; rfl
  regular := ha.regular
  value_eq := by simp [ha.value_eq]

theorem plus (ha : Derives D L x a da) (hb : Derives D L x b db) :
    Derives D L x (.binary .plus a b) (.binary .plus da db) where
  derivative_eq := by rw [derivative,ha.derivative_eq,hb.derivative_eq]; rfl
  regular := ⟨ha.regular,hb.regular⟩
  value_eq := by simp [ha.value_eq,hb.value_eq]

theorem minus (ha : Derives D L x a da) (hb : Derives D L x b db) :
    Derives D L x (.binary .minus a b) (.binary .minus da db) where
  derivative_eq := by rw [derivative,ha.derivative_eq,hb.derivative_eq]; rfl
  regular := ⟨ha.regular,hb.regular⟩
  value_eq := by simp [ha.value_eq,hb.value_eq]

theorem times (h : (Expr.binary .times a b).Regular L x) (ha : Derives D L x a da)
    (hb : Derives D L x b db) :
    Derives D L x (.binary .times a b)
      (.binary .plus (.binary .times da b) (.binary .times a db)) where
  derivative_eq := by rw [derivative,ha.derivative_eq,hb.derivative_eq]; rfl
  regular := ⟨⟨ha.regular,h.2⟩,h.1,hb.regular⟩
  value_eq := by
    simp only [exactValue_plus,exactValue_times,ha.value_eq,hb.value_eq,D.leibniz,smul_eq_mul]
    ring

theorem divide (h : (Expr.binary .divide a b).Regular L x) (ha : Derives D L x a da)
    (hb : Derives D L x b db) :
    Derives D L x (.binary .divide a b)
      (.binary .divide (.binary .minus (.binary .times da b) (.binary .times a db))
        (.binary .power b (.const 2))) where
  derivative_eq := by rw [derivative,ha.derivative_eq,hb.derivative_eq]; rfl
  regular := by
    obtain ⟨hra,hrb,hb0⟩ := h
    exact ⟨⟨⟨ha.regular,hrb⟩,hra,hb.regular⟩,⟨hrb,hb0,.const 2⟩,zpow_ne_zero _ hb0⟩
  value_eq := by
    have two : exactExponent L x (.const 2) = 2 := rfl
    simp only [exactValue_divide,exactValue_minus,exactValue_times,exactValue_power,two,
      ha.value_eq,hb.value_eq,D.leibniz_div,smul_eq_mul,zpow_ofNat]
    ring

theorem power (h : (Expr.binary .power a b).Regular L x) (ha : Derives D L x a da) :
    Derives D L x (.binary .power a b)
      (.binary .times (.binary .times b (.binary .power a (.binary .minus b (.const 1)))) da) where
  derivative_eq := by rw [derivative,ha.derivative_eq]; rfl
  regular := by
    obtain ⟨hra,ha0,hb⟩ := h
    exact ⟨⟨hb.regular L x,hra,ha0,.minus hb (.const 1)⟩,ha.regular⟩
  value_eq := by
    have one : exactExponent L x (.const 1) = 1 := rfl
    simp only [exactValue_times,exactValue_power,exactExponent_minus,one,ha.value_eq,
      h.2.2.exactValue_eq L x,D.leibniz_zpow,smul_eq_mul,zsmul_eq_mul,mul_assoc]

theorem ln (hL : ∀ u, u ≠ 0 → D (L u) = D u / u) (h : (Expr.ln a).Regular L x)
    (ha : Derives D L x a da) : Derives D L x (.ln a) (.binary .divide da a) where
  derivative_eq := by
    have ha0 : a ≠ .const 0 := by
      rintro rfl
      exact h.2 (by simp)
    rw [derivative,ha.derivative_eq]
    exact divide_of_ne_zero ha0 da
  regular := ⟨ha.regular,h⟩
  value_eq := by simp [ha.value_eq,hL _ h.2]

end Derives

theorem Regular.derives {D : Derivation ℤ K K} {L : K → K} {x : K} (hx : D x = 1)
    (hL : ∀ u, u ≠ 0 → D (L u) = D u / u) {e : Expr} (h : e.Regular L x) :
    ∃ d, Derives D L x e d := by
  induction e with
  | const v => exact ⟨_,.const v⟩
  | var name => exact ⟨_,.var hx name⟩
  | neg a ih =>
    obtain ⟨da,ha⟩ := ih h
    exact ⟨_,ha.neg⟩
  | ln a ih =>
    obtain ⟨da,ha⟩ := ih h.1
    exact ⟨_,.ln hL h ha⟩
  | binary op a b iha ihb =>
    cases op with
    | plus =>
      obtain ⟨da,ha⟩ := iha h.1
      obtain ⟨db,hb⟩ := ihb h.2
      exact ⟨_,ha.plus hb⟩
    | minus =>
      obtain ⟨da,ha⟩ := iha h.1
      obtain ⟨db,hb⟩ := ihb h.2
      exact ⟨_,ha.minus hb⟩
    | times =>
      obtain ⟨da,ha⟩ := iha h.1
      obtain ⟨db,hb⟩ := ihb h.2
      exact ⟨_,.times h ha hb⟩
    | divide =>
      obtain ⟨da,ha⟩ := iha h.1
      obtain ⟨db,hb⟩ := ihb h.2.1
      exact ⟨_,.divide h ha hb⟩
    | power =>
      obtain ⟨da,ha⟩ := iha h.1
      exact ⟨_,.power h ha⟩

/-- The derivatives of every order exist and have the derivatives of the value for values. -/
theorem nthDerivative_exactValue (D : Derivation ℤ K K) (L : K → K) {x : K} (hx : D x = 1)
    (hL : ∀ u, u ≠ 0 → D (L u) = D u / u) {e : Expr} (h : e.Regular L x) (n : ℕ) :
    ∃ d, e.nthDerivative n = .ok d ∧ d.exactValue L x = D^[n] (e.exactValue L x) := by
  -- On the order for every regular expression, as the first derivative is another one.
  induction n generalizing e with
  | zero => exact ⟨e,rfl,rfl⟩
  | succ n ih =>
    obtain ⟨d,hd⟩ := h.derives hx hL
    obtain ⟨f,hf,hv⟩ := ih hd.regular
    refine ⟨f,?_,?_⟩
    · rw [nthDerivative,hd.derivative_eq]
      exact hf
    · rw [hv,hd.value_eq,Function.iterate_succ_apply]

end Rules

section Functions

open TameGerm

/-- The second derivative of a logarithm over a power, for functions of a real number. -/
theorem nthDerivative_exactValue_quotient :
    (Expr.binary .divide (.ln (.var "x"))
        (.binary .power (.var "x") (.binary .minus (.const 1) (.const 3)))).Regular
      logarithm argument ∧
    ∃ d, (Expr.binary .divide (.ln (.var "x"))
        (.binary .power (.var "x") (.binary .minus (.const 1) (.const 3)))).nthDerivative 2 = .ok d ∧
      d.exactValue logarithm argument =
        derivation^[2] (logarithm argument / argument ^ (-2 : ℤ)) := by
  have h : (Expr.binary .divide (.ln (.var "x"))
      (.binary .power (.var "x") (.binary .minus (.const 1) (.const 3)))).Regular
        logarithm argument :=
    ⟨⟨trivial,argument_ne_zero⟩,⟨trivial,argument_ne_zero,.minus (.const 1) (.const 3)⟩,
      zpow_ne_zero _ argument_ne_zero⟩
  exact ⟨h,nthDerivative_exactValue derivation logarithm derivation_argument
    (fun u hu => derivation_logarithm hu) h 2⟩

end Functions
end Expr
end Fluxion
