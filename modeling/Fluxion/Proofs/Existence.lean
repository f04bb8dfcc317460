import Fluxion.Expr.Derivative

/-! Which derivatives exist. The rules fail for nothing but the logarithm of a constant zero,
and they do not look at exponents. But the power rule takes the exponent out of its place, so
with every derivative what was in an exponent comes one exponent closer to the outside. -/
namespace Fluxion
namespace Expr

/-- An expression stands in another one, in as many exponents around each other. -/
inductive Under (t : Expr) : Nat → Expr → Prop
  | here : Under t 0 t
  | neg {n : Nat} {a : Expr} (h : Under t n a) : Under t n (.neg a)
  | ln {n : Nat} {a : Expr} (h : Under t n a) : Under t n (.ln a)
  | left (op : BinaryOp) {n : Nat} {a : Expr} (h : Under t n a) (b : Expr) :
    Under t n (.binary op a b)
  | right {op : BinaryOp} (hop : op ≠ .power) {n : Nat} (a : Expr) {b : Expr} (h : Under t n b) :
    Under t n (.binary op a b)
  | exponent {n : Nat} (a : Expr) {b : Expr} (h : Under t n b) :
    Under t (n + 1) (.binary .power a b)

/-- Every logarithm of a constant zero stands in so many exponents at least. -/
def Sheltered (n : Nat) (e : Expr) : Prop := ∀ depth, Under (.ln (.const 0)) depth e → n ≤ depth

section Sheltered

variable {n : Nat} {a b : Expr}

theorem sheltered_zero (e : Expr) : Sheltered 0 e := fun depth _ => Nat.zero_le depth

theorem Sheltered.mono {e : Expr} {m : Nat} (h : Sheltered n e) (hm : m ≤ n) : Sheltered m e :=
  fun depth hu => Nat.le_trans hm (h depth hu)

theorem sheltered_const (n : Nat) (v : Int64) : Sheltered n (.const v) := nofun

theorem sheltered_var (n : Nat) (name : String) : Sheltered n (.var name) := nofun

theorem sheltered_neg : Sheltered n (.neg a) ↔ Sheltered n a := by
  constructor
  · intro h depth hu
    exact h depth hu.neg
  · rintro h depth (_ | hu)
    exact h depth hu

theorem sheltered_ln : Sheltered (n + 1) (.ln a) ↔ Sheltered (n + 1) a ∧ a ≠ .const 0 := by
  constructor
  · intro h
    refine ⟨fun depth hu => h depth hu.ln,?_⟩
    rintro rfl
    exact absurd (h 0 .here) (Nat.not_succ_le_zero n)
  · rintro ⟨h,ha⟩ depth (_ | _ | hu)
    · exact absurd rfl ha
    · exact h depth hu

theorem sheltered_binary {op : BinaryOp} (hop : op ≠ .power) :
    Sheltered n (.binary op a b) ↔ Sheltered n a ∧ Sheltered n b := by
  constructor
  · intro h
    exact ⟨fun depth hu => h depth (.left op hu b),fun depth hu => h depth (.right hop a hu)⟩
  · rintro ⟨ha,hb⟩ depth hu
    cases hu with
    | left _ hu _ => exact ha depth hu
    | right _ _ hu => exact hb depth hu
    | exponent _ hu => exact absurd rfl hop

theorem sheltered_power :
    Sheltered n (.binary .power a b) ↔ Sheltered n a ∧ Sheltered (n - 1) b := by
  constructor
  · intro h
    refine ⟨fun depth hu => h depth (.left .power hu b),fun depth hu => ?_⟩
    exact Nat.sub_le_of_le_add (h (depth + 1) (.exponent a hu))
  · rintro ⟨ha,hb⟩ depth hu
    cases hu with
    | left _ hu _ => exact ha depth hu
    | right hop _ hu => exact absurd rfl hop
    | exponent _ hu => exact Nat.le_add_of_sub_le (hb _ hu)

end Sheltered

/-- What differentiating an expression comes to. In the derivative there is one exponent less
around every logarithm of zero. -/
inductive Differentiated (e : Expr) : Except ConstructionError Expr → Prop
  | ok {d : Expr} (h : Sheltered 1 e) (hd : ∀ n, Sheltered n d ↔ Sheltered (n + 1) e) :
    Differentiated e (.ok d)
  | error (h : ¬Sheltered 1 e) : Differentiated e (.error .divideByZero)

namespace Differentiated

variable {e a b : Expr} {x y : Except ConstructionError Expr}

theorem bind (ha : Differentiated a x) (he : Sheltered 1 e → Sheltered 1 a)
    {f : Expr → Except ConstructionError Expr}
    (hf : ∀ da, Sheltered 1 a → (∀ n, Sheltered n da ↔ Sheltered (n + 1) a) →
      Differentiated e (f da)) : Differentiated e (x >>= f) := by
  cases ha with
  | ok h hd => exact hf _ h hd
  | error h => exact .error fun h' => h (he h')

theorem both {op : BinaryOp} (hop : op ≠ .power) (ha : Differentiated a x)
    (hb : Differentiated b y) {f : Expr → Expr → Except ConstructionError Expr}
    (hf : ∀ da db, (∀ n, Sheltered n da ↔ Sheltered (n + 1) a) →
      (∀ n, Sheltered n db ↔ Sheltered (n + 1) b) →
      ∃ d, f da db = .ok d ∧ ∀ n, Sheltered n d ↔ Sheltered (n + 1) a ∧ Sheltered (n + 1) b) :
    Differentiated (.binary op a b) (x >>= fun da => y >>= f da) := by
  have he : ∀ n, Sheltered n (.binary op a b) ↔ Sheltered n a ∧ Sheltered n b := fun n =>
    sheltered_binary hop
  refine ha.bind (fun h => ((he 1).mp h).1) fun da h hda => ?_
  refine hb.bind (fun h => ((he 1).mp h).2) fun db h' hdb => ?_
  obtain ⟨d,hd,hn⟩ := hf da db hda hdb
  rw [hd]
  exact .ok ((he 1).mpr ⟨h,h'⟩) fun n => (hn n).trans (he (n + 1)).symm

end Differentiated

theorem differentiated (e : Expr) : Differentiated e e.derivative := by
  induction e with
  | const v => exact .ok (sheltered_const 1 v) fun n => by simp only [sheltered_const]
  | var name => exact .ok (sheltered_var 1 name) fun n => by simp only [sheltered_const,sheltered_var]
  | neg a ih =>
    refine ih.bind sheltered_neg.mp fun da ha hda => .ok (sheltered_neg.mpr ha) fun n => ?_
    exact sheltered_neg.trans ((hda n).trans sheltered_neg.symm)
  | ln a ih =>
    refine ih.bind (fun h => (sheltered_ln.mp h).1) fun da ha hda => ?_
    by_cases hz : a = .const 0
    · subst hz
      exact .error fun h => (sheltered_ln.mp h).2 rfl
    · rw [divide_of_ne_zero hz]
      refine .ok (sheltered_ln.mpr ⟨ha,hz⟩) fun n => ?_
      rw [sheltered_binary (by decide),hda,sheltered_ln]
      exact ⟨fun h => ⟨h.1,hz⟩,fun h => ⟨h.1,h.1.mono n.le_succ⟩⟩
  | binary op a b iha ihb =>
    have kept : ∀ {n : Nat} {a : Expr}, Sheltered (n + 1) a → Sheltered n a :=
      fun h => h.mono (Nat.le_succ _)
    cases op with
    | plus =>
      refine iha.both (by decide) ihb fun da db hda hdb => ⟨.binary .plus da db,rfl,fun n => ?_⟩
      rw [sheltered_binary (by decide),hda,hdb]
    | minus =>
      refine iha.both (by decide) ihb fun da db hda hdb => ⟨.binary .minus da db,rfl,fun n => ?_⟩
      rw [sheltered_binary (by decide),hda,hdb]
    | times =>
      refine iha.both (by decide) ihb fun da db hda hdb =>
        ⟨.binary .plus (.binary .times da b) (.binary .times a db),rfl,fun n => ?_⟩
      rw [sheltered_binary (by decide),sheltered_binary (by decide),sheltered_binary (by decide),
        hda,hdb]
      exact ⟨fun h => ⟨h.1.1,h.2.2⟩,fun h => ⟨⟨h.1,kept h.2⟩,kept h.1,h.2⟩⟩
    | divide =>
      refine iha.both (by decide) ihb fun da db hda hdb =>
        ⟨.binary .divide (.binary .minus (.binary .times da b) (.binary .times a db))
          (.binary .power b (.const 2)),rfl,fun n => ?_⟩
      rw [sheltered_binary (by decide),sheltered_binary (by decide),sheltered_binary (by decide),
        sheltered_binary (by decide),sheltered_power,hda,hdb]
      exact ⟨fun h => ⟨h.1.1.1,h.1.2.2⟩,
        fun h => ⟨⟨⟨h.1,kept h.2⟩,kept h.1,h.2⟩,kept h.2,sheltered_const _ 2⟩⟩
    | power =>
      refine iha.bind (fun h => (sheltered_power.mp h).1) fun da ha hda => ?_
      refine .ok (d := .binary .times (.binary .times b
        (.binary .power a (.binary .minus b (.const 1)))) da)
        (sheltered_power.mpr ⟨ha,sheltered_zero b⟩) fun n => ?_
      rw [sheltered_binary (by decide),sheltered_binary (by decide),sheltered_power,
        sheltered_binary (by decide),hda,sheltered_power,Nat.add_sub_cancel]
      exact ⟨fun h => ⟨h.2,h.1.1⟩,
        fun h => ⟨⟨h.2,kept h.1,h.2.mono (Nat.sub_le n 1),sheltered_const _ 1⟩,h.1⟩⟩

/-- Derivatives of an order exist if every logarithm of zero stands in as many exponents. -/
theorem nthDerivative_cases (e : Expr) (n : Nat) :
    Sheltered n e ∧ (∃ d, e.nthDerivative n = .ok d) ∨
      ¬Sheltered n e ∧ e.nthDerivative n = .error .divideByZero := by
  induction n generalizing e with
  | zero => exact .inl ⟨sheltered_zero e,e,rfl⟩
  | succ n ih =>
    have hc := differentiated e
    rw [nthDerivative]
    generalize e.derivative = x at hc ⊢
    cases hc with
    | ok h hd =>
      rw [← hd n]
      exact ih _
    | error h => exact .inr ⟨fun h' => h (h'.mono (Nat.succ_le_succ n.zero_le)),rfl⟩

/-- Derivatives of an order exist exactly if every logarithm of a constant zero stands in as
many exponents at least, and otherwise the error is the division by it. Without such a
logarithm there are derivatives of every order, and a quotient has a derivative if its operands
have. -/
theorem exists_nthDerivative_iff (e : Expr) (n : Nat) :
    ((∃ d, e.nthDerivative n = .ok d) ↔
      ∀ depth, Under (.ln (.const 0)) depth e → n ≤ depth) ∧
    (∀ error, e.nthDerivative n = .error error → error = .divideByZero) ∧
    ((∀ depth, ¬Under (.ln (.const 0)) depth e) → ∃ d, e.nthDerivative n = .ok d) ∧
    ∀ a b da db, a.derivative = .ok da → b.derivative = .ok db →
      ∃ d, (Expr.binary .divide a b).derivative = .ok d := by
  have hiff : (∃ d, e.nthDerivative n = .ok d) ↔ Sheltered n e := by
    rcases nthDerivative_cases e n with ⟨h,hd⟩ | ⟨h,he⟩
    · exact ⟨fun _ => h,fun _ => hd⟩
    · refine ⟨fun ⟨d,hd⟩ => ?_,fun h' => absurd h' h⟩
      rw [he] at hd
      cases hd
  refine ⟨hiff,fun error he => ?_,fun h => hiff.mpr fun depth hu => absurd hu (h depth),?_⟩
  · rcases nthDerivative_cases e n with ⟨-,d,hd⟩ | ⟨-,he'⟩
    · rw [hd] at he
      cases he
    · rw [he'] at he
      cases he
      rfl
  · intro a b da db ha hb
    rw [derivative,ha,hb]
    exact ⟨_,rfl⟩

/-- The power rule takes the logarithm of zero out of the exponent, and the derivative after
that meets it. -/
theorem exists_nthDerivative_power :
    (∃ d, (Expr.binary .power (.var "x") (.ln (.const 0))).nthDerivative 1 = .ok d) ∧
      ¬∃ d, (Expr.binary .power (.var "x") (.ln (.const 0))).nthDerivative 2 = .ok d := by
  have hu : Under (.ln (.const 0)) 1 (.binary .power (.var "x") (.ln (.const 0))) :=
    .exponent (.var "x") .here
  refine ⟨(exists_nthDerivative_iff _ 1).1.mpr fun depth h => ?_,fun h => ?_⟩
  · cases h with
    | left _ h _ => cases h
    | right hop _ h => exact absurd rfl hop
    | exponent _ h => exact Nat.succ_le_succ (Nat.zero_le _)
  · exact absurd ((exists_nthDerivative_iff _ 2).1.mp h 1 hu) (by decide)

end Expr
end Fluxion
