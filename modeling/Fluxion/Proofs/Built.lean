import Fluxion.Expr.Derivative
import Fluxion.Expr.Variables
import Fluxion.Proofs.Form
import Fluxion.Proofs.Layers

/-! Expressions that can be built. The constructors refuse a constant zero as a divisor and
nothing else, so what can be built is told by the tree alone. What is read from a formula
can be built, and so can derivatives. -/
namespace Fluxion

theorem bind_eq_ok {ε α β : Type} {x : Except ε α} {f : α → Except ε β} {b : β}
    (h : x >>= f = .ok b) : ∃ a, x = .ok a ∧ f a = .ok b := by
  cases x with
  | error error => cases h
  | ok a => exact ⟨a,rfl,h⟩

namespace Expr

/-- What the public constructors and operators give. -/
inductive Built : Expr → Prop
  | constant (v : Int64) : Built (.const v)
  | named (name : String) : Built (.var name)
  | negate {a : Expr} (h : Built a) : Built (-a)
  | logarithm {a : Expr} (h : Built a) : Built (.ln a)
  | add {a b : Expr} (h : Built a) (h' : Built b) : Built (a + b)
  | sub {a b : Expr} (h : Built a) (h' : Built b) : Built (a - b)
  | mul {a b : Expr} (h : Built a) (h' : Built b) : Built (a * b)
  | pow {a b : Expr} (h : Built a) (h' : Built b) : Built (a ^ b)
  | binary {op : BinaryOp} {a b e : Expr} (h : Built a) (h' : Built b)
    (he : combine op a b = .ok e) : Built e
  | divide {a b e : Expr} (h : Built a) (h' : Built b) (he : Expr.divide a b = .ok e) : Built e
  | node {n : Node Expr} {e : Expr} (h : ∀ a ∈ n.operands, Built a) (he : ofNode n = .ok e) :
    Built e
  | compound {kind : Kind} {operands : List Expr} {e : Expr} (h : ∀ a ∈ operands, Built a)
    (he : ofKind kind operands = .ok e) : Built e

/-- No division has the constant zero as its divisor. -/
def Proper : Expr → Prop
  | const _ | var _ => True
  | neg a | ln a => a.Proper
  | binary op a b => a.Proper ∧ b.Proper ∧ ¬(op = .divide ∧ b = .const 0)

/-- Every variable is named by a run of letters. -/
def Lettered (e : Expr) : Prop :=
  ∀ name ∈ e.occurrences, name ≠ "" ∧ ∀ c ∈ name.toList, c.isAlpha = true

theorem combine_eq_ok {op : BinaryOp} {a b e : Expr} (h : combine op a b = .ok e) :
    e = .binary op a b ∧ ¬(op = .divide ∧ b = .const 0) := by
  unfold combine at h
  split at h
  · cases h
  · rename_i hz
    cases h
    exact ⟨rfl,hz⟩

theorem proper_combine {op : BinaryOp} {a b e : Expr} (ha : a.Proper) (hb : b.Proper)
    (h : combine op a b = .ok e) : e.Proper := by
  obtain ⟨rfl,hz⟩ := combine_eq_ok h
  exact ⟨ha,hb,hz⟩

theorem proper_binary {op : BinaryOp} {a b : Expr} (ho : op ≠ .divide) (ha : a.Proper)
    (hb : b.Proper) : (binary op a b).Proper :=
  ⟨ha,hb,fun h => ho h.1⟩

theorem proper_ofNode {n : Node Expr} {e : Expr} (hn : ∀ a ∈ n.operands, a.Proper)
    (h : ofNode n = .ok e) : e.Proper := by
  cases n with
  | const v => cases h; trivial
  | var name => cases h; trivial
  | neg a => cases h; exact hn a (by simp [Node.operands])
  | ln a => cases h; exact hn a (by simp [Node.operands])
  | binary op a b =>
    exact proper_combine (hn a (by simp [Node.operands])) (hn b (by simp [Node.operands])) h

theorem proper_ofKind {kind : Kind} {operands : List Expr} {e : Expr}
    (ho : ∀ a ∈ operands, a.Proper) (h : ofKind kind operands = .ok e) : e.Proper := by
  obtain ⟨-,-,hz,rfl,rfl⟩ := ofKind_eq_ok_iff.mp h
  exact proper_ofNode ho (ofNode_node hz)

theorem Built.proper {e : Expr} (h : e.Built) : e.Proper := by
  induction h with
  | constant v => trivial
  | named name => trivial
  | negate _ ih | logarithm _ ih => exact ih
  | add _ _ ih ih' | sub _ _ ih ih' | mul _ _ ih ih' | pow _ _ ih ih' =>
    exact proper_binary (by decide) ih ih'
  | binary _ _ he ih ih' => exact proper_combine ih ih' he
  | divide _ _ he ih ih' => exact proper_combine ih ih' he
  | node _ he ih => exact proper_ofNode ih he
  | compound _ he ih => exact proper_ofKind ih he

section Lettered

variable {a b : Expr}

theorem lettered_const (v : Int64) : (const v).Lettered := by
  simp [Lettered,occurrences]

theorem lettered_binary {op : BinaryOp} (ha : a.Lettered) (hb : b.Lettered) :
    (binary op a b).Lettered := by
  intro name hn
  rcases List.mem_append.mp hn with hn | hn
  · exact ha name hn
  · exact hb name hn

theorem Lettered.left {op : BinaryOp} (h : (binary op a b).Lettered) : a.Lettered :=
  fun name hn => h name (List.mem_append_left _ hn)

theorem Lettered.right {op : BinaryOp} (h : (binary op a b).Lettered) : b.Lettered :=
  fun name hn => h name (List.mem_append_right _ hn)

end Lettered

/-- A property that operands have from what is built of them, and that this has from them. -/
structure Hereditary (P : Expr → Prop) : Prop where
  const (v : Int64) : P (.const v)
  neg {a : Expr} : P (.neg a) ↔ P a
  ln {a : Expr} : P (.ln a) ↔ P a
  left {op : BinaryOp} {a b : Expr} (h : P (.binary op a b)) : P a
  right {op : BinaryOp} {a b : Expr} (h : P (.binary op a b)) : P b
  binary {op : BinaryOp} {a b : Expr} (ha : P a) (hb : P b) (hz : ¬(op = .divide ∧ b = .const 0)) :
    P (.binary op a b)

theorem hereditary_proper : Hereditary Proper where
  const _ := trivial
  neg := Iff.rfl
  ln := Iff.rfl
  left h := h.1
  right h := h.2.1
  binary ha hb hz := ⟨ha,hb,hz⟩

theorem hereditary_lettered : Hereditary Lettered where
  const := lettered_const
  neg := Iff.rfl
  ln := Iff.rfl
  left := Lettered.left
  right := Lettered.right
  binary ha hb _ := lettered_binary ha hb

namespace Hereditary

variable {P : Expr → Prop} {op : BinaryOp} {a b d : Expr}

theorem combine (hP : Hereditary P) (ha : P a) (hb : P b) (h : Expr.combine op a b = .ok d) :
    P d := by
  obtain ⟨rfl,hz⟩ := combine_eq_ok h
  exact hP.binary ha hb hz

theorem binary_of_ne_divide (hP : Hereditary P) (ho : op ≠ .divide) (ha : P a) (hb : P b) :
    P (.binary op a b) :=
  hP.binary ha hb fun h => ho h.1

/-- A derivative is built from the operands, their derivatives and constants. -/
theorem derivative (hP : Hereditary P) (h : P a) (hd : a.derivative = .ok d) : P d := by
  induction a generalizing d with
  | const v =>
    cases hd
    exact hP.const 0
  | var name =>
    cases hd
    exact hP.const 1
  | neg a ih =>
    obtain ⟨da,ha,hd⟩ := bind_eq_ok hd
    cases hd
    exact hP.neg.mpr (ih (hP.neg.mp h) ha)
  | ln a ih =>
    obtain ⟨da,ha,hd⟩ := bind_eq_ok hd
    exact hP.combine (ih (hP.ln.mp h) ha) (hP.ln.mp h) hd
  | binary op a b iha ihb =>
    have plus : ∀ {a b : Expr}, P a → P b → P (a + b) := hP.binary_of_ne_divide (by decide)
    have minus : ∀ {a b : Expr}, P a → P b → P (a - b) := hP.binary_of_ne_divide (by decide)
    have times : ∀ {a b : Expr}, P a → P b → P (a * b) := hP.binary_of_ne_divide (by decide)
    have power : ∀ {a b : Expr}, P a → P b → P (a ^ b) := hP.binary_of_ne_divide (by decide)
    have hl := hP.left h
    have hr := hP.right h
    cases op with
    | power =>
      obtain ⟨da,ha,hd⟩ := bind_eq_ok hd
      cases hd
      exact times (times hr (power hl (minus hr (hP.const 1)))) (iha hl ha)
    | plus =>
      obtain ⟨da,ha,hd⟩ := bind_eq_ok hd
      obtain ⟨db,hb,hd⟩ := bind_eq_ok hd
      cases hd
      exact plus (iha hl ha) (ihb hr hb)
    | minus =>
      obtain ⟨da,ha,hd⟩ := bind_eq_ok hd
      obtain ⟨db,hb,hd⟩ := bind_eq_ok hd
      cases hd
      exact minus (iha hl ha) (ihb hr hb)
    | times =>
      obtain ⟨da,ha,hd⟩ := bind_eq_ok hd
      obtain ⟨db,hb,hd⟩ := bind_eq_ok hd
      cases hd
      exact plus (times (iha hl ha) hr) (times hl (ihb hr hb))
    | divide =>
      obtain ⟨da,ha,hd⟩ := bind_eq_ok hd
      obtain ⟨db,hb,hd⟩ := bind_eq_ok hd
      exact hP.combine (minus (times (iha hl ha) hr) (times hl (ihb hr hb)))
        (power hr (hP.const 2)) hd

end Hereditary

/-- What can be printed and read again: it can be built, and its names are runs of letters. -/
structure Writable (e : Expr) : Prop where
  proper : e.Proper
  lettered : e.Lettered

namespace Writable

variable {a b d : Expr} {op : BinaryOp}

theorem const (v : Int64) : (Expr.const v).Writable := ⟨trivial,lettered_const v⟩

theorem neg (h : a.Writable) : (Expr.neg a).Writable := ⟨h.proper,h.lettered⟩

theorem ln (h : a.Writable) : (Expr.ln a).Writable := ⟨h.proper,h.lettered⟩

theorem left (h : (Expr.binary op a b).Writable) : a.Writable := ⟨h.proper.1,h.lettered.left⟩

theorem right (h : (Expr.binary op a b).Writable) : b.Writable := ⟨h.proper.2.1,h.lettered.right⟩

theorem combine (ha : a.Writable) (hb : b.Writable) (h : Expr.combine op a b = .ok d) :
    d.Writable := by
  obtain ⟨rfl,hz⟩ := combine_eq_ok h
  exact ⟨⟨ha.proper,hb.proper,hz⟩,lettered_binary ha.lettered hb.lettered⟩

theorem join? {x y : Option Expr} (hx : ∀ e ∈ x, e.Writable) (hy : ∀ e ∈ y, e.Writable) :
    ∀ e ∈ Expr.join? op x y, e.Writable := by
  intro e he
  obtain ⟨a,rfl,hb⟩ := Option.bind_eq_some_iff.mp he
  obtain ⟨b,rfl,hc⟩ := Option.bind_eq_some_iff.mp hb
  cases h : Expr.combine op a b with
  | error error => rw [h] at hc; cases hc
  | ok d =>
    rw [h] at hc
    cases hc
    exact (hx a rfl).combine (hy b rfl) h

theorem map {x : Option Expr} {f : Expr → Expr} (hf : ∀ {a : Expr}, a.Writable → (f a).Writable)
    (hx : ∀ e ∈ x, e.Writable) : ∀ e ∈ x.map f, e.Writable := by
  intro e he
  obtain ⟨a,ha,rfl⟩ := Option.map_eq_some_iff.mp he
  exact hf (hx a ha)

theorem derivative (h : a.Writable) (hd : a.derivative = .ok d) : d.Writable :=
  ⟨hereditary_proper.derivative h.proper hd,hereditary_lettered.derivative h.lettered hd⟩

theorem nthDerivative {n : Nat} (h : a.Writable) (hd : a.nthDerivative n = .ok d) :
    d.Writable := by
  induction n generalizing a with
  | zero =>
    cases hd
    exact h
  | succ n ih =>
    obtain ⟨b,hb,hd⟩ := bind_eq_ok hd
    exact ih (h.derivative hb) hd

end Writable
end Expr

namespace Formula

theorem writable_assembled? (a : Fragment) : ∀ e ∈ a.assembled?, e.Writable := by
  induction a using Fragment.shape_induction with
  | logarithm a inner h ih =>
    rw [Fragment.assembled?_of_logarithm h]
    exact Expr.Writable.map Expr.Writable.ln (ih _ (by simp))
  | group a inner h ih =>
    rw [Fragment.assembled?_of_group h]
    exact ih _ (by simp)
  | integer a negative digits h =>
    rw [Fragment.assembled?_of_integer h]
    intro e he
    obtain ⟨v,-,rfl⟩ := Option.map_eq_some_iff.mp he
    exact .const v
  | name a letters h =>
    rw [Fragment.assembled?_of_name h]
    intro e he
    cases he
    have hf := a.formed_shape
    rw [h] at hf
    cases hf with
    | @name cs hn hc =>
      refine ⟨trivial,fun name hm => ?_⟩
      rw [Fragment.source_map_char] at hm
      cases List.mem_singleton.mp hm
      exact ⟨by simpa using hn,by simpa using hc⟩
  | reference a i content h ih =>
    rw [Fragment.assembled?_of_reference h]
    exact ih
  | negation a operand h ih =>
    rw [Fragment.assembled?_of_negation h]
    exact Expr.Writable.map Expr.Writable.neg ih
  | operation a op left right h ihl ihr =>
    rw [Fragment.assembled?_of_operation h]
    exact Expr.Writable.join? ihl ihr
  | juxtaposition a left right h ihl ihr =>
    rw [Fragment.assembled?_of_juxtaposition h]
    exact Expr.Writable.join? ihl ihr
  | unknown a u h =>
    rw [Fragment.assembled?_of_unknown h]
    intro e he
    cases he

/-- What is read from a formula can be written as one. -/
theorem writable_of_parse {s : String} {e : Expr} (h : parse s = .ok e) : e.Writable :=
  writable_assembled? _ e (parse_eq_ok_iff.mp h).2

end Formula
end Fluxion
