import Fluxion.Expr.Construction
import Mathlib.Data.List.Basic

/-! Layers and kinds. A layer that is no leaf is told by its kind and its operands, and there is
one for every kind over as many operands as it takes. So an expression is built of a kind as it
is built of a layer. Of the reasons to refuse one only the first is named: a leaf has no operands,
then their number is looked at, and a divisor only at the end. -/
namespace Fluxion

namespace Node

variable {α : Type} {kind : Kind} {operands : List α} {m n : Node α}

theorem eq_of_kind_of_operands (hn : 1 ≤ n.kind.arity) (hk : m.kind = n.kind)
    (ho : m.operands = n.operands) : m = n := by
  cases n with
  | const v | var name => exact (Nat.not_succ_le_zero 0 hn).elim
  | neg a | ln a | binary op a b =>
    cases m <;> cases hk
    cases ho
    rfl

theorem exists_of_kind (hk : 1 ≤ kind.arity) (hl : operands.length = kind.arity) :
    ∃ n : Node α, n.kind = kind ∧ n.operands = operands := by
  cases kind with
  | const | var => exact (Nat.not_succ_le_zero 0 hk).elim
  | neg =>
    obtain ⟨a,rfl⟩ := List.length_eq_one_iff.mp hl
    exact ⟨.neg a,rfl,rfl⟩
  | ln =>
    obtain ⟨a,rfl⟩ := List.length_eq_one_iff.mp hl
    exact ⟨.ln a,rfl,rfl⟩
  | binary op =>
    obtain ⟨a,b,rfl⟩ := List.length_eq_two.mp hl
    exact ⟨.binary op a b,rfl,rfl⟩

end Node

namespace Expr

variable {kind : Kind} {operands : List Expr} {n : Node Expr} {a b d e : Expr}
  {error : ConstructionError}

theorem node_injective (h : a.node = b.node) : a = b := by
  cases a <;> cases b <;> cases h <;> rfl

theorem eq_of_kind_of_operands (he : 1 ≤ e.kind.arity) (hk : d.kind = e.kind)
    (ho : d.operands = e.operands) : d = e :=
  node_injective (Node.eq_of_kind_of_operands he hk ho)

/-- A proof about expressions by their layers, whatever the kinds of these. -/
@[elab_as_elim]
theorem layer_induction {motive : Expr → Prop}
    (layer : ∀ e, (∀ a ∈ e.operands, motive a) → motive e) (e : Expr) : motive e := by
  induction e with
  | const v | var name => exact layer _ (List.forall_mem_nil _)
  | neg a ih | ln a ih => exact layer _ (List.forall_mem_singleton.mpr ih)
  | binary op a b iha ihb =>
    exact layer _ (List.forall_mem_cons.mpr ⟨iha,List.forall_mem_singleton.mpr ihb⟩)

/-- Of a division the second operand is the constant zero, whatever else it has. -/
def ZeroDivisor (kind : Kind) (operands : List Expr) : Prop :=
  kind = .binary .divide ∧ operands[1]? = some (.const 0)

/-- A layer is refused for a divisor and for nothing else. -/
theorem ofNode_cases (n : Node Expr) :
    ZeroDivisor n.kind n.operands ∧ ofNode n = .error .divideByZero ∨
      ¬ZeroDivisor n.kind n.operands ∧ ∃ e, ofNode n = .ok e := by
  cases n with
  | const v | var name | neg a | ln a =>
    refine .inr ⟨?_,_,rfl⟩
    rintro ⟨⟨⟩,-⟩
  | binary op a b =>
    have hz : ZeroDivisor (.binary op) [a, b] ↔ op = .divide ∧ b = .const 0 := by
      simp [ZeroDivisor]
    by_cases h : op = .divide ∧ b = .const 0
    · exact .inl ⟨hz.mpr h,if_pos h⟩
    · exact .inr ⟨mt hz.mp h,_,if_neg h⟩

theorem ofNode_node (hz : ¬ZeroDivisor e.kind e.operands) : ofNode e.node = .ok e := by
  rcases ofNode_cases e.node with ⟨h,-⟩ | ⟨-,d,h⟩
  · exact (hz h).elim
  · rw [h,node_injective (node_of_ofNode h)]

/-- Why there is nothing of a kind over some operands. That the kind is a leaf counts before the
number of the operands, and the number counts before what the operands are. -/
inductive Refused (kind : Kind) (operands : List Expr) : ConstructionError → Prop
  | notCompound (hk : kind.arity = 0) : Refused kind operands (.notCompound kind)
  | wrongArity (hk : 1 ≤ kind.arity) (hl : operands.length ≠ kind.arity) :
    Refused kind operands (.wrongArity kind operands.length)
  | divideByZero (hk : 1 ≤ kind.arity) (hl : operands.length = kind.arity)
    (hz : ZeroDivisor kind operands) : Refused kind operands .divideByZero

theorem ofKind_of_leaf (hk : kind.arity = 0) (operands : List Expr) :
    ofKind kind operands = .error (.notCompound kind) := by
  cases kind with
  | const | var => rfl
  | neg | ln | binary op => cases hk

theorem ofKind_of_length_ne (hk : 1 ≤ kind.arity) (hl : operands.length ≠ kind.arity) :
    ofKind kind operands = .error (.wrongArity kind operands.length) := by
  unfold ofKind
  split
  · exact (Nat.not_succ_le_zero 0 hk).elim
  · exact (Nat.not_succ_le_zero 0 hk).elim
  · exact (hl rfl).elim
  · exact (hl rfl).elim
  · exact (hl rfl).elim
  · rfl

theorem ofKind_of_node (hn : 1 ≤ n.kind.arity) : ofKind n.kind n.operands = ofNode n := by
  cases n with
  | const v | var name => exact (Nat.not_succ_le_zero 0 hn).elim
  | neg a | ln a | binary op a b => rfl

theorem ofKind_of_fit (hk : 1 ≤ kind.arity) (hl : operands.length = kind.arity) :
    ZeroDivisor kind operands ∧ ofKind kind operands = .error .divideByZero ∨
      ¬ZeroDivisor kind operands ∧
        ∃ e : Expr, e.kind = kind ∧ e.operands = operands ∧ ofKind kind operands = .ok e := by
  obtain ⟨n,rfl,rfl⟩ := Node.exists_of_kind hk hl
  rw [ofKind_of_node hk]
  rcases ofNode_cases n with h | ⟨hz,e,h⟩
  · exact .inl h
  · obtain rfl := node_of_ofNode h
    exact .inr ⟨hz,e,rfl,rfl,h⟩

theorem ofKind_operands (hk : 1 ≤ e.kind.arity) (hz : ¬ZeroDivisor e.kind e.operands) :
    ofKind e.kind e.operands = .ok e :=
  (ofKind_of_node hk).trans (ofNode_node hz)

theorem Refused.ofKind_eq (h : Refused kind operands error) :
    ofKind kind operands = .error error := by
  cases h with
  | notCompound hk => exact ofKind_of_leaf hk operands
  | wrongArity hk hl => exact ofKind_of_length_ne hk hl
  | divideByZero hk hl hz =>
    rcases ofKind_of_fit hk hl with ⟨-,h⟩ | ⟨h,-⟩
    · exact h
    · exact (h hz).elim

theorem refused_or_ofKind (kind : Kind) (operands : List Expr) :
    (∃ error, Refused kind operands error) ∨
      ∃ e : Expr, ofKind kind operands = .ok e ∧ 1 ≤ kind.arity ∧ operands.length = kind.arity ∧
        ¬ZeroDivisor kind operands ∧ e.kind = kind ∧ e.operands = operands := by
  rcases Nat.eq_zero_or_pos kind.arity with hk | hk
  · exact .inl ⟨_,.notCompound hk⟩
  by_cases hl : operands.length = kind.arity
  · rcases ofKind_of_fit hk hl with ⟨hz,-⟩ | ⟨hz,e,hkind,hoperands,he⟩
    · exact .inl ⟨_,.divideByZero hk hl hz⟩
    · exact .inr ⟨e,he,hk,hl,hz,hkind,hoperands⟩
  · exact .inl ⟨_,.wrongArity hk hl⟩

theorem ofKind_eq_ok_iff :
    ofKind kind operands = .ok e ↔
      1 ≤ kind.arity ∧ operands.length = kind.arity ∧ ¬ZeroDivisor kind operands ∧
        e.kind = kind ∧ e.operands = operands := by
  constructor
  · intro h
    rcases refused_or_ofKind kind operands with ⟨error,hr⟩ | ⟨d,hd,h'⟩
    · rw [hr.ofKind_eq] at h
      cases h
    · rw [hd] at h
      cases h
      exact h'
  · rintro ⟨hk,-,hz,rfl,rfl⟩
    exact ofKind_operands hk hz

theorem ofKind_eq_error_iff :
    ofKind kind operands = .error error ↔ Refused kind operands error := by
  refine ⟨fun h => ?_,Refused.ofKind_eq⟩
  rcases refused_or_ofKind kind operands with ⟨error',hr⟩ | ⟨e,he,-⟩
  · rw [hr.ofKind_eq] at h
    cases h
    exact hr
  · rw [he] at h
    cases h

/-- This divides by zero and has an operand too many. -/
example : ofKind (.binary .divide) [.var "x", .const 0, .var "y"] =
    .error (.wrongArity (.binary .divide) 3) := rfl

end Expr
end Fluxion
