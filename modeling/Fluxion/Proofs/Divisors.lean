import Fluxion.Proofs.Existence
import Fluxion.Proofs.Built
import Fluxion.Workbench
import Mathlib

/-! Divisors. The checks look at the outermost layer only, and only where a division is made.
Still no expression that comes up in a course of operations has a constant zero as a divisor,
wherever in it one looks: each operation keeps this, reading and differentiating included. -/
namespace Fluxion.Expr

/-- What one operation makes when some expressions are there already. -/
inductive Made (es : List Expr) : Expr → Prop
  | const (v : Int64) : Made es (.const v)
  | var (name : String) : Made es (.var name)
  | neg {a : Expr} (ha : a ∈ es) : Made es (-a)
  | ln {a : Expr} (ha : a ∈ es) : Made es (.ln a)
  | add {a b : Expr} (ha : a ∈ es) (hb : b ∈ es) : Made es (a + b)
  | sub {a b : Expr} (ha : a ∈ es) (hb : b ∈ es) : Made es (a - b)
  | mul {a b : Expr} (ha : a ∈ es) (hb : b ∈ es) : Made es (a * b)
  | pow {a b : Expr} (ha : a ∈ es) (hb : b ∈ es) : Made es (a ^ b)
  | combine {op : BinaryOp} {a b e : Expr} (ha : a ∈ es) (hb : b ∈ es)
    (he : Expr.combine op a b = .ok e) : Made es e
  | divide {a b e : Expr} (ha : a ∈ es) (hb : b ∈ es) (he : Expr.divide a b = .ok e) : Made es e
  | ofNode {n : Node Expr} {e : Expr}
    (hn : ∀ a ∈ n.operands, a ∈ es ∨ ∃ b ∈ es, a ∈ b.operands)
    (he : Expr.ofNode n = .ok e) : Made es e
  | ofKind {kind : Kind} {operands : List Expr} {e : Expr} (ho : ∀ a ∈ operands, a ∈ es)
    (he : Expr.ofKind kind operands = .ok e) : Made es e
  | parse {formula : String} {e : Expr} (he : Formula.parse formula = .ok e) : Made es e
  | derivative {a e : Expr} (ha : a ∈ es) (he : a.derivative = .ok e) : Made es e
  | operand {a e : Expr} (ha : a ∈ es) (he : e ∈ a.operands) : Made es e

/-- The expressions that a course of operations makes from nothing, the first one first. -/
inductive Course : List Expr → Prop
  | nil : Course []
  | next {es : List Expr} {e : Expr} (h : Course es) (he : Made es e) : Course (es ++ [e])

section Proper

variable {es : List Expr} {a e : Expr}

theorem proper_iff_not_under :
    e.Proper ↔ ∀ (a : Expr) (depth : Nat), ¬Under (.binary .divide a (.const 0)) depth e := by
  constructor
  · intro h a depth hu
    induction hu with
    | here => exact h.2.2 ⟨rfl,rfl⟩
    | neg hu ih | ln hu ih => exact ih h
    | left op hu b ih => exact ih h.1
    | right hop a hu ih => exact ih h.2.1
    | exponent a hu ih => exact ih h.2.1
  · intro h
    induction e with
    | const v => trivial
    | var name => trivial
    | neg b ih => exact ih fun a depth hu => h a depth hu.neg
    | ln b ih => exact ih fun a depth hu => h a depth hu.ln
    | binary op b c ihb ihc =>
      refine ⟨ihb fun a depth hu => h a depth (.left op hu c),ihc fun a depth hu => ?_,?_⟩
      · by_cases hop : op = .power
        · subst hop
          exact h a (depth + 1) (.exponent b hu)
        · exact h a depth (.right hop b hu)
      · rintro ⟨rfl,rfl⟩
        exact h b 0 .here

theorem proper_operand (h : a.Proper) (he : e ∈ a.operands) : e.Proper := by
  cases a with
  | const v => cases he
  | var name => cases he
  | neg b =>
    cases List.mem_singleton.mp he
    exact h
  | ln b =>
    cases List.mem_singleton.mp he
    exact h
  | binary op b c =>
    rcases List.mem_cons.mp he with rfl | he
    · exact h.1
    · cases List.mem_singleton.mp he
      exact h.2.1

theorem Made.proper (h : Made es e) (hes : ∀ a ∈ es, a.Proper) : e.Proper := by
  cases h with
  | const v => trivial
  | var name => trivial
  | @neg a ha | @ln a ha => exact hes a ha
  | add ha hb | sub ha hb | mul ha hb | pow ha hb =>
    exact proper_binary (by decide) (hes _ ha) (hes _ hb)
  | combine ha hb he => exact proper_combine (hes _ ha) (hes _ hb) he
  | divide ha hb he => exact proper_combine (hes _ ha) (hes _ hb) he
  | ofNode hn he =>
    refine proper_ofNode (fun a ha => ?_) he
    rcases hn a ha with ha | ⟨b,hb,ha⟩
    · exact hes a ha
    · exact proper_operand (hes b hb) ha
  | ofKind ho he => exact proper_ofKind (fun a ha => hes a (ho a ha)) he
  | parse he => exact (Formula.writable_of_parse he).proper
  | derivative ha he => exact hereditary_proper.derivative (hes _ ha) he
  | operand ha he => exact proper_operand (hes _ ha) he

theorem Course.proper (h : Course es) : ∀ e ∈ es, e.Proper := by
  induction h with
  | nil => exact List.forall_mem_nil _
  | next h he ih =>
    intro e hm
    rcases List.mem_append.mp hm with hm | hm
    · exact ih e hm
    · rw [List.mem_singleton.mp hm]
      exact he.proper ih

end Proper

end Fluxion.Expr

namespace Fluxion.Workbench

open Fluxion.Expr (Made Course)

/-- The expressions on a workbench. -/
def Slots.held (slots : Slots) : List Expr := slots.filterMap id

variable {slots : Slots} {e : Expr}

theorem mem_held_of_fetch {a : Nat} (h : fetch slots a = .ok e) : e ∈ slots.held := by
  unfold fetch at h
  split at h
  · rename_i d hd
    obtain rfl := Except.ok.inj h
    exact List.mem_filterMap.mpr ⟨some _,List.mem_of_getElem? hd,rfl⟩
  · cases h

theorem mem_held_of_mapM {args : List Nat} {operands : List Expr}
    (h : args.mapM (fetch slots) = .ok operands) : ∀ d ∈ operands, d ∈ slots.held := by
  induction args generalizing operands with
  | nil =>
    cases h
    exact List.forall_mem_nil _
  | cons a args ih =>
    rw [List.mapM_cons] at h
    obtain ⟨d,hd,h⟩ := bind_eq_ok h
    obtain ⟨ds,hds,h⟩ := bind_eq_ok h
    cases h
    exact List.forall_mem_cons.mpr ⟨mem_held_of_fetch hd,ih hds⟩

theorem fetch_bind_eq_ok {α : Type} {a : Nat} {f : Expr → Except Failure α} {x : α}
    (h : fetch slots a >>= f = .ok x) : ∃ d ∈ slots.held, f d = .ok x := by
  obtain ⟨d,hd,h⟩ := bind_eq_ok h
  exact ⟨d,mem_held_of_fetch hd,h⟩

theorem fetch_pair_eq_ok {α : Type} {a b : Nat} {f : Expr → Expr → Except Failure α} {x : α}
    (h : (fetch slots a >>= fun l => fetch slots b >>= f l) = .ok x) :
    ∃ l ∈ slots.held, ∃ r ∈ slots.held, f l r = .ok x := by
  obtain ⟨l,hl,h⟩ := fetch_bind_eq_ok h
  exact ⟨l,hl,fetch_bind_eq_ok h⟩

theorem mapError_bind_eq_ok {ε : Type} {x : Except ε Expr} {f : ε → Failure}
    (h : (x.mapError f >>= fun d => pure (Answer.expr d)) = .ok (.expr e)) : x = .ok e := by
  cases x with
  | error error => cases h
  | ok d =>
    cases h
    rfl

/-- The expression that a step makes is made of what is on the workbench. -/
theorem made_of_perform {step : Step} (h : perform slots step = .ok (.expr e)) : Made slots.held e := by
  cases step with
  | const v =>
    cases h
    exact .const v
  | var name =>
    cases h
    exact .var name
  | neg a =>
    obtain ⟨d,hd,h⟩ := fetch_bind_eq_ok h
    cases h
    exact .neg hd
  | ln a =>
    obtain ⟨d,hd,h⟩ := fetch_bind_eq_ok h
    cases h
    exact .ln hd
  | add a b =>
    obtain ⟨l,hl,r,hr,h⟩ := fetch_pair_eq_ok h
    cases h
    exact .add hl hr
  | sub a b =>
    obtain ⟨l,hl,r,hr,h⟩ := fetch_pair_eq_ok h
    cases h
    exact .sub hl hr
  | mul a b =>
    obtain ⟨l,hl,r,hr,h⟩ := fetch_pair_eq_ok h
    cases h
    exact .mul hl hr
  | pow a b =>
    obtain ⟨l,hl,r,hr,h⟩ := fetch_pair_eq_ok h
    cases h
    exact .pow hl hr
  | divide a b =>
    obtain ⟨l,hl,r,hr,h⟩ := fetch_pair_eq_ok h
    exact .divide hl hr (mapError_bind_eq_ok h)
  | binary op a b =>
    obtain ⟨l,hl,r,hr,h⟩ := fetch_pair_eq_ok h
    exact .combine hl hr (mapError_bind_eq_ok h)
  | rebuild a =>
    obtain ⟨d,hd,h⟩ := fetch_bind_eq_ok h
    exact .ofNode (fun c hc => .inr ⟨d,hd,hc⟩) (mapError_bind_eq_ok h)
  | ofKind kind args =>
    obtain ⟨operands,ho,h⟩ := bind_eq_ok h
    exact .ofKind (mem_held_of_mapM ho) (mapError_bind_eq_ok h)
  | parse formula => exact .parse (mapError_bind_eq_ok h)
  | derivative a =>
    obtain ⟨d,hd,h⟩ := fetch_bind_eq_ok h
    exact .derivative hd (mapError_bind_eq_ok h)
  | child a index =>
    obtain ⟨d,hd,h⟩ := fetch_bind_eq_ok h
    split at h
    · rename_i c hc
      cases h
      exact .operand hd (List.mem_of_getElem? hc)
    · cases h
  | evaluate a x =>
    obtain ⟨d,-,h⟩ := fetch_bind_eq_ok h
    cases h
  | same a b | compare a b settings =>
    obtain ⟨l,-,r,-,h⟩ := fetch_pair_eq_ok h
    cases h

theorem held_append (slots : Slots) (slot : Option Expr) :
    Slots.held (slots ++ [slot]) = slots.held ++ slot.toList := by
  cases slot <;> simp [Slots.held]

theorem course_step (h : Course slots.held) (step : Step) :
    Course (Slots.held (slots ++ [(answer slots step).expr?])) := by
  rw [held_append]
  cases hp : perform slots step with
  | error f =>
    simp only [Workbench.answer,hp,Answer.ofExcept,Answer.expr?,Option.toList_none,List.append_nil]
    exact h
  | ok a =>
    simp only [Workbench.answer,hp,Answer.ofExcept]
    cases a with
    | expr e => exact h.next (made_of_perform hp)
    | same _ | value _ | comparison _ | failure _ =>
      simp only [Answer.expr?,Option.toList_none,List.append_nil]
      exact h

theorem course_runFrom (h : Course slots.held) (steps : List Step) :
    Course (runFrom slots steps).2.held := by
  induction steps generalizing slots with
  | nil => exact h
  | cons step steps ih => exact ih (course_step h step)

end Fluxion.Workbench

namespace Fluxion.Expr

/-- In a course of operations from nothing, on a workbench in particular, no expression has
anywhere in it a division by a constant zero. -/
theorem no_division_by_zero :
    (∀ es, Course es → ∀ e ∈ es, ∀ (a : Expr) (depth : Nat),
      ¬Under (.binary .divide a (.const 0)) depth e) ∧
    ∀ (steps : List Workbench.Step) (e : Expr), some e ∈ (Workbench.runFrom [] steps).2 →
      ∀ (a : Expr) (depth : Nat), ¬Under (.binary .divide a (.const 0)) depth e := by
  refine ⟨fun es h e he => proper_iff_not_under.mp (h.proper e he),fun steps e he => ?_⟩
  have empty : Course (Workbench.Slots.held []) := .nil
  have h := Workbench.course_runFrom empty steps
  exact proper_iff_not_under.mp (h.proper e (List.mem_filterMap.mpr ⟨some e,he,rfl⟩))

/-- The derivative of a quotient with a logarithm in it has two divisors. A division by the
constant zero that was made before is refused. -/
theorem no_division_by_zero_quotient :
    Course [.binary .divide (.ln (.var "x")) (.var "y"),
        .binary .divide (.binary .minus (.binary .times (.binary .divide (.const 1) (.var "x"))
          (.var "y")) (.binary .times (.ln (.var "x")) (.const 1)))
          (.binary .power (.var "y") (.const 2))] ∧
      Workbench.perform [some (.var "x"), some (.const 0)] (.divide 0 1) =
        .error (.construction .divideByZero) ∧
      ∀ (a : Expr) (depth : Nat), ¬Under (.binary .divide a (.const 0)) depth
        (.binary .divide (.binary .minus (.binary .times (.binary .divide (.const 1) (.var "x"))
          (.var "y")) (.binary .times (.ln (.var "x")) (.const 1)))
          (.binary .power (.var "y") (.const 2))) := by
  have hp : Formula.parse "ln(x)/y" = .ok (.binary .divide (.ln (.var "x")) (.var "y")) := by cbv
  have h := (Course.nil.next (.parse hp)).next (.derivative (List.mem_singleton_self _) rfl)
  exact ⟨h,rfl,no_division_by_zero.1 _ h _ (List.mem_append_right _ (List.mem_singleton_self _))⟩

end Fluxion.Expr
