import Fluxion.Proofs.Divisors
import Fluxion.Proofs.Layers
import Mathlib

/-! Taking expressions apart and building them again, from the leaves up, in one function or by
steps on a workbench. What can come up in a course of operations is just what is rebuilt, and it
is rebuilt as it was: no layer in it has a divisor that is refused. -/
namespace Fluxion.Expr

variable {d e : Expr}

theorem proper_iff_layer :
    e.Proper ↔ (∀ a ∈ e.operands, a.Proper) ∧ ¬ZeroDivisor e.kind e.operands := by
  constructor
  · intro h
    refine ⟨fun a ha => proper_operand h ha,?_⟩
    rintro ⟨hk,ho⟩
    cases e <;> cases hk
    cases ho
    exact h.2.2 ⟨rfl,rfl⟩
  · rintro ⟨ha,hz⟩
    exact proper_ofNode ha (ofNode_node hz)

theorem Proper.ofKind_operands (h : e.Proper) (hk : 1 ≤ e.kind.arity) :
    ofKind e.kind e.operands = .ok e :=
  Expr.ofKind_operands hk (proper_iff_layer.mp h).2

/-- An expression built again from its leaves, every other layer by its kind. -/
def rebuild : Expr → Except ConstructionError Expr
  | const v => .ok (const v)
  | var name => .ok (var name)
  | neg a => do
    let a' ← a.rebuild
    ofKind (neg a).kind [a']
  | binary op a b => do
    let a' ← a.rebuild
    let b' ← b.rebuild
    ofKind (binary op a b).kind [a', b']
  | ln a => do
    let a' ← a.rebuild
    ofKind (ln a).kind [a']

theorem rebuild_of_leaf (h : e.kind.arity = 0) : e.rebuild = .ok e := by
  cases e with
  | const v | var name => rfl
  | neg a | ln a | binary op a b => cases h

theorem rebuild_of_compound (h : 1 ≤ e.kind.arity) :
    e.rebuild = e.operands.mapM rebuild >>= ofKind e.kind := by
  cases e with
  | const v | var name => exact (Nat.not_succ_le_zero 0 h).elim
  | neg a | ln a | binary op a b =>
    simp [rebuild,operands,node,Node.operands,List.mapM_cons]

theorem mapM_rebuild_eq_ok_iff {es ds : List Expr}
    (h : ∀ a ∈ es, ∀ d : Expr, a.rebuild = .ok d ↔ d = a ∧ a.Proper) :
    es.mapM rebuild = .ok ds ↔ ds = es ∧ ∀ a ∈ es, a.Proper := by
  induction es generalizing ds with
  | nil => simp [pure,Except.pure,eq_comm]
  | cons a es ih =>
    obtain ⟨ha,hes⟩ := List.forall_mem_cons.mp h
    rw [List.mapM_cons]
    constructor
    · intro hm
      obtain ⟨d,hd,hm⟩ := bind_eq_ok hm
      obtain ⟨ds,hds,hm⟩ := bind_eq_ok hm
      cases hm
      obtain ⟨rfl,ha⟩ := (ha d).mp hd
      obtain ⟨rfl,hes⟩ := (ih hes).mp hds
      exact ⟨rfl,List.forall_mem_cons.mpr ⟨ha,hes⟩⟩
    · rintro ⟨rfl,hp⟩
      obtain ⟨hpa,hpes⟩ := List.forall_mem_cons.mp hp
      rw [(ha a).mpr ⟨rfl,hpa⟩,(ih hes).mpr ⟨rfl,hpes⟩]
      rfl

/-- What is rebuilt is what was there, and only a divisor can keep it from that. -/
theorem rebuild_eq_ok_iff : e.rebuild = .ok d ↔ d = e ∧ e.Proper := by
  induction e using layer_induction generalizing d with
  | layer e ih =>
    rw [proper_iff_layer]
    rcases Nat.eq_zero_or_pos e.kind.arity with hk | hk
    · have ho : e.operands = [] := List.length_eq_zero_iff.mp ((Node.length_operands _).trans hk)
      have hz : ¬ZeroDivisor e.kind [] := by
        rintro ⟨-,⟨⟩⟩
      rw [rebuild_of_leaf hk,ho,Except.ok.injEq,eq_comm]
      exact (and_iff_left ⟨List.forall_mem_nil _,hz⟩).symm
    · rw [rebuild_of_compound hk]
      have operands : ∀ {ds}, e.operands.mapM rebuild = .ok ds ↔
          ds = e.operands ∧ ∀ a ∈ e.operands, a.Proper :=
        mapM_rebuild_eq_ok_iff fun a ha d => ih a ha
      constructor
      · intro h
        obtain ⟨ds,hds,h⟩ := bind_eq_ok h
        obtain ⟨rfl,hp⟩ := operands.mp hds
        obtain ⟨-,-,hz,hkind,hoperands⟩ := ofKind_eq_ok_iff.mp h
        exact ⟨eq_of_kind_of_operands hk hkind hoperands,hp,hz⟩
      · rintro ⟨rfl,hp,hz⟩
        rw [operands.mpr ⟨rfl,hp⟩]
        exact ofKind_operands hk hz

/-- All parts of an expression, the operands of every layer before what is made of them. -/
def postorder : Expr → List Expr
  | const v => [const v]
  | var name => [var name]
  | neg a => a.postorder ++ [neg a]
  | binary op a b => a.postorder ++ b.postorder ++ [binary op a b]
  | ln a => a.postorder ++ [ln a]

theorem exists_postorder (e : Expr) : ∃ front, e.postorder = front ++ [e] := by
  cases e with
  | const v | var name => exact ⟨[],rfl⟩
  | neg a | ln a => exact ⟨a.postorder,rfl⟩
  | binary op a b => exact ⟨a.postorder ++ b.postorder,rfl⟩

end Fluxion.Expr

namespace Fluxion.Workbench

variable {slots : Slots} {e : Expr}

/-- The slot of an expression whose parts fill the slots from a first one on. -/
def slotOf (first : Nat) (e : Expr) : Nat := first + e.postorder.length - 1

/-- The steps that rebuild an expression, when the next slot to be filled is the given one. -/
def assembly (next : Nat) : Expr → List Step
  | .const v => [.const v]
  | .var name => [.var name]
  | .neg a => assembly next a ++ [.ofKind (Expr.neg a).kind [slotOf next a]]
  | .binary op a b =>
    let next' := next + a.postorder.length
    assembly next a ++ assembly next' b ++
      [.ofKind (Expr.binary op a b).kind [slotOf next a, slotOf next' b]]
  | .ln a => assembly next a ++ [.ofKind (Expr.ln a).kind [slotOf next a]]

theorem runFrom_append (slots : Slots) (steps more : List Step) :
    runFrom slots (steps ++ more) =
      ((runFrom slots steps).1 ++ (runFrom (runFrom slots steps).2 more).1,
        (runFrom (runFrom slots steps).2 more).2) := by
  induction steps generalizing slots with
  | nil => rfl
  | cons step steps ih => simp only [List.cons_append,runFrom,ih]

theorem fetch_slotOf (slots more : Slots) (e : Expr) :
    fetch (slots ++ e.postorder.map some ++ more) (slotOf slots.length e) = .ok e := by
  obtain ⟨front,hf⟩ := e.exists_postorder
  have hs : (slots ++ e.postorder.map some ++ more)[slotOf slots.length e]? = some (some e) := by
    simp [slotOf,hf]
  rw [fetch,hs]

theorem runFrom_layer {made : List Expr} {steps : List Step} {args : List Nat}
    (hs : runFrom slots steps = (made.map .expr, slots ++ made.map some))
    (ho : args.mapM (fetch (slots ++ made.map some)) = .ok e.operands)
    (he : Expr.ofKind e.kind e.operands = .ok e) :
    runFrom slots (steps ++ [.ofKind e.kind args]) =
      ((made ++ [e]).map .expr, slots ++ (made ++ [e]).map some) := by
  have hp : perform (slots ++ made.map some) (.ofKind e.kind args) = .ok (.expr e) := by
    rw [perform,ho]
    change ((Expr.ofKind e.kind e.operands).mapError Failure.construction >>= _) = _
    rw [he]
    rfl
  rw [runFrom_append,hs]
  simp [runFrom,Workbench.answer,hp,Answer.ofExcept,Answer.expr?]

theorem runFrom_assembly (h : e.Proper) (slots : Slots) :
    runFrom slots (assembly slots.length e) =
      (e.postorder.map .expr, slots ++ e.postorder.map some) := by
  induction e generalizing slots with
  | const v | var name => rfl
  | neg a ih | ln a ih =>
    have ha := fetch_slotOf slots [] a
    rw [List.append_nil] at ha
    refine runFrom_layer (ih h slots) ?_ (h.ofKind_operands le_rfl)
    rw [List.mapM_cons,ha]
    rfl
  | binary op a b iha ihb =>
    have ha := fetch_slotOf slots (b.postorder.map some) a
    have hb := fetch_slotOf (slots ++ a.postorder.map some) [] b
    have hab := ihb h.2.1 (slots ++ a.postorder.map some)
    rw [List.append_nil] at hb
    rw [List.length_append,List.length_map] at hb hab
    have made : runFrom slots (assembly slots.length a ++
        assembly (slots.length + a.postorder.length) b) =
        ((a.postorder ++ b.postorder).map .expr, slots ++ (a.postorder ++ b.postorder).map some) := by
      rw [runFrom_append,iha h.1 slots,hab,List.map_append,List.map_append,List.append_assoc]
    refine runFrom_layer made ?_ (h.ofKind_operands one_le_two)
    rw [List.map_append,← List.append_assoc,List.mapM_cons,ha,List.mapM_cons,hb]
    rfl

theorem getLast?_assembly (h : e.Proper) (slots : Slots) :
    (runFrom slots (assembly slots.length e)).2.getLast? = some (some e) := by
  obtain ⟨front,hf⟩ := e.exists_postorder
  simp [runFrom_assembly h,hf]

end Fluxion.Workbench

namespace Fluxion.Expr

variable {d e : Expr}

theorem rebuild_eq_ok_iff_course : e.rebuild = .ok d ↔ d = e ∧ ∃ es, Course es ∧ e ∈ es := by
  rw [rebuild_eq_ok_iff]
  refine and_congr_right fun _ => ⟨fun h => ?_,?_⟩
  · have empty : Course (Workbench.Slots.held []) := .nil
    refine ⟨_,Workbench.course_runFrom empty (Workbench.assembly 0 e),?_⟩
    have hm := List.mem_of_getLast? (Workbench.getLast?_assembly h [])
    exact List.mem_filterMap.mpr ⟨some e,hm,rfl⟩
  · rintro ⟨es,hes,he⟩
    exact hes.proper e he

/-- Whatever has come up in a course of operations can be taken apart and built again, layer by
layer, on a workbench too. Nothing is built of a kind but what has this kind and the operands in
their order. -/
theorem building_exact :
    (∀ es, Course es → ∀ e ∈ es, ofNode e.node = .ok e ∧ e.rebuild = .ok e ∧
      ∀ slots : Workbench.Slots,
        (Workbench.runFrom slots (Workbench.assembly slots.length e)).2.getLast? = some (some e)) ∧
    ∀ (kind : Kind) (operands : List Expr),
      (∀ e, ofKind kind operands = .ok e ↔
        1 ≤ kind.arity ∧ operands.length = kind.arity ∧ ¬ZeroDivisor kind operands ∧
          e.kind = kind ∧ e.operands = operands) ∧
      ∀ error, ofKind kind operands = .error error ↔ Refused kind operands error := by
  refine ⟨fun es hes e he => ?_,fun kind operands => ⟨fun e => ?_,fun error => ?_⟩⟩
  · have h := hes.proper e he
    refine ⟨ofNode_node (proper_iff_layer.mp h).2,?_,fun slots => ?_⟩
    · exact rebuild_eq_ok_iff_course.mpr ⟨rfl,es,hes,he⟩
    · exact Workbench.getLast?_assembly h slots
  · exact ofKind_eq_ok_iff
  · exact ofKind_eq_error_iff

/-- The divisor here has the value zero, but it is not the constant. -/
theorem building_exact_quotient :
    ∃ e, Formula.parse "ln(x)/(1-1)" = .ok e ∧ Course [e] ∧ ofNode e.node = .ok e ∧
      e.rebuild = .ok e ∧
      (Workbench.runFrom [none] (Workbench.assembly 1 e)).2.getLast? = some (some e) ∧
      ofKind (.binary .divide) [e, .const 0] = .error .divideByZero ∧
      ofKind (.binary .divide) [e, .const 0, e] = .error (.wrongArity (.binary .divide) 3) := by
  have hp : Formula.parse "ln(x)/(1-1)" =
      .ok (.binary .divide (.ln (.var "x")) (.binary .minus (.const 1) (.const 1))) := by cbv
  have h := Course.nil.next (.parse hp)
  obtain ⟨hn,hr,hw⟩ := building_exact.1 _ h _ (List.mem_singleton_self _)
  refine ⟨_,hp,h,hn,hr,hw [none],?_,?_⟩
  · exact ((building_exact.2 _ _).2 _).mpr (.divideByZero (by decide) rfl ⟨rfl,rfl⟩)
  · exact ((building_exact.2 _ _).2 _).mpr (.wrongArity (by decide) (by decide))

end Fluxion.Expr
