import Fluxion.Expr.Variables
import Fluxion.Proofs.Built
import Mathlib

/-! The order of the variables. Places in an expression are compared letter by letter like words,
which is the order in which they are passed, so of two names that one comes first which has a place
before all places of the other. Derivatives have no variables of their own. -/
namespace Fluxion.Expr

section Notes

variable {names : List String} {x y : String}

theorem idxOf_append_lt_iff {front back : List String} :
    (front ++ back).idxOf x < (front ++ back).idxOf y ↔
      front.idxOf x < front.idxOf y ∨
        x ∉ front ∧ y ∉ front ∧ back.idxOf x < back.idxOf y := by
  rw [List.idxOf_append,List.idxOf_append]
  by_cases hx : x ∈ front
  · have hlt : front.idxOf x < front.length := List.idxOf_lt_length_of_mem hx
    by_cases hy : y ∈ front
    · simp [hx,hy]
    · rw [if_pos hx,if_neg hy,List.idxOf_eq_length hy]
      exact iff_of_true (by omega) (.inl hlt)
  · have hle : front.idxOf y ≤ front.length := List.idxOf_le_length
    rw [if_neg hx,List.idxOf_eq_length hx,or_iff_right hle.not_gt]
    by_cases hy : y ∈ front
    · rw [if_pos hy]
      exact iff_of_false (by omega) fun h => h.2.1 hy
    · simp [hx,hy]

theorem idxOf_foldl_note_lt_iff {occurrences : List String} :
    (occurrences.foldl note names).idxOf x < (occurrences.foldl note names).idxOf y ↔
      (names ++ occurrences).idxOf x < (names ++ occurrences).idxOf y := by
  induction occurrences generalizing names with
  | nil => rw [List.foldl_nil,List.append_nil]
  | cons name rest ih =>
    rw [List.foldl_cons,ih]
    unfold note
    split_ifs with hn
    · rw [idxOf_append_lt_iff,idxOf_append_lt_iff]
      refine or_congr_right (and_congr_right fun hx => and_congr_right fun hy => ?_)
      have hx' : name ≠ x := fun h => hx (h ▸ hn)
      have hy' : name ≠ y := fun h => hy (h ▸ hn)
      rw [List.idxOf_cons_ne _ hx',List.idxOf_cons_ne _ hy',Nat.succ_lt_succ_iff]
    · rw [List.append_assoc,List.singleton_append]

end Notes

/-- The part of an expression at a place. A place tells which operand to take in every layer. -/
def part? : List Nat → Expr → Option Expr
  | [], e => some e
  | i :: place, e => e.operands[i]?.bind (part? place)

section Places

variable {e a b : Expr} {op : BinaryOp} {place : List Nat} {x y : String}

/-- At the place there is a variable of this name. -/
def Names (e : Expr) (place : List Nat) (x : String) : Prop := e.part? place = some (.var x)

theorem names_const {v : Int64} : ¬Names (.const v) place x := by
  cases place <;> simp [Names,part?,operands,node,Node.operands]

theorem names_var {name : String} : Names (.var name) place x ↔ place = [] ∧ name = x := by
  cases place <;> simp [Names,part?,operands,node,Node.operands]

theorem names_single (h : e.operands = [a]) :
    Names e place x ↔ ∃ p, place = 0 :: p ∧ Names a p x := by
  cases place with
  | nil =>
    have hne : e ≠ .var x := by
      rintro rfl
      cases h
    simp [Names,part?,hne]
  | cons i p => rcases i with _ | i <;> simp [Names,part?,h]

theorem names_binary :
    Names (.binary op a b) place x ↔
      (∃ p, place = 0 :: p ∧ Names a p x) ∨ ∃ p, place = 1 :: p ∧ Names b p x := by
  cases place with
  | nil => simp [Names,part?]
  | cons i p => rcases i with _ | _ | i <;> simp [Names,part?,operands,node,Node.operands]

theorem mem_occurrences_iff : x ∈ e.occurrences ↔ ∃ place, Names e place x := by
  induction e with
  | const v => simp [occurrences,names_const]
  | var name => simp [occurrences,names_var,eq_comm]
  | neg a ih | ln a ih =>
    simp only [occurrences,ih]
    constructor
    · rintro ⟨p,hp⟩
      exact ⟨0 :: p,(names_single rfl).mpr ⟨p,rfl,hp⟩⟩
    · rintro ⟨place,hp⟩
      obtain ⟨p,-,hp⟩ := (names_single rfl).mp hp
      exact ⟨p,hp⟩
  | binary op a b iha ihb =>
    simp only [occurrences,List.mem_append,iha,ihb,names_binary]
    constructor
    · rintro (⟨p,hp⟩ | ⟨p,hp⟩)
      · exact ⟨0 :: p,.inl ⟨p,rfl,hp⟩⟩
      · exact ⟨1 :: p,.inr ⟨p,rfl,hp⟩⟩
    · rintro ⟨place,⟨p,-,hp⟩ | ⟨p,-,hp⟩⟩
      · exact .inl ⟨p,hp⟩
      · exact .inr ⟨p,hp⟩

/-- A place of the first name comes before all places of the second one. -/
def Precedes (e : Expr) (x y : String) : Prop :=
  ∃ p, Names e p x ∧ ∀ q, Names e q y → p < q

theorem precedes_single (h : e.operands = [a]) :
    Precedes e x y ↔ Precedes a x y := by
  constructor
  · rintro ⟨_,hp,hy⟩
    obtain ⟨p,rfl,hp'⟩ := (names_single h).mp hp
    refine ⟨p,hp',fun q hq => ?_⟩
    exact List.cons_lt_cons_self.mp (hy _ ((names_single h).mpr ⟨q,rfl,hq⟩))
  · rintro ⟨p,hp,hy⟩
    refine ⟨0 :: p,(names_single h).mpr ⟨p,rfl,hp⟩,fun q hq => ?_⟩
    obtain ⟨q,rfl,hq'⟩ := (names_single h).mp hq
    exact List.cons_lt_cons_self.mpr (hy q hq')

theorem precedes_binary :
    Precedes (.binary op a b) x y ↔
      Precedes a x y ∨ x ∉ a.occurrences ∧ y ∉ a.occurrences ∧ Precedes b x y := by
  constructor
  · rintro ⟨place,hp,hy⟩
    rcases names_binary.mp hp with ⟨p,rfl,hp⟩ | ⟨p,rfl,hp⟩
    · refine .inl ⟨p,hp,fun q hq => ?_⟩
      exact List.cons_lt_cons_self.mp (hy _ (names_binary.mpr (.inl ⟨q,rfl,hq⟩)))
    · have hya : y ∉ a.occurrences := by
        intro hm
        obtain ⟨q,hq⟩ := mem_occurrences_iff.mp hm
        have := hy _ (names_binary.mpr (.inl ⟨q,rfl,hq⟩))
        simp [List.cons_lt_cons_iff] at this
      by_cases hxa : x ∈ a.occurrences
      · obtain ⟨p,hp⟩ := mem_occurrences_iff.mp hxa
        exact .inl ⟨p,hp,fun q hq => (hya (mem_occurrences_iff.mpr ⟨q,hq⟩)).elim⟩
      · refine .inr ⟨hxa,hya,p,hp,fun q hq => ?_⟩
        exact List.cons_lt_cons_self.mp (hy _ (names_binary.mpr (.inr ⟨q,rfl,hq⟩)))
  · rintro (⟨p,hp,hy⟩ | ⟨-,hya,p,hp,hy⟩)
    · refine ⟨0 :: p,names_binary.mpr (.inl ⟨p,rfl,hp⟩),fun q hq => ?_⟩
      rcases names_binary.mp hq with ⟨q,rfl,hq⟩ | ⟨q,rfl,hq⟩
      · exact List.cons_lt_cons_self.mpr (hy q hq)
      · exact List.cons_lt_cons_iff.mpr (.inl Nat.one_pos)
    · refine ⟨1 :: p,names_binary.mpr (.inr ⟨p,rfl,hp⟩),fun q hq => ?_⟩
      rcases names_binary.mp hq with ⟨q,rfl,hq⟩ | ⟨q,rfl,hq⟩
      · exact (hya (mem_occurrences_iff.mpr ⟨q,hq⟩)).elim
      · exact List.cons_lt_cons_self.mpr (hy q hq)

/-- Occurrences are passed in the order of their places. -/
theorem idxOf_occurrences_lt_iff :
    e.occurrences.idxOf x < e.occurrences.idxOf y ↔ Precedes e x y := by
  induction e with
  | const v => simp [occurrences,Precedes,names_const]
  | var name =>
    simp only [occurrences,Precedes,names_var]
    by_cases hx : name = x
    · subst hx
      by_cases hy : name = y <;> simp [hy]
    · by_cases hy : name = y <;> simp [List.idxOf_cons,hx,hy]
  | neg a ih | ln a ih =>
    rw [precedes_single rfl,← ih]
    rfl
  | binary op a b iha ihb => rw [occurrences,idxOf_append_lt_iff,iha,ihb,precedes_binary]

end Places

theorem hereditary_among (names : List String) : Hereditary fun e => e.occurrences ⊆ names where
  const _ := List.nil_subset names
  neg := Iff.rfl
  ln := Iff.rfl
  left h := (List.append_subset.mp h).1
  right h := (List.append_subset.mp h).2
  binary ha hb _ := List.append_subset.mpr ⟨ha,hb⟩

/-- The variables of an expression are listed once each, in the order of their first places, and
those of its derivative are among them. -/
theorem variableNames_in_order (e : Expr) :
    e.variableNames.Nodup ∧
    (∀ x, x ∈ e.variableNames ↔ ∃ place, e.part? place = some (.var x)) ∧
    (∀ x y, e.variableNames.idxOf x < e.variableNames.idxOf y ↔
      ∃ p, e.part? p = some (.var x) ∧ ∀ q, e.part? q = some (.var y) → p < q) ∧
    ∀ d, e.derivative = .ok d → ∀ x ∈ d.variableNames, x ∈ e.variableNames := by
  refine ⟨?_,fun x => ?_,fun x y => ?_,fun d hd x hx => ?_⟩
  · exact e.nodup_variableNames
  · exact mem_variableNames_iff.trans mem_occurrences_iff
  · rw [variableNames_eq_foldl,idxOf_foldl_note_lt_iff,List.nil_append]
    exact idxOf_occurrences_lt_iff
  · rw [mem_variableNames_iff] at hx ⊢
    exact (hereditary_among e.occurrences).derivative (List.Subset.refl _) hd hx

/-- The derivative of this power does not differentiate the exponent, but keeps its names. -/
theorem variableNames_in_order_power :
    ∃ d, (binary .power (binary .times (.var "y") (.var "x"))
        (binary .plus (.var "z") (.var "y"))).derivative = .ok d ∧
      d.variableNames = ["z", "y", "x"] ∧
      ∀ x ∈ d.variableNames, x ∈ ["y", "x", "z"] := by
  refine ⟨_,rfl,by decide,?_⟩
  exact (variableNames_in_order (binary .power (binary .times (.var "y") (.var "x"))
    (binary .plus (.var "z") (.var "y")))).2.2.2 _ rfl

end Fluxion.Expr
