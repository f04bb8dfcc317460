import Fluxion.Proofs.Inline.Cascade
import Fluxion.Proofs.Inventory

/-! The reductions of a formula, one after the other. A reduction sets a part of a text aside; what
is noted of it is its number, its tier and its place in the text as it is written then, which the
table does not keep. -/
namespace Fluxion.Formula

/-- One part of a text that is set aside. -/
structure Reduction where
  index : Nat
  tier : Tier
  /-- Where the part starts and ends, in bytes. -/
  span : Nat × Nat
  fragment : Fragment

def Reduction.record (reduction : Reduction) : Nat × Entry :=
  (reduction.index, ⟨reduction.tier, reduction.fragment⟩)

/-- The reductions that collapse a text. -/
def reductions (text : Fragment) (table : Table) : List Reduction :=
  match _h : Tier.first? text with
  | none => []
  | some (tier, site) =>
    ⟨table.size, tier, Inline.span site, site.matched⟩ ::
      reductions (site.replace (.ref table.size site.matched)) (table.push tier site.matched)
termination_by text.length
decreasing_by
  exact Tier.length_replace_lt _h _

/-- The reductions that are made while a text is assembled. The right operand is not come to if
the left one is no expression. -/
def reductionsWithin (text : Fragment) (table : Table) : List Reduction :=
  match _h : text.shape with
  | .logarithm inner | .group inner =>
    reductions inner table ++
      reductionsWithin (collapse inner table).1 (collapse inner table).2
  | .reference _ content => reductionsWithin content table
  | .negation operand => reductionsWithin operand table
  | .operation _ left right | .juxtaposition left right =>
    reductionsWithin left table ++
      if (assemble left table).outcome.isOk then
        reductionsWithin right (assemble left table).table
      else []
  | .integer .. | .name _ | .unknown _ => []
termination_by (text.source.length, text.weight)
decreasing_by
  · exact lex_of_inner _h (.inl rfl) table
  · exact lex_of_inner _h (.inr rfl) table
  · exact lex_of_reference _h
  all_goals exact lex_of_part _h (by simp [Shape.parts])

/-- All reductions that reading a formula takes. -/
def reductionsOf (formula : String) : List Reduction :=
  if formula.isEmpty ∨ (firstInvalid? 0 formula.toList).isSome then []
  else
    let text := Fragment.ofString formula
    reductions text .empty ++
      reductionsWithin (collapse text .empty).1 (collapse text .empty).2

section Equations

variable {text : Fragment}

theorem reductions_of_none (h : Tier.first? text = none) (table : Table) :
    reductions text table = [] := by
  rw [reductions]
  split <;> simp_all

theorem reductions_of_some {tier : Tier} {s : Site} (h : Tier.first? text = some (tier, s))
    (table : Table) :
    reductions text table = ⟨table.size, tier, Inline.span s, s.matched⟩ ::
      reductions (s.replace (.ref table.size s.matched)) (table.push tier s.matched) := by
  rw [reductions]
  split <;> simp_all

theorem reductionsWithin_of_inner {inner : Fragment}
    (h : text.shape = .logarithm inner ∨ text.shape = .group inner) (table : Table) :
    reductionsWithin text table = reductions inner table ++
      reductionsWithin (collapse inner table).1 (collapse inner table).2 := by
  rw [reductionsWithin]
  rcases h with h | h <;> split <;> simp_all

theorem reductionsWithin_of_reference {index : Nat} {content : Fragment}
    (h : text.shape = .reference index content) (table : Table) :
    reductionsWithin text table = reductionsWithin content table := by
  rw [reductionsWithin]
  split <;> simp_all

theorem reductionsWithin_of_negation {operand : Fragment} (h : text.shape = .negation operand)
    (table : Table) : reductionsWithin text table = reductionsWithin operand table := by
  rw [reductionsWithin]
  split <;> simp_all

theorem reductionsWithin_of_pair {left right : Fragment}
    (h : (∃ op, text.shape = .operation op left right) ∨ text.shape = .juxtaposition left right)
    (table : Table) :
    reductionsWithin text table = reductionsWithin left table ++
      if (assemble left table).outcome.isOk then
        reductionsWithin right (assemble left table).table
      else [] := by
  rw [reductionsWithin]
  rcases h with ⟨op,h⟩ | h <;> split <;> simp_all

theorem reductionsWithin_of_leaf (h : text.shape.parts = [])
    (hr : ∀ i c, text.shape ≠ .reference i c) (table : Table) :
    reductionsWithin text table = [] := by
  rw [reductionsWithin]
  split <;> simp_all [Shape.parts]

end Equations

section Recorded

@[simp] theorem Table.numbered_push (table : Table) (tier : Tier) (part : Fragment) :
    (table.push tier part).numbered = table.numbered ++ [(table.size, ⟨tier, part⟩)] := by
  simp [numbered,push,size,List.zipIdx_append]

theorem numbered_collapse (text : Fragment) (table : Table) :
    (collapse text table).2.numbered =
      table.numbered ++ (reductions text table).map Reduction.record := by
  fun_induction collapse text table with
  | case1 text table h => simp [reductions_of_none h]
  | case2 text table tier s h ih =>
    rw [ih,reductions_of_some h]
    simp [Reduction.record]

theorem Reading.table_join_eq (op : BinaryOp) (left : Reading) (right : Table → Reading) :
    (join op left right).table =
      if left.outcome.isOk then (right left.table).table else left.table := by
  obtain ⟨o,table⟩ := left
  cases o <;> rfl

theorem numbered_join {text left right : Fragment}
    (hs : (∃ op, text.shape = .operation op left right) ∨ text.shape = .juxtaposition left right)
    (hl : ∀ table, (assemble left table).table.numbered =
      table.numbered ++ (reductionsWithin left table).map Reduction.record)
    (hr : ∀ table, (assemble right table).table.numbered =
      table.numbered ++ (reductionsWithin right table).map Reduction.record)
    (op : BinaryOp) (table : Table) :
    (Reading.join op (assemble left table) (assemble right)).table.numbered =
      table.numbered ++ (reductionsWithin text table).map Reduction.record := by
  rw [Reading.table_join_eq,reductionsWithin_of_pair hs]
  split
  · rw [hr,hl,List.map_append,List.append_assoc]
  · rw [hl,List.append_nil]

theorem numbered_assemble (text : Fragment) (table : Table) :
    (assemble text table).table.numbered =
      table.numbered ++ (reductionsWithin text table).map Reduction.record := by
  induction text using Fragment.shape_induction generalizing table with
  | logarithm text inner hs ih =>
    rw [assemble_of_logarithm hs,reductionsWithin_of_inner (.inl hs),List.map_append,
      ← List.append_assoc,← numbered_collapse]
    exact ih _ (by simp) _
  | group text inner hs ih =>
    rw [assemble_of_group hs,reductionsWithin_of_inner (.inr hs),List.map_append,
      ← List.append_assoc,← numbered_collapse]
    exact ih _ (by simp) _
  | integer text negative digits hs =>
    rw [assemble_of_integer hs,reductionsWithin_of_leaf (by simp [hs,Shape.parts]) (by simp [hs])]
    simp
  | name text letters hs =>
    rw [assemble_of_name hs,reductionsWithin_of_leaf (by simp [hs,Shape.parts]) (by simp [hs])]
    simp
  | reference text i content hs ih =>
    rw [assemble_of_reference hs,reductionsWithin_of_reference hs]
    exact ih table
  | negation text operand hs ih =>
    rw [assemble_of_negation hs,reductionsWithin_of_negation hs]
    exact ih table
  | operation text op left right hs ihl ihr =>
    rw [assemble_of_operation hs]
    exact numbered_join (.inl ⟨op,hs⟩) ihl ihr op table
  | juxtaposition text left right hs ihl ihr =>
    rw [assemble_of_juxtaposition hs]
    exact numbered_join (.inr hs) ihl ihr .times table
  | unknown text u hs =>
    rw [assemble_of_unknown hs,reductionsWithin_of_leaf (by simp [hs,Shape.parts]) (by simp [hs])]
    simp

theorem numbered_read (s : String) :
    (read s).table.numbered = (reductionsOf s).map Reduction.record := by
  rw [read,reductionsOf]
  split
  · rename_i he
    rw [if_pos (.inl he)]
    rfl
  · rename_i he
    cases hf : firstInvalid? 0 s.toList with
    | some x =>
      rw [if_pos (.inr rfl)]
      rfl
    | none =>
      rw [if_neg (by simp [he])]
      simp only [numbered_assemble,numbered_collapse,List.map_append]
      rfl

theorem span_head? {text : Fragment} (h : text.Allowed) (table : Table) :
    Inline.first (Inline.code text) =
      .ok ((reductions text table).head?.map Reduction.span) := by
  rw [Inline.first_code h]
  cases hf : Tier.first? text with
  | none => rw [reductions_of_none hf]; rfl
  | some x => rw [reductions_of_some hf]; rfl

end Recorded

end Fluxion.Formula
