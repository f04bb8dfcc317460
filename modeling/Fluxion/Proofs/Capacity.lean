import Fluxion.Proofs.Inventory

/-! How many entries a table gets. An entry is of two tokens or more, of which it makes one, so
there are fewer of them than there are characters in the formula. -/
namespace Fluxion.Formula

theorem size_collapse_add_weight (text : Fragment) (table : Table) :
    (collapse text table).2.size + text.weight =
      table.size + (collapse text table).1.weight := by
  fun_induction collapse text table with
  | case1 text table h => rfl
  | case2 text table tier site h ih =>
    rw [Table.size_push] at ih
    rw [← (Tier.first?_cuts h).1]
    simp only [Site.replace,Site.text,Fragment.weight_append,Fragment.weight_cons,
      Token.weight_ref] at ih ⊢
    omega

theorem Tier.Match.two_le_length {tier : Tier} {m after : Fragment} (h : tier.Match m after) :
    2 ≤ m.length := by
  cases h with
  | logarithm | group => simp
  | cut hn => simpa [Nat.one_le_iff_ne_zero] using hn
  | negation ha | operation op ha | reference ha | coefficient ha =>
    have hl := List.length_pos_iff.mpr ha.ne_nil
    simp
    try omega

namespace Stocked

variable {text : Fragment} {table : Table}

theorem weight_add_length_le (h : Stocked text table) :
    text.weight + text.length ≤ 2 * text.source.length := by
  induction hw : text.weight using Nat.strong_induction_on generalizing text with
  | _ w ih =>
    subst hw
    cases text with
    | nil => simp
    | cons t text =>
      have htext : Stocked text table := ⟨h.recorded.subset (by simp),h.matched⟩
      have ht := t.weight_pos
      have hi := ih (Fragment.weight text) (by simpa using ht) htext rfl
      cases t with
      | char c =>
        simp only [Fragment.weight_cons,Fragment.source_cons,Token.weight_char,Token.source_char,
          List.length_cons,List.length_append,List.length_nil]
        omega
      | ref i content =>
        have hl := h.recorded.resolves i content (by simp)
        obtain ⟨entry,he,rfl⟩ := Table.mem_of_lookup? hl
        obtain ⟨after,hm⟩ := h.matched entry he
        have htwo := hm.two_le_length
        have hc := ih entry.fragment.weight (by simp; omega) ⟨h.recorded.lookup hl,h.matched⟩ rfl
        simp only [Fragment.weight_cons,Fragment.source_cons,Token.weight_ref,Token.source_ref,
          List.length_cons,List.length_append]
        omega

end Stocked

@[simp] theorem Reading.table_map (f : Expr → Expr) (r : Reading) : (r.map f).table = r.table := rfl

theorem size_join_add_weight_le {left right : Fragment} {table : Table} (op : BinaryOp)
    (hr : Stocked right table) (hleft : (assemble left table).table.size + left.weight +
      min 2 left.length ≤ table.size + 2 * left.source.length)
    (hright : (assemble right (assemble left table).table).table.size + right.weight +
      min 2 right.length ≤ (assemble left table).table.size + 2 * right.source.length) :
    (Reading.join op (assemble left table) (assemble right)).table.size + left.weight +
      right.weight + min 2 left.length + min 2 right.length ≤
      table.size + 2 * left.source.length + 2 * right.source.length := by
  have hw := hr.weight_add_length_le
  rcases Reading.table_join op (assemble left table) (assemble right) with ht | ht <;> rw [ht] <;>
    omega

theorem size_collapsed_add_weight_le {inner : Fragment} {table : Table}
    (h : (assemble (collapse inner table).1 (collapse inner table).2).table.size +
      (collapse inner table).1.weight + min 2 (collapse inner table).1.length ≤
      (collapse inner table).2.size + 2 * (collapse inner table).1.source.length) :
    (assemble (collapse inner table).1 (collapse inner table).2).table.size + inner.weight ≤
      table.size + 2 * inner.source.length := by
  have hc := size_collapse_add_weight inner table
  rw [source_collapse] at h
  omega

/-- What a text adds to the table, with its references and with one or two of its tokens, is no
more than its characters. -/
theorem size_assemble_add_weight_le {text : Fragment} {table : Table} (h : Stocked text table) :
    (assemble text table).table.size + text.weight + min 2 text.length ≤
      table.size + 2 * text.source.length := by
  have hw := h.weight_add_length_le
  induction text using Fragment.shape_induction generalizing table with
  | logarithm text inner hs ih =>
    have hp : inner ∈ (Shape.logarithm inner).parts := by simp [Shape.parts]
    have hin := (h.of_part hs hp).collapse
    have hi := size_collapsed_add_weight_le (ih _ (by simp) hin hin.weight_add_length_le)
    rw [assemble_of_logarithm hs,Fragment.eq_text_of_shape hs]
    simp [Shape.text]
    omega
  | group text inner hs ih =>
    have hp : inner ∈ (Shape.group inner).parts := by simp [Shape.parts]
    have hin := (h.of_part hs hp).collapse
    have hi := size_collapsed_add_weight_le (ih _ (by simp) hin hin.weight_add_length_le)
    rw [assemble_of_group hs,Fragment.eq_text_of_shape hs]
    simp [Shape.text]
    omega
  | integer text negative digits hs =>
    rw [assemble_of_integer hs]
    simp only
    omega
  | name text letters hs =>
    rw [assemble_of_name hs]
    simp only
    omega
  | reference text i content hs ih =>
    have hl := h.recorded.lookup?_eq hs
    obtain ⟨entry,he,rfl⟩ := Table.mem_of_lookup? hl
    obtain ⟨after,hm⟩ := h.matched entry he
    have htwo := hm.two_le_length
    have hc : Stocked entry.fragment table := (h.of_reference hs).1
    have hi := ih hc hc.weight_add_length_le
    rw [assemble_of_reference hs,Fragment.eq_text_of_shape hs]
    simp [Shape.text]
    omega
  | negation text operand hs ih =>
    have hp : operand ∈ (Shape.negation operand).parts := by simp [Shape.parts]
    have ho := h.of_part hs hp
    have hi := ih ho ho.weight_add_length_le
    have hl : 0 < operand.length := by
      cases Fragment.formed_of_shape hs with
      | negation ho => exact List.length_pos_iff.mpr ho.ne_nil
    rw [assemble_of_negation hs,Fragment.eq_text_of_shape hs]
    simp [Shape.text]
    omega
  | operation text op left right hs ihl ihr =>
    have hpl : left ∈ (Shape.operation op left right).parts := by simp [Shape.parts]
    have hpr : right ∈ (Shape.operation op left right).parts := by simp [Shape.parts]
    have hl := h.of_part hs hpl
    have hr := h.of_part hs hpr
    have hr' := h.of_part_after hs hpl hpr
    have hj := size_join_add_weight_le op hr (ihl hl hl.weight_add_length_le)
      (ihr hr' hr'.weight_add_length_le)
    rw [assemble_of_operation hs,Fragment.eq_text_of_shape hs]
    simp [Shape.text]
    omega
  | juxtaposition text left right hs ihl ihr =>
    have hpl : left ∈ (Shape.juxtaposition left right).parts := by simp [Shape.parts]
    have hpr : right ∈ (Shape.juxtaposition left right).parts := by simp [Shape.parts]
    have hl := h.of_part hs hpl
    have hr := h.of_part hs hpr
    have hr' := h.of_part_after hs hpl hpr
    have hj := size_join_add_weight_le .times hr (ihl hl hl.weight_add_length_le)
      (ihr hr' hr'.weight_add_length_le)
    obtain ⟨hnl,hnr⟩ := Fragment.ne_nil_of_shape_juxtaposition hs
    have hll := List.length_pos_iff.mpr hnl
    have hlr := List.length_pos_iff.mpr hnr
    rw [assemble_of_juxtaposition hs,Fragment.eq_text_of_shape hs]
    simp [Shape.text]
    omega
  | unknown text u hs =>
    rw [assemble_of_unknown hs]
    simp only
    omega

theorem weight_ofString (s : String) : (Fragment.ofString s).weight = s.toList.length := by
  rw [Fragment.ofString]
  induction s.toList with
  | nil => rfl
  | cons c cs ih => simp [ih,Nat.add_comm]

/-- The table has no more entries, with the formula, than the formula has characters. -/
theorem size_read_le (s : String) : (read s).table.size ≤ max 1 s.toList.length := by
  by_cases hn : s = ""
  · subst hn
    exact Nat.le_refl 1
  cases hf : firstInvalid? 0 s.toList with
  | some e =>
    have he : s.isEmpty = false := by simpa using hn
    simp [read,he,hf]
  | none =>
    rw [read_of_isAllowed hn (firstInvalid?_eq_none_iff.mp hf)]
    have hst := (Stocked.ofString s).collapse
    have hs := size_assemble_add_weight_le hst
    have hc := size_collapse_add_weight (.ofString s) .empty
    have hne : Fragment.ofString s ≠ [] := by simpa [Fragment.ofString] using hn
    have hp := List.length_pos_iff.mpr (collapse_ne_nil hne .empty)
    rw [weight_ofString,Table.size_empty] at hc
    rw [source_collapse,Fragment.source_ofString] at hs
    omega

end Fluxion.Formula
