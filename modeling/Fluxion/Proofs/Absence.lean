import Fluxion.Proofs.Opening

/-! What is left of a text that can be read when tiers have no match any more. The signs of
these tiers are gone, and in the end there is nothing but a single operand. -/
namespace Fluxion.Formula

theorem Fragment.Operand.singleton {c : Token} (h : c.isOperand = true) : Operand [c] := by
  cases c with
  | ref i a => exact .reference i a
  | char c =>
    rw [Token.isOperand_char,Bool.or_eq_true] at h
    rcases h with h | h
    · have ho := Operand.name (List.cons_ne_nil c []) (by simpa using h)
      exact ho
    · have ho := Operand.number (List.cons_ne_nil c []) (by simpa using h)
      exact ho

/-- A letter behind an operand that it does not prolong is behind a number or a reference. -/
theorem Fragment.Operand.not_isLetter {a rest : Fragment} {t : Token} (h : a.Operand)
    (he : a.Ends (t :: rest)) (ht : t.isLetter = true) : ∀ x ∈ a, x.isLetter = false := by
  cases h with
  | @name cs hn hc =>
    rw [he.not_isLetter hn hc t rfl] at ht
    cases ht
  | number hn hc =>
    intro x hx
    obtain ⟨c,hm,rfl⟩ := List.mem_map.mp hx
    exact Token.not_isLetter_of_isDigit (t := .char c) (hc c hm)
  | reference i a => simp [Token.isLetter]

theorem Tier.Nowhere.operation {op : BinaryOp} {text u w : Fragment}
    (h : op.tier.Nowhere text) (ht : text = u ++ w) : op.tier.pattern w = none := by
  have hw := h u w ht
  cases op <;> exact hw

section Absence

variable {style : Style} {text u w : Fragment} {v : Option Expr} {s : Scan}

theorem Fragment.scan?_split (h : text.scan? style = some v) (ht : text = u ++ w) :
    ∃ s s', follow (Scan.step style) Scan.init u = some s ∧ follow (Scan.step style) s w = some s' ∧
      s'.finish style = some v := by
  subst ht
  obtain ⟨s',hr,hf⟩ := scan?_eq_some.mp h
  obtain ⟨s,hu,hw⟩ := follow_append_eq_some hr
  exact ⟨s,s',hu,hw,hf⟩

variable (h : text.scan? style = some v) (hf : text.Flat)
  (hn : Tier.negation.Nowhere text) (hp : Tier.power.Nowhere text)
include h hf hn hp

theorem operand_of_expected (ht : text = u ++ w) (hu : u.endsOperand = false) :
    ∃ t w', w = t :: w' ∧ t.isOperand = true := by
  induction hl : w.length using Nat.strongRecOn generalizing u w with
  | ind n ih =>
    obtain ⟨s,s',hr,hw,hfin⟩ := Fragment.scan?_split h ht
    have hfu : Fragment.Flat u := fun t hm => hf t (by simp [ht,hm])
    have hnone : s.factor = none := by
      simpa [hu] using Scan.isSome_factor_run hr hfu
    obtain ⟨ps,x⟩ := s
    cases hnone
    cases w with
    | nil =>
      cases hw
      cases hfin
    | cons t w =>
      obtain ⟨m,hm,hw⟩ := Option.bind_eq_some_iff.mp hw
      rcases Scan.start_eq_some hm (hf t (by simp [ht])) with ⟨ho,-⟩ | ⟨rfl,rfl⟩
      · exact ⟨t,w,rfl,ho⟩
      exfalso
      have ht' : text = u ++ [.char '-'] ++ w := by simp [ht]
      obtain ⟨t,w',rfl,hto⟩ := ih _ (by simp [← hl]) ht'
        (by simp [Fragment.endsOperand,Token.isOperand_char]) rfl
      obtain ⟨rest,rfl⟩ := hn.power_of_minus (Scan.isOperator_of_expected hr hfu rfl) hto ht
      obtain ⟨t',w'',rfl,hto'⟩ := ih rest.length (by simp [← hl]; omega)
        (u := u ++ [.char '-'] ++ [t] ++ [.char '^']) (by simp [ht])
        (by simp [Fragment.endsOperand,Token.isOperand_char]) rfl
      exact Tier.operation_ne_none .power (.singleton hto) hto' w''
        (hp (u ++ [.char '-']) ([t] ++ .char '^' :: t' :: w'') (by simp [ht]))

theorem symbol_not_mem {op : BinaryOp} (hop : op.tier.Nowhere text) : .char op.symbol ∉ text := by
  intro hm
  obtain ⟨u,w,ht⟩ := List.append_of_mem hm
  have hsym := Scan.not_isOperand_symbol op
  cases hu : Fragment.endsOperand u with
  | false =>
    obtain ⟨t,w',he,ho⟩ := operand_of_expected h hf hn hp ht hu
    cases he
    rw [hsym] at ho
    cases ho
  | true =>
    obtain ⟨u,c,rfl,hc⟩ := Fragment.eq_concat_of_endsOperand hu
    obtain ⟨t,w',rfl,ho⟩ := operand_of_expected h hf hn hp (u := u ++ [c] ++ [.char op.symbol])
      (w := w) (by simp [ht]) (by simp [Fragment.endsOperand,hsym])
    exact Tier.operation_ne_none op (.singleton hc) ho w'
      (hop.operation (u := u) (by simp [ht]))

omit hn hp in
theorem next_of_operand {a rest : Fragment} {t : Token} (ht : text = u ++ (a ++ t :: rest))
    (ha : a.Operand) (he : a.Ends (t :: rest)) :
    t.isReference = true ∨ t.isLetter = true ∨ ∃ op : BinaryOp, t = .char op.symbol := by
  obtain ⟨s,s',hr,hw,-⟩ := Fragment.scan?_split (u := u ++ a) (w := t :: rest) h (by simp [ht])
  have hfu : Fragment.Flat (u ++ a) := fun t hm => hf t (by simp_all; tauto)
  obtain ⟨x,hx,hxo⟩ := ha.getLast?
  have hlast : (u ++ a).getLast? = some x := by
    rw [List.getLast?_append,hx]
    rfl
  have hsome := Scan.isSome_factor_run hr hfu
  rw [Fragment.endsOperand,hlast,Option.any_some,hxo] at hsome
  obtain ⟨ps,y⟩ := s
  cases y with
  | none => cases hsome
  | some f =>
    obtain ⟨m,hm,-⟩ := Option.bind_eq_some_iff.mp hw
    rcases Scan.next_eq_some hm (hf t (by simp [ht])) with ⟨hk,-⟩ | ⟨ho,hd,-⟩ | ⟨op,rfl,-⟩
    · obtain ⟨w,c,hc,hpro,-⟩ := Scan.exists_prolongs (Scan.endOf_init hr f rfl) hk
      rw [hc,List.getLast?_concat] at hlast
      cases hlast
      rw [he x hx t rfl] at hpro
      cases hpro
    · simp only [Token.isOperand,hd,Bool.or_false,Bool.or_eq_true] at ho
      exact ho.elim (fun ho => .inr (.inl ho)) .inl
    · exact .inr (.inr ⟨op,rfl⟩)

end Absence

section Juxtaposition

variable {text u a rest : Fragment} {t : Token}

theorem not_isReference_of_nowhere (hn : Tier.product.Nowhere text)
    (ht : text = u ++ (a ++ t :: rest)) (ha : a.Operand) : t.isReference = false := by
  cases t with
  | char c => rfl
  | ref i content => exact absurd (hn u _ ht) (Tier.reference_ne_none ha i content rest)

theorem not_isLetter_of_nowhere (hn : Tier.coefficient.Nowhere text)
    (ht : text = u ++ (a ++ t :: rest)) (ha : a.Operand) (he : a.Ends (t :: rest)) :
    t.isLetter = false := by
  cases hl : t.isLetter with
  | false => rfl
  | true => exact absurd (hn u _ ht) (Tier.coefficient_ne_none ha (ha.not_isLetter he hl) hl rest)

end Juxtaposition

/-- A text that can be read and has no match is a single operand. -/
theorem Fragment.operand_of_nowhere {style : Style} {text : Fragment} {v : Option Expr}
    (h : text.scan? style = some v) (hn : ∀ tier : Tier, tier.Nowhere text) : text.Operand := by
  have hf := flat_of_nowhere h (hn .group)
  obtain ⟨t,w,rfl,ho⟩ := operand_of_expected h hf (hn .negation) (hn .power) (u := [])
    (List.nil_append text).symm rfl
  obtain ⟨a,rest,ha⟩ := Pattern.exists_operand ho w
  obtain ⟨hta,hao,hae⟩ := Pattern.operand_eq_some_iff.mp ha
  cases rest with
  | nil => rwa [hta,List.append_nil]
  | cons x rest =>
    exfalso
    rcases next_of_operand (u := []) h hf hta hao hae with hx | hx | ⟨op,rfl⟩
    · rw [not_isReference_of_nowhere (u := []) (hn .product) hta hao] at hx
      cases hx
    · rw [not_isLetter_of_nowhere (u := []) (hn .coefficient) hta hao hae] at hx
      cases hx
    · exact symbol_not_mem h hf (hn .negation) (hn .power) (hn op.tier) (by simp [hta])

theorem Scan.finish_of_long {ps : List Pending} {letters : List Char} {w : Fragment} {s : Scan}
    (hl : 2 ≤ letters.length) (hf : w.Flat)
    (h : follow (Scan.step .implicit) ⟨ps, some (.name letters)⟩ w = some s) :
    s.finish .implicit = none := by
  have hw : (Factor.name letters).isWhole .implicit = false := by
    simp [Factor.isWhole]
    omega
  induction w generalizing letters with
  | nil =>
    cases h
    simp only [finish,hw]
    split <;> rfl
  | cons t w ih =>
    obtain ⟨m,hm,hr⟩ := Option.bind_eq_some_iff.mp h
    have hm : next .implicit ps (.name letters) t = some m := hm
    rcases next_eq_some hm (hf t (by simp)) with ⟨hk,-⟩ | ⟨-,-,-,m',hj,-⟩ | ⟨op,-,ho⟩
    · cases t with
      | ref i a => cases hk
      | char c =>
        have ha : c.isAlpha = true := hk
        simp [next,ha,not_isDigit_of_isAlpha ha] at hm
        subst hm
        exact ih (by simp; omega) (fun t ht => hf t (by simp [ht])) hr
          (by simp [Factor.isWhole]; rintro rfl; simp at hl)
    · rw [(juxtapose_eq_some hj).2.2] at hw
      cases hw
    · rw [(operate_eq_some ho).2.1] at hw
      cases hw

end Fluxion.Formula
