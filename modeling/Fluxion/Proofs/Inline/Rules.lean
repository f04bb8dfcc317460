import Fluxion.Proofs.Inline.Places

/-! The rules on written texts. In a text that is built the first rule that applies is the one that
the shape of the text asks for, and it cuts where the shape is cut. -/
namespace Fluxion.Formula.Inline

/-- The rule for a shape, and where it cuts the written text. -/
def ruleOf : Shape → Rule
  | .logarithm _ => .logarithm
  | .group _ => .group
  | .integer _ _ => .integer
  | .name _ => .name
  | .reference _ _ => .reference
  | .negation _ => .negation
  | .operation op left _ => .operation op (code left).length
  | .juxtaposition left _ => .juxtaposition (code left).length
  | .unknown _ => .unknown

section Rule

variable {text : Fragment}

theorem flat_of_shape_logarithm {inner : Fragment} (h : text.shape = .logarithm inner) :
    inner.Flat := by
  rcases form_of_shape h (.inl ⟨inner,rfl⟩) with hc | hc
  · unfold Shape.logarithm? at hc
    split at hc
    · split at hc
      · rename_i hg
        cases hc
        exact (Pattern.group?_eq_some hg).2
      · cases hc
    · cases hc
  · unfold Shape.juxtaposition? at hc
    split at hc <;> (try split at hc) <;> cases hc

theorem operation?_shape {op : BinaryOp} {i : Nat} (h : text.Allowed) (hp : text.Plain) :
    operation? op (code text) = some i ↔
      ∃ a b, text.shape = .operation op a b ∧ i = (code a).length := by
  rw [operation?_code h hp]
  constructor
  · rintro ⟨a,b,ha,hb,rfl,hi⟩
    exact ⟨a,b,Fragment.shape_operation op ha hb,hi⟩
  · rintro ⟨a,b,hs,hi⟩
    have ht := Fragment.eq_text_of_shape hs
    cases Fragment.formed_of_shape hs with
    | operation op ha hb => exact ⟨a,b,ha,hb,ht,hi⟩

theorem operation?_eq_none {op : BinaryOp} (h : text.Allowed) (hp : text.Plain)
    (hs : ∀ a b, text.shape ≠ .operation op a b) : operation? op (code text) = none := by
  rw [Option.eq_none_iff_forall_ne_some]
  intro i hi
  obtain ⟨a,b,hab,-⟩ := (operation?_shape h hp).mp hi
  exact hs a b hab

theorem split?_shape {i : Nat} (h : text.Allowed) (hp : text.Plain)
    (hs : ∀ a b, text.shape ≠ .operation .times a b) (he : split? (code text) = some i) :
    ∃ a b, text.shape = .juxtaposition a b ∧ i = (code a).length := by
  obtain ⟨u,a,v,b,hsplit,hi⟩ := split?_split h he
  obtain ⟨hj,rfl,rfl⟩ := hsplit.juxtaposed hp fun a b ha hb ht => by
    have hop := Fragment.shape_operation .times ha hb
    rw [show a ++ .char BinaryOp.times.symbol :: b = text from ht.symm] at hop
    exact hs a b hop
  exact ⟨a,b,hj,by simpa using hi⟩

theorem pairRule_of_operation {op : BinaryOp} {a b : Fragment} (h : text.Allowed)
    (hp : text.Plain) (hs : text.shape = .operation op a b) :
    pairRule (code text) = .operation op (code a).length := by
  have hop : operation? op (code text) = some (code a).length :=
    (operation?_shape h hp).mpr ⟨a,b,hs,rfl⟩
  have hne : ∀ op', op' ≠ op → operation? op' (code text) = none := fun op' hop' =>
    operation?_eq_none h hp fun c d hcd => by
      rw [hs] at hcd
      cases hcd
      exact hop' rfl
  have hsplit : op ≠ .times → split? (code text) = none := fun hop' => by
    rw [Option.eq_none_iff_forall_ne_some]
    intro i hi
    obtain ⟨c,d,hcd,-⟩ := split?_shape h hp (fun c d hcd => by
      rw [hs] at hcd
      cases hcd
      exact hop' rfl) hi
    rw [hs] at hcd
    cases hcd
  cases op with
  | plus => simp [pairRule,hop]
  | minus => simp [pairRule,hop,hne .plus]
  | times => simp [pairRule,hop,hne .plus,hne .minus]
  | divide => simp [pairRule,hop,hne .plus,hne .minus,hne .times,hsplit]
  | power => simp [pairRule,hop,hne .plus,hne .minus,hne .times,hne .divide,hsplit]

theorem pairRule_of_juxtaposition {a b : Fragment} (h : text.Allowed) (hp : text.Plain)
    (hs : text.shape = .juxtaposition a b) :
    pairRule (code text) = .juxtaposition (code a).length := by
  have hne : ∀ op, operation? op (code text) = none := fun op =>
    operation?_eq_none h hp fun c d hcd => by
      rw [hs] at hcd
      cases hcd
  obtain ⟨i,hi⟩ := Option.ne_none_iff_exists'.mp (split?_ne_none h hs)
  obtain ⟨c,d,hcd,rfl⟩ := split?_shape h hp (fun c d hcd => by
    rw [hs] at hcd
    cases hcd) hi
  rw [hs] at hcd
  cases hcd
  simp [pairRule,hne,hi]

theorem pairRule_of_neither (h : text.Allowed) (hp : text.Plain)
    (ho : ∀ op a b, text.shape ≠ .operation op a b)
    (hj : ∀ a b, text.shape ≠ .juxtaposition a b) : pairRule (code text) = .unknown := by
  have hne : ∀ op, operation? op (code text) = none := fun op =>
    operation?_eq_none h hp (ho op)
  have hsplit : split? (code text) = none := by
    rw [Option.eq_none_iff_forall_ne_some]
    intro i hi
    obtain ⟨a,b,hab,-⟩ := split?_shape h hp (ho .times) hi
    exact hj a b hab
  simp [pairRule,hne,hsplit]

theorem rule_eq {src : List UInt8} {l g m : Bool} (hn : src ≠ []) (hl : isLogarithm src = .ok l)
    (hg : isGroup src = .ok g) (hm : isNegation src = .ok m) : rule src =
      .ok (if l then .logarithm else if g then .group else if isInteger src then .integer
        else if isName src then .name else if isReference src then .reference
        else if m then .negation else pairRule src) := by
  rw [rule,if_neg hn,hl]
  cases l with
  | true => rfl
  | false =>
    change (isGroup src >>= _) = _
    rw [hg]
    cases g with
    | true => rfl
    | false =>
      change (if isInteger src = true then _ else _) = _
      cases isInteger src with
      | true => rfl
      | false =>
        cases isName src with
        | true => rfl
        | false =>
          cases isReference src with
          | true => rfl
          | false =>
            change (isNegation src >>= _) = _
            rw [hm]
            cases m <;> rfl

/-- How a text reads that has a certain shape. -/
theorem shape_logarithm_iff : (∃ inner, text.shape = .logarithm inner) ↔
    ∃ inner : Fragment, inner.Flat ∧
      text = .char 'l' :: .char 'n' :: .char '(' :: inner ++ [.char ')'] := by
  constructor
  · rintro ⟨inner,hs⟩
    exact ⟨inner,flat_of_shape_logarithm hs,Fragment.eq_text_of_shape hs⟩
  · rintro ⟨inner,hi,rfl⟩
    exact ⟨inner,Fragment.shape_logarithm hi⟩

theorem shape_group_iff (hp : text.Plain) : (∃ inner, text.shape = .group inner) ↔
    ∃ inner : Fragment, text = .char '(' :: inner ++ [.char ')'] := by
  constructor
  · rintro ⟨inner,hs⟩
    exact ⟨inner,Fragment.eq_text_of_shape hs⟩
  · rintro ⟨inner,rfl⟩
    exact ⟨inner,Fragment.shape_group (hp.group inner rfl)⟩

theorem shape_integer_iff : (∃ negative digits, text.shape = .integer negative digits) ↔
    ∃ cs : List Char, cs ≠ [] ∧ (∀ c ∈ cs, c.isDigit = true) ∧
      (text = cs.map .char ∨ text = .char '-' :: cs.map .char) := by
  constructor
  · rintro ⟨negative,digits,hs⟩
    have ht := Fragment.eq_text_of_shape hs
    cases Fragment.formed_of_shape hs with
    | integer _ hne hd =>
      refine ⟨_,hne,hd,?_⟩
      cases negative with
      | false => exact .inl ht
      | true => exact .inr ht
  · rintro ⟨cs,hne,hd,rfl | rfl⟩
    · exact ⟨false,_,Fragment.shape_number hne hd⟩
    · exact ⟨true,_,Fragment.shape_minus_number hne hd⟩

theorem shape_name_iff : (∃ letters, text.shape = .name letters) ↔
    ∃ cs : List Char, cs ≠ [] ∧ (∀ c ∈ cs, c.isAlpha = true) ∧ text = cs.map .char := by
  constructor
  · rintro ⟨letters,hs⟩
    have ht := Fragment.eq_text_of_shape hs
    cases Fragment.formed_of_shape hs with
    | name hne ha => exact ⟨_,hne,ha,ht⟩
  · rintro ⟨cs,hne,ha,rfl⟩
    exact ⟨_,Fragment.shape_name hne ha⟩

theorem shape_reference_iff : (∃ i content, text.shape = .reference i content) ↔
    ∃ i content, text = [.ref i content] := by
  constructor
  · rintro ⟨i,content,hs⟩
    exact ⟨i,content,Fragment.eq_text_of_shape hs⟩
  · rintro ⟨i,content,rfl⟩
    exact ⟨i,content,Fragment.shape_ref i content⟩

/-- A minus in front of digits belongs to a number. -/
theorem shape_negation_iff (hi : ¬∃ negative digits, text.shape = .integer negative digits) :
    (∃ a, text.shape = .negation a) ↔ ∃ a : Fragment, a.Operand ∧ text = .char '-' :: a := by
  constructor
  · rintro ⟨a,hs⟩
    have ht := Fragment.eq_text_of_shape hs
    cases Fragment.formed_of_shape hs with
    | negation ha => exact ⟨a,ha,ht⟩
  · rintro ⟨a,ha,rfl⟩
    have hs := Fragment.shape_minus_operand ha
    split at hs
    · exact absurd ⟨_,_,hs⟩ hi
    · exact ⟨a,hs⟩

theorem rule_code (h : text.Allowed) (hp : text.Plain) :
    rule (code text) = .ok (ruleOf text.shape) := by
  by_cases hn : text = []
  · subst hn
    rfl
  obtain ⟨l,hl,hbl⟩ := isLogarithm_code h
  obtain ⟨g,hg,hbg⟩ := isGroup_code h
  obtain ⟨m,hm,hbm⟩ := isNegation_code h hn
  rw [← shape_logarithm_iff] at hbl
  rw [← shape_group_iff hp] at hbg
  have hbi := (isInteger_code h).trans shape_integer_iff.symm
  have hbn : isName (code text) = true ↔ ∃ letters, text.shape = .name letters :=
    decide_eq_true_iff.trans ((letters_whole_iff h []).trans shape_name_iff.symm)
  have hbr : isReference (code text) = true ↔ ∃ i content, text.shape = .reference i content :=
    decide_eq_true_iff.trans ((reference_whole_iff h []).trans shape_reference_iff.symm)
  rw [rule_eq (fun hc => hn ((code_eq_nil_iff h).mp hc)) hl hg hm]
  congr 1
  cases hs : text.shape with
  | logarithm inner => simp [hbl,hs,ruleOf]
  | group inner => simp [hbl,hbg,hs,ruleOf]
  | integer negative digits => simp [hbl,hbg,hbi,hs,ruleOf]
  | name letters => simp [hbl,hbg,hbi,hbn,hs,ruleOf]
  | reference i content => simp [hbl,hbg,hbi,hbn,hbr,hs,ruleOf]
  | negation a =>
    rw [← shape_negation_iff (by simp [hs])] at hbm
    simp [hbl,hbg,hbi,hbn,hbr,hbm,hs,ruleOf]
  | operation op a b =>
    rw [← shape_negation_iff (by simp [hs])] at hbm
    simp [hbl,hbg,hbi,hbn,hbr,hbm,hs,ruleOf,pairRule_of_operation h hp hs]
  | juxtaposition a b =>
    rw [← shape_negation_iff (by simp [hs])] at hbm
    simp [hbl,hbg,hbi,hbn,hbr,hbm,hs,ruleOf,pairRule_of_juxtaposition h hp hs]
  | unknown u =>
    rw [← shape_negation_iff (by simp [hs])] at hbm
    simp [hbl,hbg,hbi,hbn,hbr,hbm,hs,ruleOf,
      pairRule_of_neither h hp (by simp [hs]) (by simp [hs])]

end Rule

end Fluxion.Formula.Inline
