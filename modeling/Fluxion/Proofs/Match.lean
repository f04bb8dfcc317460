import Fluxion.Expr.Basic
import Fluxion.Proofs.Site

/-! What the patterns of the tiers match. Every match has one of a few forms, made of
operands and signs, and each of these forms is a match wherever it stands. -/
namespace Fluxion

def BinaryOp.tier : BinaryOp → Formula.Tier
  | .plus | .minus => .sum
  | .times | .divide => .product
  | .power => .power

namespace Formula

theorem Pattern.seq_eq_some {p q : Pattern} {text a rest : Fragment}
    (h : p.seq q text = some (a, rest)) :
    ∃ b c mid, p text = some (b, mid) ∧ q mid = some (c, rest) ∧ a = b ++ c := by
  simp only [Pattern.seq] at h
  split at h
  · cases h
  · rename_i b mid hb
    obtain ⟨⟨c,rest⟩,hc,he⟩ := Option.map_eq_some_iff.mp h
    cases he
    exact ⟨b,c,mid,hb,hc,rfl⟩

theorem Pattern.seq_ne_none {p q : Pattern} {text b mid : Fragment} (hp : p text = some (b, mid))
    (hq : q mid ≠ none) : p.seq q text ≠ none := by
  simpa [Pattern.seq,hp] using hq

theorem Pattern.seq_of_some {p q : Pattern} {text a b rest after : Fragment}
    (hp : p text = some (a, rest)) (hq : q rest = some (b, after)) :
    p.seq q text = some (a ++ b, after) := by
  simp [Pattern.seq,hp,hq]

theorem Pattern.orElse_of_some {p q : Pattern} {text : Fragment} {r : Fragment × Fragment}
    (h : p text = some r) : p.orElse q text = some r := by
  simp [Pattern.orElse,h]

theorem Pattern.orElse_eq_some {p q : Pattern} {text : Fragment} {r : Fragment × Fragment}
    (h : p.orElse q text = some r) : p text = some r ∨ q text = some r := by
  simp only [Pattern.orElse] at h
  split at h
  · exact .inr h
  · rename_i r' hr
    cases h
    exact .inl hr

theorem Pattern.single_eq_some {p : Token → Bool} {text a rest : Fragment}
    (h : single p text = some (a, rest)) : ∃ t, text = t :: rest ∧ a = [t] ∧ p t = true := by
  cases text with
  | nil => simp [single] at h
  | cons t text =>
    simp only [single] at h
    split at h
    · rename_i ht
      cases h
      exact ⟨t,rfl,rfl,ht⟩
    · cases h

theorem Pattern.sign_eq_some {cs : List Char} {text a rest : Fragment}
    (h : sign cs text = some (a, rest)) : ∃ c ∈ cs, text = .char c :: rest ∧ a = [.char c] := by
  obtain ⟨t,rfl,rfl,ht⟩ := single_eq_some h
  cases t with
  | char c => exact ⟨c,by simpa using ht,rfl,rfl⟩
  | ref i a => simp at ht

theorem Pattern.sign_cons {cs : List Char} {c : Char} (h : c ∈ cs) (rest : Fragment) :
    sign cs (.char c :: rest) = some ([.char c], rest) := by
  simp [sign,single,h]

theorem Pattern.exists_operand {t : Token} (h : t.isOperand = true) (rest : Fragment) :
    ∃ a after, operand (t :: rest) = some (a, after) := by
  have hn : operand (t :: rest) ≠ none := by
    rw [ne_eq,operand_eq_none_iff]
    simp [h]
  obtain ⟨⟨a,after⟩,ha⟩ := Option.ne_none_iff_exists'.mp hn
  exact ⟨a,after,ha⟩

def Fragment.Flat (text : Fragment) : Prop := ∀ t ∈ text, t.isParenthesis = false

theorem Pattern.group?_eq_some {text inner after : Fragment}
    (h : group? text = some (inner, after)) :
    text = .char '(' :: inner ++ .char ')' :: after ∧ inner.Flat := by
  refine ⟨eq_of_group? h,?_⟩
  unfold group? at h
  split at h
  · split at h
    · cases h
      intro t ht
      simpa using List.mem_takeWhile_imp ht
    · cases h
  · cases h

theorem Pattern.group?_flat {inner : Fragment} (h : inner.Flat) (after : Fragment) :
    group? (.char '(' :: inner ++ .char ')' :: after) = some (inner, after) := by
  have hp : ∀ t ∈ inner, (! t.isParenthesis) = true := by simpa [Fragment.Flat] using h
  have ht : (inner ++ .char ')' :: after).takeWhile (! ·.isParenthesis) = inner ++
      (Token.char ')' :: after).takeWhile (! ·.isParenthesis) := List.takeWhile_append_of_pos hp
  have hd : (inner ++ .char ')' :: after).dropWhile (! ·.isParenthesis) =
      (Token.char ')' :: after).dropWhile (! ·.isParenthesis) := List.dropWhile_append_of_pos hp
  simp only [List.cons_append,group?,ht,hd]
  simp [Token.isParenthesis]

/-- The forms of matches, together with what may follow them. -/
inductive Tier.Match : Tier → Fragment → Fragment → Prop
  | logarithm {inner : Fragment} (h : inner.Flat) (after : Fragment) :
    Match .logarithm (.char 'l' :: .char 'n' :: .char '(' :: inner ++ [.char ')']) after
  | group {inner : Fragment} (h : inner.Flat) (after : Fragment) :
    Match .group (.char '(' :: inner ++ [.char ')']) after
  | negation {a after : Fragment} (ha : a.Operand) (he : a.Ends after)
    (hp : ∀ t ∈ after.head?, t ≠ .char '^') : Match .negation (.char '-' :: a) after
  | cut {a : Fragment} {x : Token} (hn : a ≠ []) (ha : (a ++ [x]).Operand) (after : Fragment) :
    Match .negation (.char '-' :: a) (x :: .char '^' :: after)
  | operation (op : BinaryOp) {a b after : Fragment} (ha : a.Operand) (hb : b.Operand)
    (he : b.Ends after) : Match op.tier (a ++ .char op.symbol :: b) after
  | reference {a : Fragment} (ha : a.Operand) (i : Nat) (content after : Fragment) :
    Match .product (a ++ [.ref i content]) after
  | coefficient {a : Fragment} {x : Token} (ha : a.Operand) (hn : ∀ t ∈ a, t.isLetter = false)
    (hx : x.isLetter = true) (after : Fragment) : Match .coefficient (a ++ [x]) after

namespace Tier

theorem match_of_negation {text m after : Fragment} (h : Pattern.negation text = some (m, after)) :
    Match .negation m after := by
  unfold Pattern.negation at h
  split at h
  · rename_i rest
    split at h
    · rename_i a w ha
      obtain ⟨rfl,ho,-⟩ := Pattern.operand_eq_some_iff.mp ha
      split at h
      · cases h
      · rename_i hn
        cases h
        obtain ⟨b,x,rfl⟩ : ∃ b x, a = b ++ [x] :=
          ⟨a.dropLast,a.getLast (by rintro rfl; exact hn rfl),(List.dropLast_concat_getLast _).symm⟩
        rw [List.dropLast_concat] at hn
        simpa using Match.cut hn ho w
    · rename_i a w hc ha
      cases h
      obtain ⟨rfl,ho,he⟩ := Pattern.operand_eq_some_iff.mp ha
      refine .negation ho he ?_
      rintro t ht rfl
      cases after with
      | nil => cases ht
      | cons t after => cases ht; exact hc _ rfl
    · cases h
  · cases h

theorem match_of_operation {cs : List Char} {text m after : Fragment}
    (h : ((Pattern.operand.seq (Pattern.sign cs)).seq Pattern.operand) text = some (m, after)) :
    ∃ a b : Fragment, ∃ c ∈ cs, m = a ++ .char c :: b ∧ a.Operand ∧ b.Operand ∧ b.Ends after := by
  obtain ⟨l,b,mid,hl,hb,rfl⟩ := Pattern.seq_eq_some h
  obtain ⟨a,s,mid',ha,hs,rfl⟩ := Pattern.seq_eq_some hl
  obtain ⟨c,hc,rfl,rfl⟩ := Pattern.sign_eq_some hs
  obtain ⟨rfl,hao,-⟩ := Pattern.operand_eq_some_iff.mp ha
  obtain ⟨rfl,hbo,he⟩ := Pattern.operand_eq_some_iff.mp hb
  exact ⟨a,b,c,hc,by simp,hao,hbo,he⟩

theorem match_of_product {text m after : Fragment} (h : Pattern.product text = some (m, after)) :
    Match .product m after := by
  obtain ⟨a,b,mid,ha,hb,rfl⟩ := Pattern.seq_eq_some h
  obtain ⟨rfl,hao,-⟩ := Pattern.operand_eq_some_iff.mp ha
  rcases Pattern.orElse_eq_some hb with hb | hb
  · obtain ⟨s,d,mid',hs,hd,rfl⟩ := Pattern.seq_eq_some hb
    obtain ⟨c,hc,rfl,rfl⟩ := Pattern.sign_eq_some hs
    obtain ⟨rfl,hdo,he⟩ := Pattern.operand_eq_some_iff.mp hd
    simp only [List.mem_cons,List.not_mem_nil,or_false] at hc
    rcases hc with rfl | rfl
    · exact .operation .times hao hdo he
    · exact .operation .divide hao hdo he
  · obtain ⟨t,rfl,rfl,ht⟩ := Pattern.single_eq_some hb
    cases t with
    | char c => cases ht
    | ref i content => exact .reference hao i content after

theorem match_of_coefficient {text m after : Fragment}
    (h : Pattern.coefficient text = some (m, after)) : Match .coefficient m after := by
  obtain ⟨a,b,mid,ha,hb,rfl⟩ := Pattern.seq_eq_some h
  obtain ⟨x,rfl,rfl,hx⟩ := Pattern.single_eq_some hb
  rcases Pattern.orElse_eq_some ha with ha | ha
  · obtain ⟨-,hn,hd,-⟩ := Pattern.run_eq_some_iff.mp ha
    obtain ⟨cs,rfl,hc⟩ := Fragment.eq_map_char_of_isDigit hd
    exact .coefficient (.number (by simpa using hn) hc)
      (fun t ht => Token.not_isLetter_of_isDigit (hd t ht)) hx after
  · obtain ⟨t,-,rfl,ht⟩ := Pattern.single_eq_some ha
    cases t with
    | char c => cases ht
    | ref i content =>
      refine .coefficient (.reference i content) (fun t ht => ?_) hx after
      rw [List.mem_singleton.mp ht]
      rfl

theorem match_of_logarithm {text m after : Fragment}
    (h : Pattern.logarithm text = some (m, after)) : Match .logarithm m after := by
  obtain ⟨l,g,mid,hl,hg,rfl⟩ := Pattern.seq_eq_some h
  obtain ⟨s,s',mid',hs,hs',rfl⟩ := Pattern.seq_eq_some hl
  obtain ⟨c,hc,-,rfl⟩ := Pattern.sign_eq_some hs
  obtain ⟨c',hc',-,rfl⟩ := Pattern.sign_eq_some hs'
  obtain ⟨⟨inner,rest⟩,hi,he⟩ := Option.map_eq_some_iff.mp hg
  cases he
  cases List.mem_singleton.mp hc
  cases List.mem_singleton.mp hc'
  exact .logarithm (Pattern.group?_eq_some hi).2 after

/-- Every match has one of the forms. -/
theorem match_of_pattern {tier : Tier} {text m after : Fragment}
    (h : tier.pattern text = some (m, after)) : tier.Match m after := by
  cases tier with
  | logarithm => exact match_of_logarithm h
  | group =>
    obtain ⟨⟨inner,rest⟩,hi,he⟩ := Option.map_eq_some_iff.mp h
    cases he
    exact .group (Pattern.group?_eq_some hi).2 after
  | negation => exact match_of_negation h
  | power =>
    obtain ⟨a,b,c,hc,rfl,ha,hb,he⟩ := match_of_operation h
    cases List.mem_singleton.mp hc
    exact .operation .power ha hb he
  | product => exact match_of_product h
  | coefficient => exact match_of_coefficient h
  | sum =>
    obtain ⟨a,b,c,hc,rfl,ha,hb,he⟩ := match_of_operation h
    simp only [List.mem_cons,List.not_mem_nil,or_false] at hc
    rcases hc with rfl | rfl
    · exact .operation .plus ha hb he
    · exact .operation .minus ha hb he

theorem First.match {text : Fragment} {tier : Tier} {s : Site} (h : First text tier s) :
    tier.Match s.matched s.after := by
  have hh := h.here
  unfold match? at hh
  split at hh
  · exact match_of_pattern hh
  · cases hh

section Existence

variable {a rest : Fragment} {t : Token}

theorem operand_sign (ha : a.Operand) {c : Char} (hc : (Token.char c).isOperand = false)
    (rest : Fragment) : Pattern.operand (a ++ .char c :: rest) = some (a, .char c :: rest) := by
  refine Pattern.operand_eq_some_iff.mpr ⟨rfl,ha,fun x _ t ht => ?_⟩
  cases ht
  simp only [Token.isOperand,Bool.or_eq_false_iff] at hc
  simp [Token.prolongs,hc]

/-- Two operands with a sign between them are a match of the tier of the sign. -/
theorem pattern_operation (op : BinaryOp) (ha : a.Operand) {b after : Fragment}
    (hb : Pattern.operand rest = some (b, after)) :
    op.tier.pattern (a ++ .char op.symbol :: rest) = some (a ++ .char op.symbol :: b, after) := by
  have hl := operand_sign ha (c := op.symbol) (by cases op <;> rfl) rest
  have hseq : ∀ cs : List Char, op.symbol ∈ cs →
      ((Pattern.operand.seq (Pattern.sign cs)).seq Pattern.operand) (a ++ .char op.symbol :: rest) =
        some (a ++ .char op.symbol :: b, after) := by
    intro cs hc
    have h := Pattern.seq_of_some (Pattern.seq_of_some hl (Pattern.sign_cons hc rest)) hb
    rwa [List.append_assoc,List.singleton_append] at h
  have hprod : ∀ cs : List Char, op.symbol ∈ cs → (Pattern.operand.seq
      (((Pattern.sign cs).seq Pattern.operand).orElse Pattern.reference))
        (a ++ .char op.symbol :: rest) = some (a ++ .char op.symbol :: b, after) := fun cs hc =>
    Pattern.seq_of_some hl
      (Pattern.orElse_of_some (Pattern.seq_of_some (Pattern.sign_cons hc rest) hb))
  cases op with
  | plus => exact hseq ['+', '-'] (by decide)
  | minus => exact hseq ['+', '-'] (by decide)
  | times => exact hprod ['*', '/'] (by decide)
  | divide => exact hprod ['*', '/'] (by decide)
  | power => exact hseq ['^'] (by decide)

theorem operation_ne_none (op : BinaryOp) (ha : a.Operand) (ht : t.isOperand = true)
    (rest : Fragment) : op.tier.pattern (a ++ .char op.symbol :: t :: rest) ≠ none := by
  obtain ⟨b,after,hb⟩ := Pattern.exists_operand ht rest
  simp [pattern_operation op ha hb]

theorem reference_ne_none (ha : a.Operand) (i : Nat) (content rest : Fragment) :
    Pattern.product (a ++ .ref i content :: rest) ≠ none := by
  have ho : Pattern.operand (a ++ .ref i content :: rest) = some (a, .ref i content :: rest) :=
    Pattern.operand_eq_some_iff.mpr ⟨rfl,ha,a.ends_ref i content rest⟩
  refine Pattern.seq_ne_none ho ?_
  simp [Pattern.orElse,Pattern.seq,Pattern.sign,Pattern.single,Pattern.reference,
      Token.isReference]

/-- What a letter can be a factor of: an operand without letters. -/
theorem coefficient_factor (ha : a.Operand) (hn : ∀ t ∈ a, t.isLetter = false)
    (ht : t.isLetter = true) (rest : Fragment) :
    (Pattern.digits.orElse Pattern.reference) (a ++ t :: rest) = some (a, t :: rest) := by
  cases ha with
  | name hne hc => exact absurd hn (Fragment.has_letter hne hc)
  | @number cs hne hc =>
    refine Pattern.orElse_of_some (Pattern.run_eq_some_iff.mpr
      ⟨rfl,by simpa using hne,by simpa [Token.isDigit] using hc,?_⟩)
    intro u hu
    cases hu
    exact Token.not_isDigit_of_isLetter ht
  | reference i content =>
    simp [Pattern.orElse,Pattern.digits,Pattern.run,Pattern.reference,Pattern.single,Token.isDigit,
      Token.isReference]

theorem coefficient_ne_none (ha : a.Operand) (hn : ∀ t ∈ a, t.isLetter = false)
    (ht : t.isLetter = true) (rest : Fragment) : Pattern.coefficient (a ++ t :: rest) ≠ none := by
  have hl : Pattern.letter (t :: rest) ≠ none := by simp [Pattern.letter,Pattern.single,ht]
  exact Pattern.seq_ne_none (coefficient_factor ha hn ht rest) hl

/-- Where no minus matches, one in front of an operand is that of a power of one token. -/
theorem Nowhere.power_of_minus {text u w : Fragment} (hn : negation.Nowhere text)
    (hu : ∀ x ∈ u.getLast?, x.isOperator = true) (ht : t.isOperand = true)
    (htext : text = u ++ .char '-' :: t :: w) : ∃ rest, w = .char '^' :: rest := by
  obtain ⟨a,rest,ha⟩ := Pattern.exists_operand ht w
  have hallowed : negation.allowedAfter u.getLast? = true := by
    cases hlast : u.getLast? with
    | none => rfl
    | some c => exact hu c hlast
  have hmatch := hn u (.char '-' :: t :: w) htext
  simp only [match?,hallowed,if_true,pattern,Pattern.negation,ha] at hmatch
  obtain ⟨hta,hao,-⟩ := Pattern.operand_eq_some_iff.mp ha
  split at hmatch
  · rename_i b rest' he
    cases he
    split at hmatch
    · rename_i hdrop
      obtain ⟨b,c,rfl⟩ := List.eq_nil_or_concat' a |>.resolve_left hao.ne_nil
      rw [List.dropLast_concat] at hdrop
      subst hdrop
      exact ⟨rest',(List.cons_eq_cons.mp hta).2⟩
    · cases hmatch
  · cases hmatch
  · simp_all

theorem Nowhere.not_minus {text u w : Fragment} (hn : negation.Nowhere text)
    (hu : ∀ x ∈ u.getLast?, x.isOperator = true) (ha : a.Operand)
    (hw : ∀ t ∈ w.head?, t ≠ .char '^') (htext : text = u ++ .char '-' :: (a ++ w)) : False := by
  obtain ⟨t,a,rfl⟩ := List.exists_cons_of_ne_nil ha.ne_nil
  obtain ⟨rest,hrest⟩ := hn.power_of_minus hu (ha.isOperand t (by simp)) htext
  cases a with
  | nil =>
    subst hrest
    exact hw _ rfl rfl
  | cons x a =>
    obtain ⟨rfl,-⟩ := List.cons_eq_cons.mp hrest
    cases ha.isOperand (.char '^') (by simp)

theorem group_ne_none {inner : Fragment} (h : inner.Flat) (rest : Fragment) :
    Pattern.group (.char '(' :: inner ++ .char ')' :: rest) ≠ none := by
  rw [Pattern.group,Pattern.group?_flat h rest]
  simp

theorem logarithm_ne_none {inner : Fragment} (h : inner.Flat) (rest : Fragment) :
    Pattern.logarithm (.char 'l' :: .char 'n' :: (.char '(' :: inner ++ .char ')' :: rest)) ≠
      none := by
  refine Pattern.seq_ne_none (b := [.char 'l', .char 'n']) ?_ (group_ne_none h rest)
  simp [Pattern.seq,Pattern.sign,Pattern.single]

end Existence

end Tier
end Formula
end Fluxion
