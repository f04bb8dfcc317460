import Fluxion.Proofs.Leftovers

/-! What texts that are built have in common. Such a text has been left over by a collapse, or it
is a match or an operand of one, so no operand of a product has a minus of its own in it, and no
factor is in front of a name. -/
namespace Fluxion.Formula

/-- What texts that are built have in common. -/
structure Fragment.Plain (text : Fragment) : Prop where
  group : ∀ inner : Fragment, text = .char '(' :: inner ++ [.char ')'] → inner.Flat
  /-- A minus in front is that of all that follows. -/
  minus : ∀ a w : Fragment, text = .char '-' :: (a ++ w) → a.Operand → a.Ends w →
    (∀ t ∈ w.head?, t ≠ .char '^') → w = []
  /-- There is no minus behind an operator. -/
  sign : ∀ (u : Fragment) (t : Token) (a : Fragment), text = u ++ t :: .char '-' :: a →
    t.isOperator = true → ¬a.Operand
  /-- A factor that is no name is in front of one letter at most. -/
  letters : ∀ (a : Fragment) (t : Token) (b : Fragment), text = a ++ t :: b → a.Operand →
    (∀ x ∈ a, x.isLetter = false) → (∀ x ∈ t :: b, x.isLetter = true) → b = []

namespace Fragment

variable {text a b : Fragment}

theorem plain_of_isOperand (h : ∀ t ∈ text, t.isOperand = true)
    (hl : ∀ (a : Fragment) (t : Token) (b : Fragment), text = a ++ t :: b → a.Operand →
      (∀ x ∈ a, x.isLetter = false) → (∀ x ∈ t :: b, x.isLetter = true) → b = []) :
    text.Plain where
  group inner ht := by cases h (.char '(') (by simp [ht])
  minus a w ht := by cases h (.char '-') (by simp [ht])
  sign u t a ht := by cases h (.char '-') (by simp [ht])
  letters := hl

theorem Operand.plain (h : text.Operand) : text.Plain := by
  refine plain_of_isOperand h.isOperand fun a t b ht ha hn hl => ?_
  have hx := hl t (by simp)
  obtain ⟨y,hy⟩ := List.exists_mem_of_ne_nil a ha.ne_nil
  have hy' := h.isLetter_of_mem (x := t) (by simp [ht]) hx y (by simp [ht,hy])
  rw [hn y hy] at hy'
  cases hy'

theorem sign_of_operands {t x : Token} {u w : Fragment} (ha : ∀ y ∈ a, y.isOperand = true)
    (hb : ∀ y ∈ b, y.isOperand = true) (ht : a ++ t :: b = u ++ x :: .char '-' :: w) :
    x.isOperand = true := by
  by_contra hx
  have hx : x.isOperand = false := by simpa using hx
  have hm : (Token.char '-').isOperand = false := rfl
  have hcount := congrArg (List.countP fun y => !y.isOperand) ht
  have hca : a.countP (fun y => !y.isOperand) = 0 := by
    simpa [List.countP_eq_zero] using ha
  have hcb : b.countP (fun y => !y.isOperand) = 0 := by
    simpa [List.countP_eq_zero] using hb
  simp only [List.countP_append,List.countP_cons,hca,hcb,hx,hm] at hcount
  simp at hcount
  split at hcount <;> omega

theorem plain_minus (h : a.Operand) : Plain (.char '-' :: a) where
  group inner ht := by
    obtain ⟨ht,-⟩ := List.cons_eq_cons.mp ht
    cases ht
  minus b w ht hb he _ := by
    obtain ⟨-,rfl⟩ := List.cons_eq_cons.mp ht
    have hs := operand_self h
    rw [Pattern.operand_eq_some_iff.mpr ⟨rfl,hb,he⟩] at hs
    exact (Prod.mk.inj (Option.some.inj hs)).2
  sign u t b ht ho _ := by
    have hx := sign_of_operands (a := []) (by simp) h.isOperand ht
    rw [Token.not_isOperand_of_isOperator ho] at hx
    cases hx
  letters b t w ht hb _ _ := by
    obtain ⟨x,b,rfl⟩ := List.exists_cons_of_ne_nil hb.ne_nil
    obtain ⟨rfl,-⟩ := List.cons_eq_cons.mp ht
    cases hb.isOperand _ (List.mem_cons_self ..)

theorem plain_operation (op : BinaryOp) (ha : a.Operand) (hb : b.Operand) :
    Plain (a ++ .char op.symbol :: b) := by
  have hsym : (Token.char op.symbol).isOperand = false := by cases op <;> rfl
  obtain ⟨t,a,rfl⟩ := List.exists_cons_of_ne_nil ha.ne_nil
  have hhead := ha.isOperand t (by simp)
  constructor
  · intro inner ht
    obtain ⟨rfl,-⟩ := List.cons_eq_cons.mp ht
    cases hhead
  · intro c w ht
    obtain ⟨rfl,-⟩ := List.cons_eq_cons.mp ht
    cases hhead
  · intro u t' c ht ho _
    have hx := sign_of_operands ha.isOperand hb.isOperand ht
    rw [Token.not_isOperand_of_isOperator ho] at hx
    cases hx
  · intro c t' w ht hc _ hl
    have hm : Token.char op.symbol ∈ c ++ t' :: w := by
      rw [← ht]
      simp
    rcases List.mem_append.mp hm with hm | hm
    · have hx := hc.isOperand _ hm
      rw [hsym] at hx
      cases hx
    · have hx := hl _ hm
      rw [Token.isOperand,hx] at hsym
      cases hsym

theorem plain_of_close {t : Token} (ht : t ≠ .char '-') (hg : ∀ inner : Fragment,
    t :: a ++ [.char ')'] = .char '(' :: inner ++ [.char ')'] → inner.Flat) :
    Plain (t :: a ++ [.char ')']) where
  group := hg
  minus b w h := absurd (List.cons_eq_cons.mp h).1 ht
  sign u x b h _ hb := by
    obtain ⟨y,hy,ho⟩ := hb.getLast?
    have hl := congrArg List.getLast? h
    rw [List.getLast?_concat,List.getLast?_append,List.getLast?_cons,List.getLast?_cons,
      Option.mem_def.mp hy] at hl
    cases hl
    cases ho
  letters b x w h _ _ hl := by
    have hm : Token.char ')' ∈ x :: w := by
      have hlast := congrArg List.getLast? h
      rw [List.getLast?_concat,List.getLast?_append,List.getLast?_cons] at hlast
      exact List.mem_of_getLast? (by rw [List.getLast?_cons]; exact hlast.symm)
    cases hl _ hm

theorem plain_group (h : a.Flat) : Plain (.char '(' :: a ++ [.char ')']) := by
  refine plain_of_close (by simp) fun inner ht => ?_
  have ht := (List.cons_eq_cons.mp ht).2
  rwa [← (List.append_inj' ht rfl).1]

theorem plain_logarithm (a : Fragment) :
    Plain (.char 'l' :: .char 'n' :: .char '(' :: a ++ [.char ')']) := by
  refine plain_of_close (a := .char 'n' :: .char '(' :: a) (by simp) fun inner ht => ?_
  have ht := (List.cons_eq_cons.mp ht).1
  simp at ht

theorem plain_concat {t : Token} (ha : a.Operand) (ht : t.isReference = true ∨ t.isLetter = true ∧
    ∀ x ∈ a, x.isLetter = false) : Plain (a ++ [t]) := by
  refine plain_of_isOperand (fun x hx => ?_) fun b x w h _ hb hl => ?_
  · rcases List.mem_append.mp hx with hx | hx
    · exact ha.isOperand x hx
    · rw [List.mem_singleton.mp hx]
      rcases ht with ht | ⟨ht,-⟩ <;> simp [Token.isOperand,ht]
  · obtain rfl | ⟨w,y,rfl⟩ := List.eq_nil_or_concat' w
    · rfl
    exfalso
    rw [← List.cons_append,← List.append_assoc] at h
    obtain ⟨rfl,hy⟩ := List.append_inj' h rfl
    obtain rfl := List.singleton_inj.mp hy
    rcases ht with ht | ⟨-,hn⟩
    · have hy := hl t (by simp)
      cases t with
      | char c => cases ht
      | ref i content => cases hy
    · have hx := hl x (by simp)
      rw [hn x (by simp)] at hx
      cases hx

theorem plain_match {tier : Tier} {after : Fragment} (h : tier.Match text after) : text.Plain := by
  cases h with
  | logarithm hi => exact plain_logarithm _
  | group hi => exact plain_group hi
  | negation ha he hp => exact plain_minus ha
  | cut hn ha w => exact plain_minus (ha.of_concat hn)
  | operation op ha hb he => exact plain_operation op ha hb
  | reference ha i content => exact plain_concat ha (.inl rfl)
  | coefficient ha hn hx => exact plain_concat ha (.inr ⟨hx,hn⟩)

theorem plain_of_nowhere (h : ∀ tier : Tier, tier.Nowhere text) : text.Plain where
  group inner ht := absurd (List.mem_cons_self ..)
    ((h .group).not_mem_open (u := .char '(' :: inner) (w := []) ht)
  minus a w ht ha he hw := ((h .negation).not_minus (u := []) (by simp) ha hw ht).elim
  sign u t a ht ho ha := (h .negation).not_minus (u := u ++ [t]) (w := []) (by simpa using ho) ha
    (by simp) (by simp [ht])
  letters a t b ht ha hn hl :=
    absurd (h .coefficient [] _ ht) (Tier.coefficient_ne_none ha hn (hl t (by simp)) b)

end Fragment
end Fluxion.Formula
