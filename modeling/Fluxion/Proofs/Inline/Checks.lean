import Fluxion.Proofs.Form
import Fluxion.Proofs.Inline.Cascade

/-! The checks on written texts that a text is built by, up to those for two operands: what they
find in the bytes of a text is what there is in its tokens. -/
namespace Fluxion.Formula.Inline

section Ends

variable {text : Fragment} {c : Char} {src : List UInt8}

theorem eq_cons_of_code (h : text.Allowed) (hc : c.toNat < 128) (hn : c ≠ '[')
    (he : code text = c.toUInt8 :: src) : ∃ rest, text = .char c :: rest ∧ code rest = src := by
  cases text with
  | nil => cases he
  | cons t rest =>
    cases t with
    | char d =>
      have hd := (Fragment.allowed_char.mp h).1
      rw [code_char hd] at he
      obtain ⟨hb,rfl⟩ := List.cons_eq_cons.mp he
      have hb := congrArg Char.ofUInt8 hb
      rw [decode_of_ascii (toNat_lt_of_isAllowed hd),decode_of_ascii hc] at hb
      exact ⟨rest,by rw [hb],rfl⟩
    | ref i content =>
      rw [code_ref] at he
      have hb := congrArg Char.ofUInt8 (List.cons_eq_cons.mp he).1
      rw [decode_of_ascii (by decide),decode_of_ascii hc] at hb
      exact absurd hb.symm hn

theorem eq_concat_of_code (h : text.Allowed) (hc : c.toNat < 128) (hn : c ≠ ']')
    (he : code text = src ++ [c.toUInt8]) :
    ∃ front, text = front ++ [.char c] ∧ code front = src := by
  obtain rfl | ⟨front,t,rfl⟩ := List.eq_nil_or_concat' text
  · simp at he
  cases t with
  | char d =>
    have hd := (Fragment.allowed_char.mp (Fragment.allowed_append.mp h).2).1
    rw [code_append,code_char hd,code_nil] at he
    obtain ⟨rfl,hb⟩ := List.append_inj' he rfl
    have hb := congrArg Char.ofUInt8 (List.singleton_inj.mp hb)
    rw [decode_of_ascii (toNat_lt_of_isAllowed hd),decode_of_ascii hc] at hb
    exact ⟨front,by rw [hb],rfl⟩
  | ref i content =>
    rw [code_append,code_ref,code_nil,← List.cons_append,← List.append_assoc] at he
    have hb := congrArg Char.ofUInt8 (List.singleton_inj.mp (List.append_inj' he rfl).2)
    rw [decode_of_ascii (by decide),decode_of_ascii hc] at hb
    exact absurd hb.symm hn

theorem flat_iff_code (h : text.Allowed) :
    ((code text).all fun b => !byteIs (· ∈ ['(', ')']) b) = true ↔ text.Flat := by
  induction text with
  | nil => simp [Fragment.Flat]
  | cons t text ih =>
    rw [code_cons,List.all_append,Bool.and_eq_true]
    have ht : ((code [t]).all fun b => !byteIs (· ∈ ['(', ')']) b) = true ↔
        t.isParenthesis = false := by
      cases t with
      | char d =>
        have hd := (Fragment.allowed_char.mp h).1
        rw [code_char hd]
        simp [byteIs_of_isAllowed hd,Token.isParenthesis]
      | ref i content =>
        rw [code_ref]
        have hb : ∀ b ∈ '['.toUInt8 :: (number i ++ ']'.toUInt8 :: code []),
            (! byteIs (· ∈ ['(', ')']) b) = true := fun b hb => by
          rw [not_parenthesis_of_ref i b hb]
          rfl
        exact iff_of_true (List.all_eq_true.mpr hb) rfl
    have hs : Fragment.Allowed text := by
      rw [← List.singleton_append] at h
      exact (Fragment.allowed_append.mp h).2
    rw [ht,ih hs]
    simp [Fragment.Flat]

end Ends

/-- A check that does not fail and tells whether something is the case. -/
def Answers (x : Except Fault Bool) (P : Prop) : Prop := ∃ b, x = .ok b ∧ (b = true ↔ P)

section Checks

variable {text : Fragment}

theorem byteSlice_append (a b c : List UInt8) :
    byteSlice (a ++ b ++ c) a.length (a ++ b).length = .ok b := by
  rw [byteSlice,if_pos (by simp),List.take_left,List.drop_left]

theorem code_parentheses (inner : Fragment) :
    code (.char '(' :: inner ++ [.char ')']) = '('.toUInt8 :: code inner ++ [')'.toUInt8] := by
  rw [List.cons_append,code_char rfl,code_append,code_char rfl]
  rfl

theorem code_call (inner : Fragment) :
    code (.char 'l' :: .char 'n' :: .char '(' :: inner ++ [.char ')']) =
      ['l'.toUInt8, 'n'.toUInt8, '('.toUInt8] ++ code inner ++ [')'.toUInt8] := by
  rw [List.cons_append,List.cons_append,code_char rfl,code_char rfl,code_parentheses]
  rfl

theorem byteSlice_call (inner : Fragment) :
    byteSlice (code (.char 'l' :: .char 'n' :: .char '(' :: inner ++ [.char ')'])) 3
      ((code (.char 'l' :: .char 'n' :: .char '(' :: inner ++ [.char ')'])).length - 1) =
        .ok (code inner) := by
  have hslice := byteSlice_append ['l'.toUInt8, 'n'.toUInt8, '('.toUInt8] (code inner)
    [')'.toUInt8]
  rw [← code_call] at hslice
  have hcode := congrArg List.length (code_call inner)
  rw [List.length_append] at hcode
  have hlen := Nat.sub_eq_of_eq_add hcode
  rw [List.length_singleton] at hlen
  rw [hlen]
  exact hslice

theorem exists_call_of_code (h : text.Allowed)
    (hl : ['l'.toUInt8, 'n'.toUInt8, '('.toUInt8] <+: code text)
    (hr : [')'.toUInt8] <:+ code text) :
    ∃ inner : Fragment, text = .char 'l' :: .char 'n' :: .char '(' :: inner ++ [.char ')'] := by
  obtain ⟨src,hsrc⟩ := hl
  obtain ⟨front,hfront⟩ := hr
  obtain ⟨_,rfl,hn⟩ := eq_cons_of_code h (by decide) (by decide) hsrc.symm
  have h' := (Fragment.allowed_char.mp h).2
  obtain ⟨_,rfl,ho⟩ := eq_cons_of_code h' (by decide) (by decide) hn
  have h' := (Fragment.allowed_char.mp h').2
  obtain ⟨rest,rfl,-⟩ := eq_cons_of_code h' (by decide) (by decide) ho
  obtain ⟨front,hfront,-⟩ := eq_concat_of_code h (by decide) (by decide) hfront.symm
  have hlast := congrArg List.getLast? hfront
  obtain rfl | ⟨inner,x,rfl⟩ := List.eq_nil_or_concat' rest
  · simp at hlast
  obtain rfl : x = .char ')' := by simpa [List.getLast?_cons] using hlast
  exact ⟨inner,rfl⟩

theorem isLogarithm_code (h : text.Allowed) : Answers (isLogarithm (code text))
    (∃ inner : Fragment, inner.Flat ∧
      text = .char 'l' :: .char 'n' :: .char '(' :: inner ++ [.char ')']) := by
  have ho : Text.encode ['l', 'n', '('] = ['l'.toUInt8, 'n'.toUInt8, '('.toUInt8] := by
    simp [encode_of_ascii]
  have hc : Text.encode [')'] = [')'.toUInt8] := by
    simp [encode_of_ascii]
  rw [isLogarithm,ho,hc]
  by_cases hl : ['l'.toUInt8, 'n'.toUInt8, '('.toUInt8] <+: code text
  swap
  · rw [if_pos hl]
    refine ⟨false,rfl,by simp,?_⟩
    rintro ⟨inner,-,rfl⟩
    rw [code_call,List.append_assoc] at hl
    exact absurd (List.prefix_append ..) hl
  rw [if_neg (not_not.mpr hl)]
  by_cases hr : [')'.toUInt8] <:+ code text
  swap
  · change Answers (if _ then _ else _) _
    rw [if_pos hr]
    refine ⟨false,rfl,by simp,?_⟩
    rintro ⟨inner,-,rfl⟩
    rw [code_call] at hr
    exact absurd (List.suffix_append ..) hr
  change Answers (if _ then _ else _) _
  rw [if_neg (not_not.mpr hr)]
  obtain ⟨inner,rfl⟩ := exists_call_of_code h hl hr
  rw [byteSlice_call]
  refine ⟨(code inner).all fun b => !byteIs (· ∈ ['(', ')']) b,rfl,?_⟩
  have hinner : inner.Allowed := by
    simp at h
    simp [h]
  rw [flat_iff_code hinner]
  constructor
  · intro hf
    exact ⟨inner,hf,rfl⟩
  · rintro ⟨inner',hf,ht⟩
    obtain rfl : inner = inner' := by simpa using ht
    exact hf

/-- Whether a text is put in parentheses, whatever is between them. -/
theorem isGroup_code (h : text.Allowed) : Answers (isGroup (code text))
    (∃ inner : Fragment, text = .char '(' :: inner ++ [.char ')']) := by
  rw [isGroup]
  by_cases hl : (code text).length < 2
  · rw [if_pos hl]
    refine ⟨false,rfl,by simp,?_⟩
    rintro ⟨inner,rfl⟩
    rw [code_parentheses,List.cons_append] at hl
    simp at hl
  rw [if_neg hl]
  obtain ⟨b,src,hsrc⟩ := List.exists_cons_of_length_pos (l := code text) (by omega)
  obtain rfl | ⟨mid,b',rfl⟩ := List.eq_nil_or_concat' src
  · simp [hsrc] at hl
  have hfirst : byteAt (code text) 0 = .ok b := by
    rw [hsrc]
    rfl
  have hlast : byteAt (code text) ((code text).length - 1) = .ok b' := by
    have hlen : (code text).length - 1 = (b :: mid).length := by
      rw [hsrc]
      simp
    rw [byteAt,hlen,hsrc,← List.cons_append,getElem?_length]
    rfl
  refine ⟨byteIs (· == '(') b && byteIs (· == ')') b',?_,?_⟩
  · rw [hfirst]
    change (if _ then _ else _) = _
    cases byteIs (· == '(') b with
    | false => rfl
    | true =>
      rw [if_neg (by simp)]
      rw [hlast]
      rfl
  · rw [Bool.and_eq_true,byteIs_beq (by decide),byteIs_beq (by decide)]
    constructor
    · rintro ⟨rfl,rfl⟩
      obtain ⟨rest,rfl,hrest⟩ := eq_cons_of_code h (by decide) (by decide) hsrc
      obtain ⟨inner,rfl,-⟩ := eq_concat_of_code (Fragment.allowed_char.mp h).2 (by decide)
        (by decide) hrest
      exact ⟨inner,rfl⟩
    · rintro ⟨inner,rfl⟩
      rw [code_parentheses] at hsrc
      obtain ⟨rfl,hmid⟩ := List.cons_eq_cons.mp hsrc
      exact ⟨rfl,(List.singleton_inj.mp (List.append_inj' hmid rfl).2).symm⟩

/-- A scanner comes to the end where the pattern leaves nothing. -/
theorem whole_iff {p : Scanner} {P : Pattern} {n : Nat} (hp : Renders p P) (hc : P.Cuts n)
    (h : text.Allowed) (pre : List UInt8) :
    p (pre ++ code text) pre.length = some (pre ++ code text).length ↔
      P text = some (text, []) := by
  rw [hp pre text h,Option.map_eq_some_iff]
  constructor
  · rintro ⟨⟨a,rest⟩,hr,hl⟩
    obtain ⟨rfl,-⟩ := hc _ _ _ hr
    have hn : code rest = [] := by
      simp only [code_append,List.length_append] at hl
      exact List.eq_nil_of_length_eq_zero (by omega)
    obtain rfl := (code_eq_nil_iff (Fragment.allowed_append.mp h).2).mp hn
    rw [hr,List.append_nil]
  · intro hr
    exact ⟨_,hr,rfl⟩

theorem operand_whole_iff (h : text.Allowed) (pre : List UInt8) :
    operand (pre ++ code text) pre.length = some (pre ++ code text).length ↔ text.Operand := by
  rw [whole_iff renders_operand Pattern.operand_cuts h]
  constructor
  · intro ho
    exact (Pattern.operand_eq_some_iff.mp ho).2.1
  · exact Fragment.operand_self

theorem run_whole_iff {p : Scanner} {f : Char → Bool} {is : Token → Bool}
    (hp : Renders p (Pattern.run is)) (hf : ∀ c, is (.char c) = f c)
    (hcs : ∀ {a : Fragment}, (∀ t ∈ a, is t = true) →
      ∃ cs : List Char, a = cs.map .char ∧ ∀ c ∈ cs, f c = true)
    (h : text.Allowed) (pre : List UInt8) :
    p (pre ++ code text) pre.length = some (pre ++ code text).length ↔
      ∃ cs : List Char, cs ≠ [] ∧ (∀ c ∈ cs, f c = true) ∧ text = cs.map .char := by
  rw [whole_iff hp (Pattern.run_cuts _) h,Pattern.run_eq_some_iff]
  constructor
  · rintro ⟨-,hn,ht,-⟩
    obtain ⟨cs,rfl,hc⟩ := hcs ht
    exact ⟨cs,by simpa using hn,hc,rfl⟩
  · rintro ⟨cs,hn,hc,rfl⟩
    exact ⟨by simp,by simpa using hn,by simpa [hf] using hc,by simp⟩

theorem digits_whole_iff (h : text.Allowed) (pre : List UInt8) :
    digits (pre ++ code text) pre.length = some (pre ++ code text).length ↔
      ∃ cs : List Char, cs ≠ [] ∧ (∀ c ∈ cs, c.isDigit = true) ∧ text = cs.map .char :=
  run_whole_iff renders_digits (fun _ => rfl) Fragment.eq_map_char_of_isDigit h pre

theorem letters_whole_iff (h : text.Allowed) (pre : List UInt8) :
    letters (pre ++ code text) pre.length = some (pre ++ code text).length ↔
      ∃ cs : List Char, cs ≠ [] ∧ (∀ c ∈ cs, c.isAlpha = true) ∧ text = cs.map .char :=
  run_whole_iff renders_letters (fun _ => rfl) Fragment.eq_map_char_of_isLetter h pre

theorem reference_whole_iff (h : text.Allowed) (pre : List UInt8) :
    reference (pre ++ code text) pre.length = some (pre ++ code text).length ↔
      ∃ i content, text = [.ref i content] := by
  rw [whole_iff renders_reference (Pattern.single_cuts _) h]
  constructor
  · intro hr
    obtain ⟨t,ht,-,htr⟩ := Pattern.single_eq_some hr
    cases t with
    | char c => cases htr
    | ref i content => exact ⟨i,content,ht⟩
  · rintro ⟨i,content,rfl⟩
    rfl

/-- A sign in front is skipped if there is one. -/
theorem skip_cases {c : Char} (hc : c ≠ '[') (h : text.Allowed) (pre : List UInt8) :
    ∃ u rest : Fragment, text = u ++ rest ∧ (u = [] ∨ u = [.char c]) ∧
      (u = [] → ∀ w, text ≠ .char c :: w) ∧
      skip c (pre ++ code text) pre.length = (pre ++ code u).length := by
  have hs := renders_sign hc pre text h
  by_cases ht : ∃ w, text = .char c :: w
  · obtain ⟨w,rfl⟩ := ht
    refine ⟨[.char c],w,rfl,.inr rfl,by simp,?_⟩
    rw [skip,hs,Pattern.sign_cons (by simp)]
    rfl
  · have ht := not_exists.mp ht
    refine ⟨[],text,rfl,.inl rfl,fun _ => ht,?_⟩
    rw [skip,hs,Pattern.sign_eq_none ht]
    simp

theorem isInteger_code (h : text.Allowed) : isInteger (code text) = true ↔
    ∃ cs : List Char, cs ≠ [] ∧ (∀ c ∈ cs, c.isDigit = true) ∧
      (text = cs.map .char ∨ text = .char '-' :: cs.map .char) := by
  obtain ⟨u,rest,rfl,hu,hn,hs⟩ := skip_cases (c := '-') (by decide) h []
  rw [List.nil_append,List.nil_append,List.length_nil] at hs
  have hd := digits_whole_iff (Fragment.allowed_append.mp h).2 (code u)
  rw [← code_append] at hd
  rw [isInteger,hs,decide_eq_true_eq,hd]
  rcases hu with rfl | rfl
  · constructor
    · rintro ⟨cs,hne,hc,ht⟩
      exact ⟨cs,hne,hc,.inl ht⟩
    · rintro ⟨cs,hne,hc,ht | ht⟩
      · exact ⟨cs,hne,hc,ht⟩
      · exact absurd ht (hn rfl _)
  · constructor
    · rintro ⟨cs,hne,hc,rfl⟩
      exact ⟨cs,hne,hc,.inr rfl⟩
    · rintro ⟨cs,hne,hc,ht | ht⟩
      · obtain ⟨c,cs,rfl⟩ := List.exists_cons_of_ne_nil hne
        obtain ⟨hm,-⟩ := List.cons_eq_cons.mp ht
        cases hm
        cases hc '-' (by simp)
      · exact ⟨cs,hne,hc,(List.cons_eq_cons.mp ht).2⟩

theorem isNegation_code (h : text.Allowed) (hn : text ≠ []) : Answers (isNegation (code text))
    (∃ a : Fragment, a.Operand ∧ text = .char '-' :: a) := by
  obtain ⟨b,src,hsrc⟩ := List.exists_cons_of_ne_nil fun he => hn ((code_eq_nil_iff h).mp he)
  have hfirst : byteAt (code text) 0 = .ok b := by
    rw [hsrc]
    rfl
  rw [isNegation,hfirst]
  change Answers (if _ then _ else _) _
  by_cases hb : b = '-'.toUInt8
  · subst hb
    obtain ⟨rest,rfl,-⟩ := eq_cons_of_code h (by decide) (by decide) hsrc
    obtain ⟨-,hr⟩ := Fragment.allowed_char.mp h
    refine ⟨decide (operand (code (.char '-' :: rest)) 1 = some (code (.char '-' :: rest)).length),
      rfl,?_⟩
    rw [decide_eq_true_eq,code_char rfl]
    refine (operand_whole_iff hr ['-'.toUInt8]).trans ⟨fun ha => ⟨rest,ha,rfl⟩,?_⟩
    rintro ⟨a,ha,ht⟩
    rwa [(List.cons_eq_cons.mp ht).2]
  · have hm : byteIs (· == '-') b = false := by
      rw [Bool.eq_false_iff,ne_eq,byteIs_beq (by decide)]
      exact hb
    rw [hm]
    refine ⟨false,rfl,by simp,?_⟩
    rintro ⟨a,-,rfl⟩
    rw [code_char rfl] at hsrc
    exact absurd (List.cons_eq_cons.mp hsrc).1.symm hb

end Checks

end Fluxion.Formula.Inline
