import Fluxion.Proofs.Inline.References

/-! Patterns do not tell one digit from another: with a zero for every digit they find the same
in a text. So a text is scanned as one is that is written from tokens, whatever the digits of its
references are. -/
namespace Fluxion.Formula.Inline

/-- A byte, or a zero for a digit. -/
def zeroed (b : UInt8) : UInt8 := if byteIs Char.isDigit b then '0'.toUInt8 else b

/-- A class that all digits belong to or none. -/
def Blind (f : Char → Bool) : Prop := ∀ c, c.isDigit = true → f c = f '0'

section Scanners

variable {f : Char → Bool} {c : Char}

theorem blind_of_none (h : ∀ c, f c = true → c.isDigit = false) : Blind f := by
  have hn : ∀ c, c.isDigit = true → f c = false := by
    intro c hc
    rw [Bool.eq_false_iff]
    intro hf
    rw [h c hf] at hc
    cases hc
  intro c hc
  rw [hn c hc,hn '0' rfl]

theorem blind_isDigit : Blind Char.isDigit := fun _ hc => hc

theorem blind_isAlpha : Blind Char.isAlpha := blind_of_none fun _ => not_isDigit_of_isAlpha

theorem blind_beq (hc : c.isDigit = false) : Blind (· == c) :=
  blind_of_none fun d hd => by rwa [beq_iff_eq.mp hd]

theorem blind_mem (cs : List Char) (h : ∀ c ∈ cs, c.isDigit = false) : Blind (· ∈ cs) :=
  blind_of_none fun c hc => h c (by simpa using hc)

theorem byteIs_zeroed (h : Blind f) (b : UInt8) : byteIs f (zeroed b) = byteIs f b := by
  unfold zeroed
  split
  · rename_i hb
    rw [byteIs_toUInt8 (by decide)]
    exact (h _ hb).symm
  · rfl

theorem one_zeroed (h : Blind f) (src : List UInt8) : one f (src.map zeroed) = one f src := by
  funext i
  simp [one,Option.any_map,byteIs_zeroed h]

theorem sign_zeroed (hc : c.isDigit = false) (src : List UInt8) :
    sign c (src.map zeroed) = sign c src :=
  one_zeroed (blind_beq hc) src

theorem takeRun_zeroed (h : Blind f) (src : List UInt8) :
    takeRun f (src.map zeroed) = takeRun f src := by
  funext i
  have ht : ((src.map zeroed).drop i).takeWhile (byteIs f) =
      ((src.drop i).takeWhile (byteIs f)).map zeroed := by
    rw [← List.map_drop,List.takeWhile_map]
    simp only [Function.comp_def,byteIs_zeroed h]
  simp [takeRun,ht]

theorem letters_zeroed (src : List UInt8) : letters (src.map zeroed) = letters src :=
  takeRun_zeroed blind_isAlpha src

theorem digits_zeroed (src : List UInt8) : digits (src.map zeroed) = digits src :=
  takeRun_zeroed blind_isDigit src

theorem reference_zeroed (src : List UInt8) : reference (src.map zeroed) = reference src := by
  funext i
  simp only [reference,digits_zeroed,sign_zeroed (by rfl : '['.isDigit = false),
    sign_zeroed (by rfl : ']'.isDigit = false)]

theorem operand_zeroed (src : List UInt8) : operand (src.map zeroed) = operand src := by
  funext i
  simp only [operand,letters_zeroed,digits_zeroed,reference_zeroed]

theorem closing_of_none {src : List UInt8} {i : Nat} (h : src[i]? = none) :
    closing src i = none := by
  rw [closing]
  split
  · rfl
  · simp_all

theorem closing_of_some {src : List UInt8} {i : Nat} {b : UInt8} (h : src[i]? = some b) :
    closing src i =
      if byteIs (· == ')') b then some (i + 1)
      else if byteIs (· == '(') b then none
      else closing src (i + 1) := by
  rw [closing]
  split
  · simp_all
  · rename_i b' h'
    cases h.symm.trans h'
    rfl

theorem closing_zeroed (src : List UInt8) : closing (src.map zeroed) = closing src := by
  have hclose := byteIs_zeroed (blind_beq (by rfl : ')'.isDigit = false))
  have hopen := byteIs_zeroed (blind_beq (by rfl : '('.isDigit = false))
  have hget {i : Nat} {b : UInt8} (h : src[i]? = some b) :
      (src.map zeroed)[i]? = some (zeroed b) := by
    rw [List.getElem?_map,h]
    rfl
  funext i
  fun_induction closing src i with
  | case1 i h =>
    rw [closing_of_none]
    rw [List.getElem?_map,h]
    rfl
  | case2 i b h hb => rw [closing_of_some (hget h),hclose,if_pos hb]
  | case3 i b h hb hb' => rw [closing_of_some (hget h),hclose,if_neg hb,hopen,if_pos hb']
  | case4 i b h hb hb' ih =>
    rw [closing_of_some (hget h),hclose,if_neg hb,hopen,if_neg hb',ih]

theorem group_zeroed (src : List UInt8) : group (src.map zeroed) = group src := by
  funext i
  simp only [group,closing_zeroed,sign_zeroed (by rfl : '('.isDigit = false)]

theorem logarithm_eq (src : List UInt8) (i : Nat) : logarithm src i =
    if i ≤ src.length then
      .ok (((sign 'l' src i).bind (sign 'n' src)).bind (group src))
    else .error .outOfRange := by
  split
  · rename_i h
    have hl := logarithm_append (src.take i) (src.drop i)
    rw [List.take_append_drop,List.length_take,Nat.min_eq_left h] at hl
    exact hl
  · rename_i h
    rw [logarithm,bytesFrom,if_neg h]
    rfl

theorem opens_zeroed (src : List UInt8) : opens (src.map zeroed) = opens src := by
  have hop := byteIs_zeroed (blind_mem ['+', '-', '*', '/', '^'] (by simp))
  funext i
  simp only [opens,byteAt,List.getElem?_map]
  cases src[i - 1]? with
  | none => rfl
  | some b =>
    simp only [Option.map_some,checked]
    split
    · rfl
    · exact congrArg Except.ok (hop b)

theorem unraised_zeroed (src : List UInt8) : unraised (src.map zeroed) = unraised src := by
  funext i
  simp only [unraised,reference_zeroed,letters_zeroed,digits_zeroed,
    sign_zeroed (by rfl : '^'.isDigit = false)]

theorem product_zeroed (src : List UInt8) : product (src.map zeroed) = product src := by
  funext i
  simp only [product,operand_zeroed,reference_zeroed,
    one_zeroed (blind_mem ['*', '/'] (by simp))]

theorem scan_zeroed (tier : Tier) (src : List UInt8) :
    scan tier (src.map zeroed) = scan tier src := by
  funext i
  cases tier with
  | logarithm =>
    simp only [scan,logarithm_eq,List.length_map,group_zeroed,
      sign_zeroed (by rfl : 'l'.isDigit = false),sign_zeroed (by rfl : 'n'.isDigit = false)]
  | group => simp only [scan,group_zeroed]
  | negation =>
    simp only [scan,negation,minus,opens_zeroed,unraised_zeroed,
      sign_zeroed (by rfl : '-'.isDigit = false)]
  | power =>
    simp only [scan,power,operand_zeroed,sign_zeroed (by rfl : '^'.isDigit = false)]
  | product => simp only [scan,product_zeroed]
  | coefficient =>
    simp only [scan,coefficient,digits_zeroed,reference_zeroed,one_zeroed blind_isAlpha]
  | sum =>
    simp only [scan,sum,operand_zeroed,one_zeroed (blind_mem ['+', '-'] (by simp))]

theorem first_zeroed (src : List UInt8) : first (src.map zeroed) = first src := by
  simp only [first,leftmost,scan_zeroed,List.length_map]

end Scanners

/-- A written text and its tokens. Of a reference only the number of its digits is kept. -/
inductive Tokens : List Char → Fragment → Prop
  | nil : Tokens [] []
  | char {c : Char} {s : List Char} {text : Fragment} (hc : isAllowed c = true)
    (h : Tokens s text) : Tokens (c :: s) (.char c :: text)
  | reference {ds s : List Char} {i : Nat} {text : Fragment} (hd : ∀ c ∈ ds, c.isDigit = true)
    (hl : (Decimal.ofNat i).length = ds.length) (h : Tokens s text) :
    Tokens ('[' :: (ds ++ ']' :: s)) (.ref i [] :: text)

theorem zeroed_of_digits {ds : List Char} (hd : ∀ c ∈ ds, c.isDigit = true) :
    (Text.encode ds).map zeroed = List.replicate ds.length '0'.toUInt8 := by
  rw [encode_digits hd,List.map_map,List.eq_replicate_iff]
  refine ⟨by simp,fun b hb => ?_⟩
  obtain ⟨c,hc,rfl⟩ := List.mem_map.mp hb
  have hb : byteIs Char.isDigit c.toUInt8 = true := by
    rw [byteIs_toUInt8 (toNat_lt_of_isDigit (hd c hc)),hd c hc]
  exact if_pos hb

/-- There are numbers of every length. -/
theorem exists_length_ofNat (n : Nat) : ∃ i, (Decimal.ofNat i).length = n + 1 := by
  refine ⟨10 ^ n,Nat.le_antisymm ?_ ?_⟩
  · exact (Nat.length_toDigits_le_iff (by decide) (by omega)).mpr
      (Nat.pow_lt_pow_right (by decide) (Nat.lt_succ_self n))
  · cases n with
    | zero => decide
    | succ n =>
      rw [Nat.succ_le_iff,← Nat.not_le]
      intro hle
      exact Nat.lt_irrefl _ ((Nat.length_toDigits_le_iff (by decide) (by omega)).mp hle)

theorem Whole.exists_tokens {s : List Char} (h : Whole s) : ∃ text, Tokens s text := by
  induction h with
  | nil => exact ⟨[],.nil⟩
  | char hc _ ih =>
    obtain ⟨text,h⟩ := ih
    exact ⟨_,.char hc h⟩
  | @reference ds s hn hd _ ih =>
    obtain ⟨text,h⟩ := ih
    obtain ⟨i,hi⟩ := exists_length_ofNat (ds.length - 1)
    have hpos := List.length_pos_iff.mpr hn
    exact ⟨_,.reference hd (i := i) (by omega) h⟩

namespace Tokens

variable {s s' : List Char} {text a b : Fragment}

theorem whole (h : Tokens s text) : Whole s := by
  induction h with
  | nil => exact .nil
  | char hc _ ih => exact .char hc ih
  | @reference ds s i text hd hl _ ih =>
    refine .reference ?_ hd ih
    rintro rfl
    exact Decimal.ofNat_ne_nil i (List.eq_nil_of_length_eq_zero hl)

theorem allowed (h : Tokens s text) : text.Allowed := by
  induction h with
  | nil => exact Fragment.allowed_nil
  | char hc _ ih => exact Fragment.allowed_char.mpr ⟨hc,ih⟩
  | reference _ _ _ ih => exact Fragment.allowed_ref.mpr ⟨Fragment.allowed_nil,ih⟩

theorem length_le (h : Tokens s text) : text.length ≤ s.length := by
  induction h with
  | nil => simp
  | char _ _ ih => simpa using ih
  | reference _ _ _ ih =>
    simp only [List.length_cons,List.length_append]
    omega

/-- But for the digits of its references a text is written as its tokens are. -/
theorem zeroed_encode (h : Tokens s text) : (Text.encode s).map zeroed = (code text).map zeroed := by
  induction h with
  | nil => rfl
  | char hc _ ih =>
    rw [Text.encode_cons,encode_of_ascii (toNat_lt_of_isAllowed hc),code_char hc,List.singleton_append,
      List.map_cons,List.map_cons,ih]
  | @reference ds s i text hd hl _ ih =>
    have hdi : ∀ c ∈ Decimal.ofNat i, c.isDigit = true := fun _ => Decimal.isDigit_of_mem_ofNat
    have hnumber := zeroed_of_digits hdi
    rw [encode_digits hdi,hl,← zeroed_of_digits hd] at hnumber
    have ho : String.utf8EncodeChar '[' = ['['.toUInt8] := encode_of_ascii (by decide)
    have hc : String.utf8EncodeChar ']' = [']'.toUInt8] := encode_of_ascii (by decide)
    simp [code_ref,number,ho,hc,ih,← hnumber]

theorem length_encode (h : Tokens s text) : (Text.encode s).length = (code text).length := by
  simpa using congrArg List.length h.zeroed_encode

theorem append (h : Tokens s a) (h' : Tokens s' b) : Tokens (s ++ s') (a ++ b) := by
  induction h with
  | nil => exact h'
  | char hc _ ih => exact .char hc ih
  | reference hd hl _ ih => simpa using .reference hd hl ih

/-- Where the tokens are parted, the text is. -/
theorem split (h : Tokens s (a ++ b)) : ∃ u v, s = u ++ v ∧ Tokens u a ∧ Tokens v b := by
  induction a generalizing s with
  | nil => exact ⟨[],s,rfl,.nil,h⟩
  | cons t a ih =>
    cases h with
    | char hc h =>
      obtain ⟨u,v,rfl,hu,hv⟩ := ih h
      exact ⟨_,v,rfl,.char hc hu,hv⟩
    | reference hd hl h =>
      obtain ⟨u,v,rfl,hu,hv⟩ := ih h
      exact ⟨_,v,by simp,.reference hd hl hu,hv⟩

/-- The reference with a number, as its own token. -/
theorem ofNat (n : Nat) (h : Tokens s text) :
    Tokens ('[' :: (Decimal.ofNat n ++ ']' :: s)) (.ref n [] :: text) :=
  .reference (fun _ hc => Decimal.isDigit_of_mem_ofNat hc) rfl h

theorem scan_eq (h : Tokens s text) (tier : Tier) :
    scan tier (Text.encode s) = scan tier (code text) := by
  rw [← scan_zeroed,h.zeroed_encode,scan_zeroed]

theorem first_eq (h : Tokens s text) :
    first (Text.encode s) = .ok ((Tier.first? text).map fun r => span r.2) := by
  rw [← first_zeroed,h.zeroed_encode,first_zeroed,first_code h.allowed]

end Tokens

end Fluxion.Formula.Inline
