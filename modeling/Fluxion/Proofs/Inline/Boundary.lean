import Fluxion.Proofs.Inline.Reader
import Fluxion.Proofs.Locality
import Mathlib

/-! Written texts seen as tokens. At the start of a token a scanner finds what the pattern of its
kind finds there, and it stops at the end of a token. Inside a reference nothing matches: its
digits are followed by a bracket, which no pattern goes on with. -/
namespace Fluxion.Formula

namespace Fragment

/-- The text as it is written. -/
def shown (text : Fragment) : List Char := text.flatMap Token.shown

/-- All that stands in the formula there is made of characters that formulas have. -/
def Allowed (text : Fragment) : Prop := ∀ c ∈ text.source, isAllowed c = true

@[simp] theorem shown_nil : shown [] = [] := rfl

@[simp] theorem shown_cons (t : Token) (text : Fragment) :
    shown (t :: text) = t.shown ++ shown text := rfl

@[simp] theorem shown_append (a b : Fragment) : shown (a ++ b) = shown a ++ shown b :=
  List.flatMap_append

@[simp] theorem allowed_append {a b : Fragment} : (a ++ b).Allowed ↔ a.Allowed ∧ b.Allowed := by
  simp [Allowed,or_imp,forall_and]

@[simp] theorem allowed_char {c : Char} {text : Fragment} :
    Allowed (.char c :: text) ↔ isAllowed c = true ∧ text.Allowed := by
  simp [Allowed]

@[simp] theorem allowed_ref {i : Nat} {content text : Fragment} :
    Allowed (.ref i content :: text) ↔ content.Allowed ∧ text.Allowed := by
  simp [Allowed,or_imp,forall_and]

theorem allowed_nil : Allowed [] := by simp [Allowed]

end Fragment

namespace Pattern

variable {a rest text : Fragment}

theorem sign_eq_none {c : Char} (h : ∀ rest, text ≠ .char c :: rest) : sign [c] text = none := by
  cases hs : sign [c] text with
  | none => rfl
  | some r =>
    obtain ⟨a,rest⟩ := r
    obtain ⟨d,hd,ht,-⟩ := sign_eq_some hs
    cases List.mem_singleton.mp hd
    exact absurd ht (h rest)

/-- The inside of a group and the parenthesis that closes it. -/
def closing : Pattern
  | [] => none
  | t :: rest =>
    if t.isParenthesis then sign [')'] (t :: rest)
    else (closing rest).map fun (a, after) => (t :: a, after)

theorem closing_of_not {t : Token} (h : t.isParenthesis = false) (rest : Fragment) :
    closing (t :: rest) = (closing rest).map fun (a, after) => (t :: a, after) := by
  simp [closing,h]

theorem closing_eq (text : Fragment) : closing text =
    match text.dropWhile (! ·.isParenthesis) with
    | .char ')' :: after => some (text.takeWhile (! ·.isParenthesis) ++ [.char ')'], after)
    | _ => none := by
  induction text with
  | nil => rfl
  | cons t text ih =>
    cases ht : t.isParenthesis with
    | false =>
      rw [closing_of_not ht,ih,List.dropWhile_cons_of_pos (by simp [ht]),
        List.takeWhile_cons_of_pos (by simp [ht])]
      split <;> simp_all
    | true =>
      rw [List.dropWhile_cons_of_neg (by simp [ht]),List.takeWhile_cons_of_neg (by simp [ht]),
        closing,if_pos ht]
      rcases Token.eq_of_isParenthesis ht with rfl | rfl <;> rfl

theorem group_eq_seq : group = (sign ['(']).seq closing := by
  funext text
  unfold group group?
  split
  · rename_i rest
    have hs : sign ['('] (.char '(' :: rest) = some ([.char '('], rest) := rfl
    simp only [seq,hs,closing_eq]
    split <;> simp_all
  · rename_i hn
    simp [seq,sign_eq_none hn]

/-- An operand that is not in front of `^`, or a run without its last character. -/
def unraised : Pattern := fun text =>
  match operand text with
  | some (a, .char '^' :: _) =>
    if a.dropLast = [] then none else some (a.dropLast, text.drop a.dropLast.length)
  | some (a, after) => some (a, after)
  | none => none

theorem unraised_of_raised {w : Fragment} (h : operand text = some (a, .char '^' :: w)) :
    unraised text =
      if a.dropLast = [] then none else some (a.dropLast, text.drop a.dropLast.length) := by
  simp only [unraised,h]

theorem unraised_of_operand (h : operand text = some (a, rest))
    (hp : ∀ w, rest ≠ .char '^' :: w) : unraised text = some (a, rest) := by
  simp only [unraised,h]

theorem negation_eq_seq : negation = (sign ['-']).seq unraised := by
  funext text
  by_cases ht : ∃ rest, text = .char '-' :: rest
  · obtain ⟨rest,rfl⟩ := ht
    have hs : sign ['-'] (.char '-' :: rest) = some ([.char '-'], rest) := rfl
    simp only [seq,hs]
    cases ho : operand rest with
    | none => simp [negation,unraised,ho]
    | some r =>
      obtain ⟨a,after⟩ := r
      by_cases hp : after.head? = some (.char '^')
      · obtain ⟨w,rfl⟩ := List.head?_eq_some_iff.mp hp
        rw [negation_of_power ho,unraised_of_raised ho]
        split <;> rfl
      · have hw : ∀ w, after ≠ .char '^' :: w := by
          rintro w rfl
          exact hp rfl
        rw [negation_of_operand ho hp,unraised_of_operand ho hw]
        rfl
  · have ht := not_exists.mp ht
    simp only [seq,sign_eq_none ht]
    unfold negation
    split
    · exact absurd rfl (ht _)
    · rfl

/-- An operand is a reference or a run of characters. -/
theorem operand_cases (text : Fragment) :
    (∃ i content after, text = .ref i content :: after) ∨
      reference text = none ∧ operand text = (letters.orElse digits) text := by
  cases hr : reference text with
  | some r =>
    obtain ⟨a,rest⟩ := r
    obtain ⟨t,rfl,-,ht⟩ := single_eq_some hr
    cases t with
    | char c => cases ht
    | ref i content => exact .inl ⟨i,content,rest,rfl⟩
  | none =>
    refine .inr ⟨rfl,?_⟩
    simp only [operand,orElse,hr]
    cases letters text <;> cases digits text <;> rfl

theorem operand_ref (i : Nat) (content rest : Fragment) :
    operand (.ref i content :: rest) = some ([.ref i content], rest) := rfl

theorem char_of_operand (h : a.Operand) (hr : reference (a ++ rest) = none) :
    ∀ t ∈ a, ∃ c : Char, t = .char c ∧ c ≠ '^' := by
  intro t ht
  cases t with
  | char c =>
    refine ⟨c,rfl,?_⟩
    rintro rfl
    cases h.isOperand _ ht
  | ref i content =>
    cases h with
    | name hn hc => simp at ht
    | number hn hc => simp at ht
    | reference j d => cases hr

end Pattern

namespace Inline

section Bytes

theorem cut?_append (a b : List Char) : cut? (a ++ b) (Text.encode a).length = some (a, b) := by
  induction a with
  | nil => cases b <;> simp [cut?]
  | cons c a ih =>
    obtain ⟨n,hn⟩ := Nat.exists_eq_succ_of_ne_zero (Nat.ne_of_gt c.utf8Size_pos)
    have hl : (Text.encode (c :: a)).length = n + (Text.encode a).length + 1 := by
      simp [hn]
      omega
    rw [hl,List.cons_append,cut?,if_pos (by omega),show n + (Text.encode a).length + 1 - c.utf8Size =
      (Text.encode a).length by omega,ih]
    rfl

/-- A part of a text is at the place that the length of the text in front of it is. -/
theorem slice_append (a b c : List Char) :
    slice (a ++ b ++ c) (Text.encode a).length (Text.encode (a ++ b)).length = .ok b := by
  rw [slice,cut?_append (a ++ b) c]
  change (checked (cut? (a ++ b) (Text.encode a).length) >>= _) = _
  rw [cut?_append a b]
  rfl

theorem splice_append (a b c part : List Char) :
    splice (a ++ b ++ c) (Text.encode a).length (Text.encode (a ++ b)).length part = .ok (a ++ part ++ c) := by
  rw [splice,cut?_append (a ++ b) c]
  change (checked (cut? (a ++ b) (Text.encode a).length) >>= _) = _
  rw [cut?_append a b]
  rfl

variable {c : Char}

theorem encode_of_ascii (h : c.toNat < 128) : String.utf8EncodeChar c = [c.toUInt8] := by
  have hs : c.utf8Size = 1 := by
    rw [Char.utf8Size_eq_one_iff,UInt32.le_iff_toNat_le]
    exact Nat.le_of_lt_succ h
  rw [String.utf8EncodeChar_eq_singleton hs,Char.toUInt8_val]

theorem decode_of_ascii (h : c.toNat < 128) : Char.ofUInt8 c.toUInt8 = c := by
  refine Char.ext (UInt32.toNat_inj.mp ?_)
  have hb : c.toUInt8.toNat = c.toNat % 256 := rfl
  have hd : (Char.ofUInt8 c.toUInt8).val.toNat = c.toUInt8.toNat := rfl
  rw [hd,hb,Nat.mod_eq_of_lt (by omega)]
  rfl

theorem toNat_lt_of_isDigit (h : c.isDigit = true) : c.toNat < 128 := by
  have hd : c.isDigit = (decide ('0'.val ≤ c.val) && decide (c.val ≤ '9'.val)) := rfl
  rw [hd] at h
  simp only [Bool.and_eq_true,decide_eq_true_eq,UInt32.le_iff_toNat_le] at h
  have h9 : c.toNat ≤ 57 := h.2
  omega

theorem toNat_lt_of_isAllowed (h : isAllowed c = true) : c.toNat < 128 := by
  simp only [isAllowed,Char.isAlphanum,Bool.or_eq_true,decide_eq_true_eq,List.mem_cons,
    List.not_mem_nil,or_false] at h
  rcases h with (h | h) | rfl | rfl | rfl | rfl | rfl | rfl | rfl
  · have ha : (c.isUpper || c.isLower) = true := h
    have hu : c.isUpper = decide ('A'.val ≤ c.val ∧ c.val ≤ 'Z'.val) := rfl
    have hl : c.isLower = (decide ('a'.val ≤ c.val) && decide (c.val ≤ 'z'.val)) := rfl
    rw [hu,hl] at ha
    simp only [Bool.or_eq_true,decide_eq_true_eq,Bool.and_eq_true,UInt32.le_iff_toNat_le] at ha
    change (65 ≤ c.toNat ∧ c.toNat ≤ 90) ∨ (97 ≤ c.toNat ∧ c.toNat ≤ 122) at ha
    omega
  · exact toNat_lt_of_isDigit h
  all_goals decide

end Bytes

/-- The bytes of a text of tokens. -/
def code (text : Fragment) : List UInt8 := Text.encode text.shown

section Code

variable {c : Char} {text : Fragment}

@[simp] theorem code_nil : code [] = [] := rfl

@[simp] theorem code_append (a b : Fragment) : code (a ++ b) = code a ++ code b := by
  simp [code]

theorem code_cons (t : Token) (text : Fragment) : code (t :: text) = code [t] ++ code text :=
  code_append [t] text

theorem code_char (h : isAllowed c = true) (text : Fragment) :
    code (.char c :: text) = c.toUInt8 :: code text := by
  simp [code,Token.shown,encode_of_ascii (toNat_lt_of_isAllowed h)]

theorem encode_digits {cs : List Char} (h : ∀ c ∈ cs, c.isDigit = true) :
    Text.encode cs = cs.map Char.toUInt8 := by
  induction cs with
  | nil => rfl
  | cons c cs ih =>
    rw [Text.encode_cons,encode_of_ascii (toNat_lt_of_isDigit (h c (by simp))),
      ih fun c hc => h c (by simp [hc])]
    rfl

/-- The digits of a reference. -/
def number (i : Nat) : List UInt8 := (Decimal.ofNat i).map Char.toUInt8

theorem number_ne_nil (i : Nat) : number i ≠ [] := by
  simpa [number] using Decimal.ofNat_ne_nil i

theorem code_ref (i : Nat) (content text : Fragment) :
    code (.ref i content :: text) = '['.toUInt8 :: (number i ++ ']'.toUInt8 :: code text) := by
  have ho : String.utf8EncodeChar '[' = ['['.toUInt8] := encode_of_ascii (by decide)
  have hc : String.utf8EncodeChar ']' = [']'.toUInt8] := encode_of_ascii (by decide)
  simp [code,Token.shown,number,encode_digits fun c hc => Decimal.isDigit_of_mem_ofNat hc,ho,hc]

theorem code_eq_nil_iff (h : text.Allowed) : code text = [] ↔ text = [] := by
  cases text with
  | nil => simp
  | cons t text =>
    cases t with
    | char c => simp [code_char (Fragment.allowed_char.mp h).1]
    | ref i content => simp [code_ref]

end Code

section Bytes

variable {f : Char → Bool}

theorem byteIs_toUInt8 {c : Char} (h : c.toNat < 128) (f : Char → Bool) :
    byteIs f c.toUInt8 = f c := by
  rw [byteIs,decode_of_ascii h]

theorem toUInt8_ofUInt8 (b : UInt8) : (Char.ofUInt8 b).toUInt8 = b := by
  have h : (Char.ofUInt8 b).toUInt8 = b.toUInt32.toUInt8 := rfl
  rw [h,UInt8.toUInt8_toUInt32]

theorem byteIs_beq {c : Char} (hc : c.toNat < 128) (b : UInt8) :
    byteIs (· == c) b = true ↔ b = c.toUInt8 := by
  rw [byteIs,beq_iff_eq]
  constructor
  · rintro rfl
    rw [toUInt8_ofUInt8]
  · rintro rfl
    rw [decode_of_ascii hc]

theorem byteIs_of_isAllowed {c : Char} (h : isAllowed c = true) (f : Char → Bool) :
    byteIs f c.toUInt8 = f c :=
  byteIs_toUInt8 (toNat_lt_of_isAllowed h) f

@[simp] theorem byteIs_open (f : Char → Bool) : byteIs f '['.toUInt8 = f '[' :=
  byteIs_toUInt8 (by decide) f

@[simp] theorem byteIs_close (f : Char → Bool) : byteIs f ']'.toUInt8 = f ']' :=
  byteIs_toUInt8 (by decide) f

theorem isDigit_of_mem_number {i : Nat} {b : UInt8} (h : b ∈ number i) :
    byteIs Char.isDigit b = true := by
  obtain ⟨c,hc,rfl⟩ := List.mem_map.mp h
  have hd := Decimal.isDigit_of_mem_ofNat hc
  rw [byteIs_toUInt8 (toNat_lt_of_isDigit hd),hd]

variable {pre run rest : List UInt8}

theorem getElem?_length (pre src : List UInt8) : (pre ++ src)[pre.length]? = src.head? := by
  rw [List.getElem?_append_right (Nat.le_refl _),Nat.sub_self,List.head?_eq_getElem?]

theorem one_append (f : Char → Bool) (pre : List UInt8) (b : UInt8) (rest : List UInt8) :
    one f (pre ++ b :: rest) pre.length =
      if byteIs f b then some (pre ++ [b]).length else none := by
  rw [one,getElem?_length,List.head?_cons,Option.any_some,List.length_append]
  rfl

theorem one_eq_none (he : ∀ b ∈ rest.head?, byteIs f b = false) :
    one f (pre ++ rest) pre.length = none := by
  rw [one,getElem?_length]
  cases rest <;> simp_all

theorem takeRun_append (hn : run ≠ []) (hr : ∀ b ∈ run, byteIs f b = true)
    (he : ∀ b ∈ rest.head?, byteIs f b = false) :
    takeRun f (pre ++ (run ++ rest)) pre.length = some (pre ++ run).length := by
  have ht : (run ++ rest).takeWhile (byteIs f) = run := by
    rw [List.takeWhile_append_of_pos hr]
    cases rest <;> simp_all
  simp [takeRun,ht,hn]

theorem takeRun_eq_none (he : ∀ b ∈ rest.head?, byteIs f b = false) :
    takeRun f (pre ++ rest) pre.length = none := by
  have ht : rest.takeWhile (byteIs f) = [] := by
    cases rest <;> simp_all
  simp [takeRun,ht]

end Bytes

/-- A token that is a character of a class. -/
def charIs (f : Char → Bool) : Token → Bool
  | .char c => f c
  | .ref _ _ => false

/-- At the start of a token a scanner finds what a pattern finds there. -/
def Renders (p : Scanner) (P : Pattern) : Prop :=
  ∀ (pre : List UInt8) (text : Fragment), text.Allowed →
    p (pre ++ code text) pre.length = (P text).map fun r => (pre ++ code r.1).length

section Renders

variable {p q : Scanner} {P Q : Pattern} {f : Char → Bool}

theorem renders_one (hf : f '[' = false) : Renders (one f) (Pattern.single (charIs f)) := by
  intro pre text h
  cases text with
  | nil => exact one_eq_none (by simp)
  | cons t text =>
    cases t with
    | char c =>
      have hc := (Fragment.allowed_char.mp h).1
      rw [code_char hc,one_append,byteIs_of_isAllowed hc]
      by_cases hfc : f c = true <;> simp [Pattern.single,charIs,hfc,code_char hc]
    | ref i content =>
      rw [code_ref,one_append,byteIs_open,hf]
      rfl

theorem renders_sign {c : Char} (hc : c ≠ '[') : Renders (sign c) (Pattern.sign [c]) := by
  have hp : Pattern.sign [c] = Pattern.single (charIs (· == c)) := by
    rw [Pattern.sign]
    congr 1
    funext t
    cases t <;> simp [charIs,beq_eq_decide]
  rw [hp]
  exact renders_one (by simpa using hc.symm)

theorem renders_signs {cs : List Char} (h : '[' ∉ cs) :
    Renders (one (· ∈ cs)) (Pattern.sign cs) := by
  have hp : Pattern.sign cs = Pattern.single (charIs (· ∈ cs)) := by
    rw [Pattern.sign]
    congr 1
  rw [hp]
  exact renders_one (by simpa using h)

theorem charIs_isAlpha : charIs Char.isAlpha = Token.isLetter := by
  funext t
  cases t <;> rfl

theorem charIs_isDigit : charIs Char.isDigit = Token.isDigit := by
  funext t
  cases t <;> rfl

theorem renders_letter : Renders (one Char.isAlpha) Pattern.letter := by
  rw [Pattern.letter,← charIs_isAlpha]
  exact renders_one rfl

/-- A run of bytes ends where the run of tokens ends: a bracket does not go on with it. -/
theorem takeWhile_code (hf : f '[' = false) {text : Fragment} (h : text.Allowed) :
    (code text).takeWhile (byteIs f) = code (text.takeWhile (charIs f)) := by
  induction text with
  | nil => rfl
  | cons t text ih =>
    cases t with
    | char c =>
      obtain ⟨hc,ht⟩ := Fragment.allowed_char.mp h
      by_cases hfc : f c = true
      · rw [List.takeWhile_cons_of_pos (by simpa [charIs] using hfc),code_char hc,code_char hc,
          List.takeWhile_cons_of_pos (by rw [byteIs_of_isAllowed hc,hfc]),ih ht]
      · rw [List.takeWhile_cons_of_neg (by simpa [charIs] using hfc),code_char hc,
          List.takeWhile_cons_of_neg (by rw [byteIs_of_isAllowed hc]; exact hfc)]
        rfl
    | ref i content =>
      rw [List.takeWhile_cons_of_neg (by simp [charIs]),code_ref,
        List.takeWhile_cons_of_neg (by simp [hf])]
      rfl

theorem renders_takeRun (hf : f '[' = false) : Renders (takeRun f) (Pattern.run (charIs f)) := by
  intro pre text h
  have ht : Fragment.Allowed (text.takeWhile (charIs f)) := by
    rw [← text.takeWhile_append_dropWhile (p := charIs f)] at h
    exact (Fragment.allowed_append.mp h).1
  simp only [takeRun,List.drop_left,takeWhile_code hf h,code_eq_nil_iff ht,Pattern.run]
  split <;> simp

theorem renders_letters : Renders letters Pattern.letters := by
  rw [Pattern.letters,← charIs_isAlpha]
  exact renders_takeRun rfl

theorem renders_digits : Renders digits Pattern.digits := by
  rw [Pattern.digits,← charIs_isDigit]
  exact renders_takeRun rfl

theorem renders_orElse (hp : Renders p P) (hq : Renders q Q) :
    Renders (fun src i => (p src i).or (q src i)) (P.orElse Q) := by
  intro pre text h
  simp only [hp pre text h,hq pre text h,Pattern.orElse]
  cases P text <;> rfl

theorem renders_seq {n : Nat} (hp : Renders p P) (hc : P.Cuts n) (hq : Renders q Q) :
    Renders (fun src i => (p src i).bind (q src)) (P.seq Q) := by
  intro pre text h
  simp only [hp pre text h,Pattern.seq]
  cases hP : P text with
  | none => rfl
  | some r =>
    obtain ⟨a,rest⟩ := r
    obtain ⟨rfl,-⟩ := hc _ _ _ hP
    have hr := hq (pre ++ code a) rest (Fragment.allowed_append.mp h).2
    rw [List.append_assoc,← code_append] at hr
    simp only [Option.map_some,Option.bind_some,hr]
    cases Q rest <;> simp

theorem renders_reference : Renders reference Pattern.reference := by
  intro pre text h
  cases text with
  | nil => simp [reference,sign,one,Pattern.reference,Pattern.single]
  | cons t text =>
    cases t with
    | char c =>
      have hc := (Fragment.allowed_char.mp h).1
      have hne : c ≠ '[' := by
        rintro rfl
        cases hc
      simp [code_char hc,reference,sign,one_append,byteIs_of_isAllowed hc,hne,Pattern.reference,
        Pattern.single,Token.isReference]
    | ref i content =>
      have hd : digits (pre ++ ['['.toUInt8] ++ (number i ++ ']'.toUInt8 :: code text))
          (pre ++ ['['.toUInt8]).length = some (pre ++ ['['.toUInt8] ++ number i).length :=
        takeRun_append (number_ne_nil i) (fun b hb => isDigit_of_mem_number hb) (by simp)
      have hc := one_append (· == ']') (pre ++ ['['.toUInt8] ++ number i) ']'.toUInt8 (code text)
      rw [byteIs_close,List.append_assoc (pre ++ _),List.append_assoc pre,
        List.singleton_append] at hc
      rw [List.append_assoc pre,List.singleton_append] at hd
      have hr : Pattern.reference (.ref i content :: text) = some ([.ref i content], text) := rfl
      rw [reference,hr,code_ref,sign,one_append,byteIs_open]
      change (digits _ _ >>= _) = _
      rw [hd]
      change sign _ _ _ = _
      rw [sign,hc]
      simp [code_ref]

theorem renders_operand : Renders operand Pattern.operand :=
  renders_orElse renders_letters (renders_orElse renders_digits renders_reference)

theorem closing_cons (pre : List UInt8) (b : UInt8) (rest : List UInt8) :
    closing (pre ++ b :: rest) pre.length =
      if byteIs (· == ')') b then some (pre ++ [b]).length
      else if byteIs (· == '(') b then none
      else closing (pre ++ [b] ++ rest) (pre ++ [b]).length := by
  have hb : (pre ++ b :: rest)[pre.length]? = some b := getElem?_length pre (b :: rest)
  rw [closing]
  split
  · rename_i hn
    rw [hb] at hn
    cases hn
  · rename_i b' hs
    cases hb.symm.trans hs
    rw [List.append_assoc pre,List.singleton_append,List.length_append,List.length_singleton]

theorem closing_skip {mid : List UInt8} (h : ∀ b ∈ mid, byteIs (· ∈ ['(', ')']) b = false)
    (pre rest : List UInt8) :
    closing (pre ++ (mid ++ rest)) pre.length =
      closing (pre ++ mid ++ rest) (pre ++ mid).length := by
  induction mid generalizing pre with
  | nil => simp
  | cons b mid ih =>
    have hb := h b (by simp)
    simp only [byteIs,List.mem_cons,List.not_mem_nil,or_false,decide_eq_false_iff_not,
      not_or] at hb
    rw [List.cons_append,closing_cons,if_neg (by simp [byteIs,hb.2]),if_neg (by simp [byteIs,hb.1]),
      ih (fun b' hb' => h b' (by simp [hb']))]
    simp

/-- There are no parentheses in the brackets of a reference. -/
theorem not_parenthesis_of_ref (i : Nat) : ∀ b ∈ '['.toUInt8 :: (number i ++ [']'.toUInt8]),
    byteIs (· ∈ ['(', ')']) b = false := by
  intro b hb
  simp only [List.mem_cons,List.mem_append,List.not_mem_nil,or_false] at hb
  rcases hb with rfl | hb | rfl
  · simp
  · by_contra hn
    have hd := isDigit_of_mem_number hb
    have hp : Char.ofUInt8 b ∈ ['(', ')'] := by simpa only [byteIs,decide_eq_false_iff_not,
      not_not] using hn
    simp only [List.mem_cons,List.not_mem_nil,or_false] at hp
    rcases hp with hp | hp <;> rw [byteIs,hp] at hd <;> cases hd
  · simp

theorem renders_closing : Renders closing Pattern.closing := by
  intro pre text h
  induction text generalizing pre with
  | nil =>
    have hn : (pre ++ code [])[pre.length]? = none := getElem?_length pre []
    rw [closing]
    split
    · rfl
    · rename_i b hs
      cases hn.symm.trans hs
  | cons t text ih =>
    cases t with
    | char c =>
      obtain ⟨hc,ht⟩ := Fragment.allowed_char.mp h
      rw [code_char hc,closing_cons,byteIs_of_isAllowed hc,byteIs_of_isAllowed hc]
      by_cases hclose : c = ')'
      · subst hclose
        have hr : Pattern.closing (.char ')' :: text) = some ([.char ')'], text) := rfl
        simp [hr,code_char hc]
      · by_cases hopen : c = '('
        · subst hopen
          have hr : Pattern.closing (.char '(' :: text) = none := rfl
          simp [hr]
        · have hp : (Token.char c).isParenthesis = false := by
            simp [Token.isParenthesis,hclose,hopen]
          rw [if_neg (by simpa using hclose),if_neg (by simpa using hopen),ih _ ht,
            Pattern.closing_of_not hp]
          cases Pattern.closing text <;> simp [code_char hc]
    | ref i content =>
      have hcode : code (.ref i content :: text) =
          ('['.toUInt8 :: (number i ++ [']'.toUInt8])) ++ code text := by
        simp [code_ref]
      rw [hcode,closing_skip (not_parenthesis_of_ref i),ih _ (Fragment.allowed_ref.mp h).2,
        Pattern.closing_of_not rfl]
      cases Pattern.closing text <;> simp [code_ref]

theorem renders_group : Renders group Pattern.group := by
  rw [Pattern.group_eq_seq]
  exact renders_seq (renders_sign (by decide)) (Pattern.single_cuts _) renders_closing

end Renders

end Inline
end Fluxion.Formula
