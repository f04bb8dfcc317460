import Fluxion.Formula.Tier
import Mathlib.Data.List.Basic
import Mathlib.Data.List.TakeWhile

/-! Operands, the smallest parts that patterns see. An operand is a run of letters, a
run of digits or a reference, and the pattern for it takes runs as long as they are. -/
namespace Fluxion.Formula

theorem not_isDigit_of_isAlpha {c : Char} (h : c.isAlpha = true) : c.isDigit = false := by
  have hu : c.isUpper = decide ('A'.val ≤ c.val ∧ c.val ≤ 'Z'.val) := rfl
  have hl : c.isLower = (decide ('a'.val ≤ c.val) && decide (c.val ≤ 'z'.val)) := rfl
  have hd : c.isDigit = (decide ('0'.val ≤ c.val) && decide (c.val ≤ '9'.val)) := rfl
  have ha : (c.isUpper || c.isLower) = true := h
  rw [hu,hl] at ha
  rw [hd]
  simp only [Bool.or_eq_true,decide_eq_true_eq,Bool.and_eq_true,UInt32.le_iff_toNat_le] at ha
  change (65 ≤ c.val.toNat ∧ c.val.toNat ≤ 90) ∨ (97 ≤ c.val.toNat ∧ c.val.toNat ≤ 122) at ha
  simp only [Bool.and_eq_false_iff,decide_eq_false_iff_not,UInt32.le_iff_toNat_le]
  change ¬48 ≤ c.val.toNat ∨ ¬c.val.toNat ≤ 57
  omega

namespace Token

def isOperand (t : Token) : Bool := t.isLetter || t.isDigit || t.isReference

/-- Whether a run that ends with the first token goes on with the second. -/
def prolongs (last t : Token) : Bool :=
  last.isLetter && t.isLetter || last.isDigit && t.isDigit

theorem not_isDigit_of_isLetter {t : Token} (h : t.isLetter = true) : t.isDigit = false := by
  cases t with
  | char c => exact not_isDigit_of_isAlpha h
  | ref i a => rfl

theorem not_isLetter_of_isDigit {t : Token} (h : t.isDigit = true) : t.isLetter = false := by
  cases hl : t.isLetter with
  | false => rfl
  | true => simp [not_isDigit_of_isLetter hl] at h

theorem not_isOperand_of_isOperator {t : Token} (h : t.isOperator = true) :
    t.isOperand = false := by
  cases t with
  | ref i a => cases h
  | char c =>
    have hm : c ∈ ['+', '-', '*', '/', '^'] := by simpa [isOperator] using h
    simp only [List.mem_cons,List.not_mem_nil,or_false] at hm
    rcases hm with rfl | rfl | rfl | rfl | rfl <;> rfl

theorem eq_of_isParenthesis {t : Token} (h : t.isParenthesis = true) :
    t = .char '(' ∨ t = .char ')' := by
  cases t with
  | ref i a => cases h
  | char c => simpa [isParenthesis] using h

theorem exists_char_of_isLetter {t : Token} (h : t.isLetter = true) :
    ∃ c : Char, t = .char c ∧ c.isAlpha = true := by
  cases t with
  | ref i a => cases h
  | char c => exact ⟨c,rfl,h⟩

@[simp] theorem isOperand_ref (i : Nat) (a : Fragment) : (ref i a).isOperand = true := rfl

/-- The second factor of a product without a sign is an operand of its own. -/
theorem isOperand_of_second {t : Token} (h : t.isReference = true ∨ t.isLetter = true) :
    t.isOperand = true := by
  rcases h with h | h <;> simp [isOperand,h]

end Token

namespace Fragment

/-- What stands for a number, a variable or a part that has been set aside. -/
inductive Operand : Fragment → Prop
  | name {cs : List Char} (hn : cs ≠ []) (hc : ∀ c ∈ cs, c.isAlpha = true) : Operand (cs.map .char)
  | number {cs : List Char} (hn : cs ≠ []) (hc : ∀ c ∈ cs, c.isDigit = true) :
    Operand (cs.map .char)
  | reference (i : Nat) (a : Fragment) : Operand [.ref i a]

/-- The text behind does not prolong the run at the end of the text in front. -/
def Ends (a rest : Fragment) : Prop :=
  ∀ x ∈ a.getLast?, ∀ t ∈ rest.head?, Token.prolongs x t = false

theorem ends_ref (a : Fragment) (i : Nat) (content rest : Fragment) :
    a.Ends (.ref i content :: rest) := by
  intro x _ t ht
  cases ht
  simp [Token.prolongs,Token.isLetter,Token.isDigit]

theorem ends_letter {a : Fragment} (hn : ∀ t ∈ a, t.isLetter = false) {x : Token}
    (hx : x.isLetter = true) (rest : Fragment) : a.Ends (x :: rest) := by
  intro y hy t ht
  cases ht
  simp [Token.prolongs,hn y (List.mem_of_getLast? hy),Token.not_isDigit_of_isLetter hx]

theorem ends_of_letters {a rest : Fragment} (ha : ∀ t ∈ a, t.isLetter = true)
    (hr : ∀ t ∈ rest.head?, t.isLetter = false) : a.Ends rest := by
  intro x hx t ht
  have hx := ha x (List.mem_of_getLast? hx)
  simp [Token.prolongs,hr t ht,Token.not_isDigit_of_isLetter hx]

theorem ends_of_digits {a rest : Fragment} (ha : ∀ t ∈ a, t.isDigit = true)
    (hr : ∀ t ∈ rest.head?, t.isDigit = false) : a.Ends rest := by
  intro x hx t ht
  have hx := ha x (List.mem_of_getLast? hx)
  simp [Token.prolongs,hr t ht,Token.not_isLetter_of_isDigit hx]

section Runs

variable {cs : List Char} {rest : Fragment} (hn : cs ≠ [])
include hn

theorem Ends.not_isLetter (h : Ends (cs.map .char) rest) (hc : ∀ c ∈ cs, c.isAlpha = true) :
    ∀ t ∈ rest.head?, t.isLetter = false := by
  intro t ht
  obtain ⟨ds,c,rfl⟩ := List.eq_nil_or_concat' cs |>.resolve_left hn
  have hp := h (.char c) (by simp) t ht
  have hl : (Token.char c).isLetter = true := hc c (by simp)
  rw [Token.prolongs,hl,Bool.true_and,Bool.or_eq_false_iff] at hp
  exact hp.1

theorem Ends.not_isDigit (h : Ends (cs.map .char) rest) (hc : ∀ c ∈ cs, c.isDigit = true) :
    ∀ t ∈ rest.head?, t.isDigit = false := by
  intro t ht
  obtain ⟨ds,c,rfl⟩ := List.eq_nil_or_concat' cs |>.resolve_left hn
  have hp := h (.char c) (by simp) t ht
  have hd : (Token.char c).isDigit = true := hc c (by simp)
  rw [Token.prolongs,hd,Bool.true_and,Bool.or_eq_false_iff] at hp
  exact hp.2

theorem has_letter (hc : ∀ c ∈ cs, c.isAlpha = true) :
    ¬∀ t ∈ cs.map Token.char, t.isLetter = false := by
  intro h
  obtain ⟨c,hm⟩ := List.exists_mem_of_ne_nil cs hn
  have hl : c.isAlpha = false := h (.char c) (List.mem_map_of_mem hm)
  rw [hc c hm] at hl
  cases hl

end Runs

theorem Operand.isLetter_of_mem {a : Fragment} (h : a.Operand) {x : Token} (hm : x ∈ a)
    (hx : x.isLetter = true) : ∀ t ∈ a, t.isLetter = true := by
  cases h with
  | name hn hc =>
    intro t ht
    obtain ⟨c,hm,rfl⟩ := List.mem_map.mp ht
    exact hc c hm
  | number hn hc =>
    obtain ⟨c,hcm,rfl⟩ := List.mem_map.mp hm
    have hd : (Token.char c).isDigit = true := hc c hcm
    rw [Token.not_isDigit_of_isLetter hx] at hd
    cases hd
  | reference i c =>
    rw [List.mem_singleton.mp hm] at hx
    cases hx

theorem Operand.not_isLetter_of_cons {t : Token} {a : Fragment} (h : Operand (t :: a)) (hn : a ≠ [])
    (ha : ∀ x ∈ a, x.isLetter = false) : ∀ x ∈ t :: a, x.isLetter = false := by
  obtain ⟨y,hy⟩ := List.exists_mem_of_ne_nil a hn
  intro x hx
  by_contra hl
  have hl := h.isLetter_of_mem hx (by simpa using hl) y (by simp [hy])
  rw [ha y hy] at hl
  cases hl

theorem eq_map_char_of_isLetter {a : Fragment} (h : ∀ t ∈ a, t.isLetter = true) :
    ∃ cs : List Char, a = cs.map .char ∧ ∀ c ∈ cs, c.isAlpha = true := by
  induction a with
  | nil => exact ⟨[],rfl,by simp⟩
  | cons t a ih =>
    obtain ⟨cs,rfl,hc⟩ := ih fun u hu => h u (by simp [hu])
    cases t with
    | char c => exact ⟨c :: cs,rfl,by simpa [Token.isLetter] using ⟨h (.char c) (by simp),hc⟩⟩
    | ref i b => simpa [Token.isLetter] using h (.ref i b) (by simp)

theorem eq_map_char_of_isDigit {a : Fragment} (h : ∀ t ∈ a, t.isDigit = true) :
    ∃ cs : List Char, a = cs.map .char ∧ ∀ c ∈ cs, c.isDigit = true := by
  induction a with
  | nil => exact ⟨[],rfl,by simp⟩
  | cons t a ih =>
    obtain ⟨cs,rfl,hc⟩ := ih fun u hu => h u (by simp [hu])
    cases t with
    | char c => exact ⟨c :: cs,rfl,by simpa [Token.isDigit] using ⟨h (.char c) (by simp),hc⟩⟩
    | ref i b => simpa [Token.isDigit] using h (.ref i b) (by simp)

/-- The end of an operand is a token that operands are made of. -/
theorem Operand.getLast? {a : Fragment} (h : a.Operand) : ∃ x ∈ a.getLast?, x.isOperand = true := by
  cases h with
  | @name cs hn hc =>
    refine ⟨.char (cs.getLast hn),by simp [List.getLast?_eq_some_getLast hn],?_⟩
    simp [Token.isOperand,Token.isLetter,hc _ (cs.getLast_mem hn)]
  | @number cs hn hc =>
    refine ⟨.char (cs.getLast hn),by simp [List.getLast?_eq_some_getLast hn],?_⟩
    simp [Token.isOperand,Token.isDigit,hc _ (cs.getLast_mem hn)]
  | reference i a => exact ⟨_,rfl,rfl⟩

theorem Operand.ne_nil {a : Fragment} (h : a.Operand) : a ≠ [] := by
  rintro rfl
  obtain ⟨x,hx,-⟩ := h.getLast?
  cases hx

theorem Operand.isOperand {a : Fragment} (h : a.Operand) : ∀ t ∈ a, t.isOperand = true := by
  cases h with
  | name hn hc =>
    intro t ht
    obtain ⟨c,hm,rfl⟩ := List.mem_map.mp ht
    simp [Token.isOperand,Token.isLetter,hc c hm]
  | number hn hc =>
    intro t ht
    obtain ⟨c,hm,rfl⟩ := List.mem_map.mp ht
    simp [Token.isOperand,Token.isDigit,hc c hm]
  | reference i c => simp

/-- What is left of a run without its last character is a run. -/
theorem Operand.of_concat {a : Fragment} {x : Token} (h : Operand (a ++ [x])) (hn : a ≠ []) :
    a.Operand := by
  generalize hb : a ++ [x] = b at h
  cases h with
  | @name cs hne hc =>
    obtain ⟨ds,es,rfl,rfl,-⟩ := List.append_eq_map_iff.mp hb
    exact .name (by simpa using hn) fun c hm => hc c (by simp [hm])
  | @number cs hne hc =>
    obtain ⟨ds,es,rfl,rfl,-⟩ := List.append_eq_map_iff.mp hb
    exact .number (by simpa using hn) fun c hm => hc c (by simp [hm])
  | reference i content =>
    have hl := congrArg List.length hb
    simp at hl
    exact absurd hl hn

end Fragment

namespace Pattern

theorem run_eq_some_iff {p : Token → Bool} {text a rest : Fragment} :
    run p text = some (a, rest) ↔
      text = a ++ rest ∧ a ≠ [] ∧ (∀ t ∈ a, p t = true) ∧ ∀ t ∈ rest.head?, p t = false := by
  simp only [run]
  constructor
  · intro h
    split at h
    · cases h
    · rename_i hn
      cases h
      refine ⟨List.takeWhile_append_dropWhile.symm,hn,fun t ht => List.mem_takeWhile_imp ht,?_⟩
      intro t ht
      have hh := List.head?_dropWhile_not p text
      rw [Option.mem_def.mp ht] at hh
      simpa using hh
  · rintro ⟨rfl,hn,ha,hr⟩
    have ht : (a ++ rest).takeWhile p = a := by
      rw [List.takeWhile_append_of_pos ha]
      cases rest <;> simp_all
    have hd : (a ++ rest).dropWhile p = rest := by
      rw [List.dropWhile_append_of_pos ha]
      cases rest <;> simp_all
    simp [ht,hd,hn]

theorem run_eq_none_iff {p : Token → Bool} {text : Fragment} :
    run p text = none ↔ ∀ t ∈ text.head?, p t = false := by
  cases text <;> simp [run,List.takeWhile_cons]

theorem operand_of_operand_eq_some {text a rest : Fragment} (h : operand text = some (a, rest)) :
    text = a ++ rest ∧ a.Operand ∧ a.Ends rest := by
  simp only [operand,letters,digits,reference,orElse] at h
  split at h
  · split at h
    · cases text with
      | nil => simp [single] at h
      | cons t text =>
        cases t with
        | char c => simp [single,Token.isReference] at h
        | ref i b =>
          simp only [single,Token.isReference,if_true,Option.some.injEq,Prod.mk.injEq] at h
          obtain ⟨rfl,rfl⟩ := h
          refine ⟨rfl,.reference i b,?_⟩
          simp [Fragment.Ends,Token.prolongs,Token.isLetter,Token.isDigit]
    · rename_i hd
      cases h
      obtain ⟨rfl,hn,ha,hr⟩ := run_eq_some_iff.mp hd
      obtain ⟨cs,rfl,hc⟩ := Fragment.eq_map_char_of_isDigit ha
      exact ⟨rfl,.number (by simpa using hn) hc,Fragment.ends_of_digits ha hr⟩
  · rename_i hl
    cases h
    obtain ⟨rfl,hn,ha,hr⟩ := run_eq_some_iff.mp hl
    obtain ⟨cs,rfl,hc⟩ := Fragment.eq_map_char_of_isLetter ha
    exact ⟨rfl,.name (by simpa using hn) hc,Fragment.ends_of_letters ha hr⟩

theorem operand_append {a rest : Fragment} (ho : a.Operand) (he : a.Ends rest) :
    operand (a ++ rest) = some (a, rest) := by
  cases ho with
  | @name cs hn hc =>
    have ha : ∀ t ∈ cs.map Token.char, t.isLetter = true := by simpa [Token.isLetter] using hc
    simp only [operand,orElse,letters]
    rw [run_eq_some_iff.mpr ⟨rfl,by simpa using hn,ha,he.not_isLetter hn hc⟩]
  | @number cs hn hc =>
    have ha : ∀ t ∈ cs.map Token.char, t.isDigit = true := by simpa [Token.isDigit] using hc
    have hl : run Token.isLetter (cs.map .char ++ rest) = none := by
      refine run_eq_none_iff.mpr fun t ht => Token.not_isLetter_of_isDigit (ha t ?_)
      cases cs with
      | nil => exact absurd rfl hn
      | cons c cs => simp at ht; simp [ht]
    simp only [operand,orElse,letters,digits,hl]
    rw [run_eq_some_iff.mpr ⟨rfl,by simpa using hn,ha,he.not_isDigit hn hc⟩]
  | reference i a => simp [operand,orElse,letters,digits,reference,run,single,Token.isLetter,
      Token.isDigit,Token.isReference]

theorem operand_eq_some_iff {text a rest : Fragment} :
    operand text = some (a, rest) ↔ text = a ++ rest ∧ a.Operand ∧ a.Ends rest := by
  refine ⟨operand_of_operand_eq_some,?_⟩
  rintro ⟨rfl,ho,he⟩
  exact operand_append ho he

theorem operand_eq_none_iff {text : Fragment} :
    operand text = none ↔ ∀ t ∈ text.head?, t.isOperand = false := by
  cases text with
  | nil => simp [operand,orElse,letters,digits,reference,run,single]
  | cons t text =>
    have hl := @run_eq_none_iff Token.isLetter (t :: text)
    have hd := @run_eq_none_iff Token.isDigit (t :: text)
    simp only [List.head?_cons,Option.mem_some_iff,forall_eq'] at hl hd ⊢
    cases ht : t.isLetter with
    | true =>
      cases h : run Token.isLetter (t :: text) with
      | none => simp [hl.mp h] at ht
      | some r => simp [operand,orElse,letters,h,Token.isOperand,ht]
    | false =>
      cases hu : t.isDigit with
      | true =>
        cases h : run Token.isDigit (t :: text) with
        | none => simp [hd.mp h] at hu
        | some r => simp [operand,orElse,letters,digits,hl.mpr ht,h,Token.isOperand,hu]
      | false =>
        simp [operand,orElse,letters,digits,hl.mpr ht,hd.mpr hu,Token.isOperand,ht,hu,reference,single]

end Pattern
end Fluxion.Formula
