import Fluxion.Exercise
import Fluxion.Proofs.Spelling

/-! Formulas are tidy. What can be read closes every group that it opens and has no white
space, so that it is taken as it is when it comes as an equation or as an answer. -/
namespace Fluxion

namespace Text

def bytes : List Char → Nat
  | [] => 0
  | c :: s => c.utf8Size + bytes s

/-- Whatever groups are open in front of it, a text leaves just these open. -/
def Balanced (s : List Char) : Prop :=
  ∀ (depth offset : Nat) (rest : List Char),
    unbalancedFrom? depth offset (s ++ rest) = unbalancedFrom? depth (offset + bytes s) rest

section Bytes

@[simp] theorem bytes_nil : bytes [] = 0 := rfl

@[simp] theorem bytes_cons (c : Char) (s : List Char) :
    bytes (c :: s) = c.utf8Size + bytes s := rfl

@[simp] theorem bytes_append (s s' : List Char) : bytes (s ++ s') = bytes s + bytes s' := by
  induction s with
  | nil => simp
  | cons c s ih => simp [ih,Nat.add_assoc]

end Bytes

section Passing

variable (depth offset : Nat) (rest : List Char)

theorem unbalancedFrom?_open :
    unbalancedFrom? depth offset ('(' :: rest) = unbalancedFrom? (depth + 1) (offset + 1) rest := by
  cases depth <;> simp [unbalancedFrom?,Char.utf8Size]

theorem unbalancedFrom?_close :
    unbalancedFrom? (depth + 1) offset (')' :: rest) = unbalancedFrom? depth (offset + 1) rest := by
  simp [unbalancedFrom?,Char.utf8Size]

theorem unbalancedFrom?_other {c : Char} (ho : c ≠ '(') (hc : c ≠ ')') :
    unbalancedFrom? depth offset (c :: rest) =
      unbalancedFrom? depth (offset + c.utf8Size) rest := by
  cases depth <;> simp [unbalancedFrom?,ho,hc]

end Passing

namespace Balanced

variable {s s' : List Char}

theorem nil : Balanced [] := fun _ _ _ => rfl

theorem cons {c : Char} (ho : c ≠ '(') (hc : c ≠ ')') (h : Balanced s) : Balanced (c :: s) := by
  intro depth offset rest
  rw [List.cons_append,unbalancedFrom?_other depth offset _ ho hc,h,bytes_cons,Nat.add_assoc]

theorem append (h : Balanced s) (h' : Balanced s') : Balanced (s ++ s') := by
  intro depth offset rest
  rw [List.append_assoc,h,h',bytes_append,Nat.add_assoc]

theorem group (h : Balanced s) : Balanced ('(' :: s ++ [')']) := by
  intro depth offset rest
  have hs : ('(' :: s ++ [')']) ++ rest = '(' :: (s ++ ')' :: rest) := by simp
  have hb : offset + 1 + bytes s + 1 = offset + bytes ('(' :: s ++ [')']) := by
    simp [Char.utf8Size]
    omega
  rw [hs,unbalancedFrom?_open,h,unbalancedFrom?_close,hb]

theorem of_isAlphanum (h : ∀ c ∈ s, c.isAlphanum = true) : Balanced s := by
  induction s with
  | nil => exact nil
  | cons c s ih =>
    have hc := h c (by simp)
    refine cons ?_ ?_ (ih fun d hd => h d (by simp [hd])) <;> rintro rfl <;> cases hc

theorem unbalanced?_eq_none (h : Balanced s) : unbalanced? s = none := by
  have hs := h 0 0 []
  rwa [List.append_nil] at hs

end Balanced

theorem strip_eq_self {s : List Char} (h : ∀ c ∈ s, isBlank c = false) : strip s = s :=
  List.filter_eq_self.mpr fun c hc => by simp [h c hc]

end Text

namespace Formula

theorem Written.balanced {p : Option Char} {s : List Char} {t : Expr} (h : Written p s t) :
    Text.Balanced s := by
  induction h with
  | number hn hd hv =>
    exact .of_isAlphanum fun c hc => by simp [Char.isAlphanum,hd c hc]
  | literal hp hn hd hv =>
    refine .cons (by decide) (by decide) (.of_isAlphanum fun c hc => ?_)
    simp [Char.isAlphanum,hd c hc]
  | name hn ha => exact .of_isAlphanum fun c hc => by simp [Char.isAlphanum,ha c hc]
  | group h ih => exact ih.group
  | minus hp h ih => exact ih.cons (by decide) (by decide)
  | logarithm h ih => exact (ih.group.cons (by decide) (by decide)).cons (by decide) (by decide)
  | operation op h h' ih ih' =>
    refine ih.append (ih'.cons ?_ ?_) <;> cases op <;> decide
  | juxtaposition h h' ih ih' => exact ih.append ih'

theorem not_isBlank_of_isAllowed {c : Char} (h : isAllowed c = true) : Text.isBlank c = false := by
  have hr : 40 ≤ c.toNat ∧ c.toNat ≤ 122 := by
    simp only [isAllowed,Char.isAlphanum,Char.isAlpha,Char.isUpper,Char.isLower,Char.isDigit,
      Bool.or_eq_true,Bool.and_eq_true,decide_eq_true_eq,ge_iff_le,UInt32.le_iff_toNat_le,
      List.mem_cons,List.not_mem_nil,or_false] at h
    rcases h with ((h | h) | h) | (rfl | rfl | rfl | rfl | rfl | rfl | rfl)
    iterate 3 exact ⟨h.1.trans' (by decide),h.2.trans (by decide)⟩
    all_goals decide
  refine Bool.eq_false_iff.mpr fun hb => ?_
  simp [Text.isBlank,Text.blankRanges] at hb
  omega

end Formula

/-- What can be read is balanced and has no white space. -/
theorem tidy_of_parse {s : String} {t : Expr} (h : Formula.parse s = .ok t) : tidy s = .ok s := by
  have hb : ∀ c ∈ s.toList, Text.isBlank c = false := fun c hc =>
    Formula.not_isBlank_of_isAllowed (Formula.isAllowed_of_parse h c hc)
  simp only [tidy,Text.strip_eq_self hb,(Formula.Written.of_parse h).balanced.unbalanced?_eq_none,
    String.ofList_toList]

theorem readFormula_of_parse {s : String} {t : Expr} (h : Formula.parse s = .ok t) :
    readFormula s = .ok t := by
  rw [readFormula,tidy_of_parse h]
  exact congrArg (Except.mapError InputError.parse) h

end Fluxion
