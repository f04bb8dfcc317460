import Fluxion.Proofs.Pairing

/-! What becomes of an input. It loses its white space, and then its parentheses are counted
from the left. The counter tells how many groups are open, so it never goes below zero; where
it stops the scan is the first parenthesis that closes more than is open, or the end of the
text if something is still open there. -/
namespace Fluxion

namespace Text

/-- Where the count has come to: the counter, the bytes in front and what is left of the text.
The counter is an integer, and it is not for its type that it never goes below zero. -/
structure Progress where
  depth : Int
  offset : Nat
  rest : List Char

namespace Progress

def start (s : List Char) : Progress := ⟨0, 0, s⟩

/-- One character more. The count does not go on behind a closing parenthesis if it is at zero. -/
inductive Step : Progress → Progress → Prop
  | opening (depth : Int) (offset : Nat) (s : List Char) :
    Step ⟨depth, offset, '(' :: s⟩ ⟨depth + 1, offset + 1, s⟩
  | closing {depth : Int} (h : depth ≠ 0) (offset : Nat) (s : List Char) :
    Step ⟨depth, offset, ')' :: s⟩ ⟨depth - 1, offset + 1, s⟩
  | other (depth : Int) (offset : Nat) {c : Char} (ho : c ≠ '(') (hc : c ≠ ')')
    (s : List Char) : Step ⟨depth, offset, c :: s⟩ ⟨depth, offset + c.utf8Size, s⟩

/-- The count comes to this in the course of a text. -/
def Reached (s : List Char) (p : Progress) : Prop := Relation.ReflTransGen Step (start s) p

def Stuck (p : Progress) : Prop := ∀ q, ¬Step p q

/-- What is reported where the count has come to its end. -/
def failure? (p : Progress) : Option Nat :=
  if p.rest = [] ∧ p.depth = 0 then none else some p.offset

/-- What the count has passed, and that it has seen no excess of closing parentheses there. -/
structure Passed (s part : List Char) (p : Progress) : Prop where
  text : s = part ++ p.rest
  offset : p.offset = bytes part
  depth : p.depth + part.count ')' = part.count '('
  enough : ∀ front, front <+: part → front.count ')' ≤ front.count '('

namespace Passed

variable {s part : List Char} {p q : Progress}

theorem start (s : List Char) : Passed s [] (start s) where
  text := rfl
  offset := rfl
  depth := rfl
  enough := by
    intro front h
    rw [List.prefix_nil.mp h]
    rfl

theorem depth_nonneg (h : Passed s part p) : 0 ≤ p.depth := by
  have he := h.enough part (List.prefix_refl part)
  have hd := h.depth
  omega

theorem enough_concat (h : Passed s part p) {c : Char}
    (hc : (part ++ [c]).count ')' ≤ (part ++ [c]).count '(') :
    ∀ front, front <+: part ++ [c] → front.count ')' ≤ front.count '(' := by
  intro front hf
  rcases List.prefix_concat_iff.mp hf with rfl | hf
  · exact hc
  · exact h.enough front hf

theorem step (h : Passed s part p) (hs : Step p q) : ∃ part', Passed s part' q := by
  have hd := h.depth
  have hn := h.depth_nonneg
  have ho := h.offset
  cases hs with
  | opening depth offset rest =>
    refine ⟨part ++ ['('],by simp [h.text],by simp_all [Char.utf8Size],?_,h.enough_concat ?_⟩
    · simp at hd ⊢
      omega
    · simp at hd hn ⊢
      omega
  | closing hz offset rest =>
    refine ⟨part ++ [')'],by simp [h.text],by simp_all [Char.utf8Size],?_,h.enough_concat ?_⟩
    · simp at hd ⊢
      omega
    · simp at hd hn ⊢
      omega
  | @other depth offset c hc hc' rest =>
    refine ⟨part ++ [c],by simp [h.text],by simp_all,?_,h.enough_concat ?_⟩
    · simpa [hc,hc'] using hd
    · simpa [hc,hc'] using h.enough part (List.prefix_refl part)

end Passed

theorem Reached.passed {s : List Char} {p : Progress} (h : Reached s p) :
    ∃ part, Passed s part p := by
  induction h with
  | refl => exact ⟨[],Passed.start s⟩
  | tail _ hs ih =>
    obtain ⟨part,hp⟩ := ih
    exact hp.step hs

/-- The count comes to an end, and there it reports what the scan reports. -/
theorem exists_stuck (depth offset : Nat) (s : List Char) :
    ∃ p, Relation.ReflTransGen Step ⟨depth, offset, s⟩ p ∧ p.Stuck ∧
      p.failure? = unbalancedFrom? depth offset s := by
  induction s generalizing depth offset with
  | nil =>
    refine ⟨_,.refl,nofun,?_⟩
    cases depth <;> simp [failure?,unbalancedFrom?]
    omega
  | cons c s ih =>
    by_cases ho : c = '('
    · subst ho
      obtain ⟨p,hr,hp⟩ := ih (depth + 1) (offset + 1)
      rw [unbalancedFrom?_open]
      exact ⟨p,.head (.opening depth offset s) hr,hp⟩
    by_cases hc : c = ')'
    · subst hc
      cases depth with
      | zero =>
        refine ⟨_,.refl,?_,by simp [failure?,unbalancedFrom?]⟩
        rintro q (_ | hz | ⟨_,_,_,hc⟩)
        · exact hz rfl
        · exact hc rfl
      | succ depth =>
        obtain ⟨p,hr,hp⟩ := ih depth (offset + 1)
        have hs : Step ⟨(depth : Int) + 1, offset, ')' :: s⟩ ⟨depth + 1 - 1, offset + 1, s⟩ :=
          .closing (by omega) offset s
        rw [add_sub_cancel_right] at hs
        rw [unbalancedFrom?_close]
        exact ⟨p,.head hs hr,hp⟩
    · obtain ⟨p,hr,hp⟩ := ih depth (offset + c.utf8Size)
      rw [unbalancedFrom?_other depth offset s ho hc]
      exact ⟨p,.head (.other depth offset ho hc s) hr,hp⟩

theorem stuck_cases {p : Progress} (h : p.Stuck) :
    p.rest = [] ∨ p.depth = 0 ∧ ∃ rest, p.rest = ')' :: rest := by
  obtain ⟨depth,offset,_ | ⟨c,s⟩⟩ := p
  · exact .inl rfl
  · by_cases ho : c = '('
    · subst ho
      exact absurd (.opening depth offset s) (h _)
    by_cases hc : c = ')'
    · subst hc
      by_cases hz : depth = 0
      · exact .inr ⟨hz,s,rfl⟩
      · exact absurd (.closing hz offset s) (h _)
    · exact absurd (.other depth offset ho hc s) (h _)

end Progress

/-- Right behind this part of a text there is a closing parenthesis, and up to it more groups
are closed than are opened. -/
structure Excess (s part : List Char) : Prop where
  front : part ++ [')'] <+: s
  more : (part ++ [')']).count '(' < (part ++ [')']).count ')'

/-- The place of the first closing parenthesis that is one too many, or of the end of the text
if there is none, in bytes. -/
def IsFailure (s : List Char) (index : Nat) : Prop :=
  (∃ part, Excess s part ∧ (∀ part', Excess s part' → part.length ≤ part'.length) ∧
    index = bytes part) ∨
  (∀ part, ¬Excess s part) ∧ index = bytes s

theorem Paired.not_excess {s part : List Char} (h : Paired 0 s) : ¬Excess s part := by
  intro he
  have hle := h.enough _ he.front
  have hlt := he.more
  omega

open Progress in
theorem failure?_of_stuck {s : List Char} {p : Progress} (hr : Reached s p) (hs : p.Stuck) :
    (Paired 0 s → p.failure? = none) ∧
      (¬Paired 0 s → ∃ index, p.failure? = some index ∧ IsFailure s index) := by
  obtain ⟨part,hp⟩ := hr.passed
  have hd := hp.depth
  rcases stuck_cases hs with he | ⟨hz,rest,he⟩
  · have ht : s = part := by simpa [he] using hp.text
    subst ht
    have hiff : p.depth = 0 ↔ Paired 0 s := by
      constructor
      · intro hz
        exact ⟨by simpa using hp.enough,by omega⟩
      · intro h
        have hc := h.closed
        omega
    refine ⟨fun h => by simp [failure?,he,hiff.mpr h],fun h => ?_⟩
    have hf : p.failure? = some (bytes s) := by simp [failure?,mt hiff.mp h,hp.offset]
    refine ⟨_,hf,.inr ⟨fun part' hx => ?_,rfl⟩⟩
    have hle := hp.enough _ hx.front
    have hlt := hx.more
    omega
  · have hx : Excess s part := ⟨⟨rest,by rw [hp.text,he]; simp⟩,by simp; omega⟩
    have hf : p.failure? = some (bytes part) := by simp [failure?,he,hp.offset]
    refine ⟨fun h => absurd hx h.not_excess,fun _ => ⟨_,hf,.inl ⟨part,hx,fun part' hx' => ?_,rfl⟩⟩⟩
    by_contra hlt
    have hfront : part' ++ [')'] <+: part :=
      List.prefix_of_prefix_length_le hx'.front ⟨p.rest,hp.text.symm⟩ (by simp; omega)
    have hle := hp.enough _ hfront
    have hmore := hx'.more
    omega

end Text

/-- An input is rid of its white space and then taken as it is if its parentheses are in pairs,
and so is the result. Otherwise the place of the failure in it is reported, in bytes. The
counter of open groups is never below zero on the way, and what is reported is what it comes
to. White space does not count. -/
theorem tidy_exact (input : String) {s : List Char} (hs : Text.strip input.toList = s) :
    (Text.Paired 0 s →
      tidy input = .ok (String.ofList s) ∧ tidy (String.ofList s) = .ok (String.ofList s)) ∧
    (¬Text.Paired 0 s →
      ∃ index, tidy input = .error (.unbalancedParentheses index) ∧ Text.IsFailure s index) ∧
    (∀ p, Text.Progress.Reached s p → 0 ≤ p.depth) ∧
    (∃ p, Text.Progress.Reached s p ∧ p.Stuck ∧
      tidy input = p.failure?.elim (.ok (String.ofList s)) (.error ∘ .unbalancedParentheses)) ∧
    ∀ other : String, Text.strip other.toList = s → tidy other = tidy input := by
  obtain ⟨p,hr,hp,hf⟩ := Text.Progress.exists_stuck 0 0 s
  have ht : tidy input =
      p.failure?.elim (.ok (String.ofList s)) (.error ∘ .unbalancedParentheses) := by
    rw [hf]
    simp only [tidy,hs,Text.unbalanced?]
    cases Text.unbalancedFrom? 0 0 s <;> rfl
  obtain ⟨hpaired,hnot⟩ := Text.failure?_of_stuck hr hp
  refine ⟨fun h => ⟨by rw [ht,hpaired h]; rfl,?_⟩,fun h => ?_,fun q hq => ?_,⟨p,hr,hp,ht⟩,
    fun other ho => tidy_congr (ho.trans hs.symm)⟩
  · refine tidy_eq_ok_self_iff.mpr ⟨by simpa using h,fun c hc => ?_⟩
    rw [String.toList_ofList,← hs] at hc
    simpa using (List.mem_filter.mp hc).2
  · obtain ⟨index,hi,hx⟩ := hnot h
    exact ⟨index,by rw [ht,hi]; rfl,hx⟩
  · obtain ⟨part,hpart⟩ := hq.passed
    exact hpart.depth_nonneg

/-- The first character takes two bytes. -/
theorem tidy_exact_excess :
    Text.strip " é (x) ) (\t".toList = "é(x))(".toList ∧ ¬Text.Paired 0 "é(x))(".toList ∧
      tidy " é (x) ) (\t" = .error (.unbalancedParentheses 5) ∧
      Text.IsFailure "é(x))(".toList 5 := by
  have hs : Text.strip " é (x) ) (\t".toList = "é(x))(".toList := by cbv
  have hp : ¬Text.Paired 0 "é(x))(".toList := fun h =>
    absurd (h.enough "é(x))".toList ⟨['('],rfl⟩) (by decide)
  have ht : tidy " é (x) ) (\t" = .error (.unbalancedParentheses 5) := by cbv
  obtain ⟨index,hi,hf⟩ := (tidy_exact _ hs).2.1 hp
  obtain rfl : 5 = index := by simpa using ht.symm.trans hi
  exact ⟨hs,hp,ht,hf⟩

end Fluxion
