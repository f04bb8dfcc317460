import Mathlib.Data.List.Induction
import Fluxion.Proofs.Spot

/-! What a place says about the text in front of it. Wherever a part of the text would have
been set aside before, the place shows it. -/
namespace Fluxion.Formula

/-- A letter right behind a number or a reference. -/
def Fragment.Joined (u : Fragment) : Prop :=
  ∃ v y x w, u = v ++ y :: x :: w ∧ (y.isDigit = true ∨ y.isReference = true) ∧ x.isLetter = true

/-- The beginning of a sum. -/
def Fragment.Added (u : Fragment) : Prop :=
  ∃ v c t w, ∃ op : BinaryOp, u = v ++ c :: .char op.symbol :: t :: w ∧ c.isOperand = true ∧
    op.level = 1 ∧ t.isOperand = true

theorem Fragment.Joined.concat {u : Fragment} (h : u.Joined) (t : Token) : Joined (u ++ [t]) := by
  obtain ⟨v,y,x,w,rfl,hy,hx⟩ := h
  exact ⟨v,y,x,w ++ [t],by simp,hy,hx⟩

theorem Fragment.Added.concat {u : Fragment} (h : u.Added) (t : Token) : Added (u ++ [t]) := by
  obtain ⟨v,c,x,w,op,rfl,hc,ho,hx⟩ := h
  exact ⟨v,c,x,w ++ [t],op,by simp,hc,ho,hx⟩

namespace Spot

/-- A text without parentheses and the place behind it. -/
inductive Situation : Fragment → Spot → Prop
  | start : Situation [] (operand .nothing)
  | minus {u : Fragment} (hu : ∀ t ∈ u.getLast?, t.isOperator = true) :
    Situation (u ++ [.char '-']) (operand .tight)
  | tight {u : Fragment} {c : Token} (op : BinaryOp) (ho : 2 ≤ op.level) (hc : c.isOperand = true) :
    Situation (u ++ [c] ++ [.char op.symbol]) (operand .tight)
  | sum {u : Fragment} {c : Token} (op : BinaryOp) (ho : op.level = 1) (hc : c.isOperand = true) :
    Situation (u ++ [c] ++ [.char op.symbol]) (operand .sum)
  | factor {u : Fragment} {c : Token} (hc : c.isReference = true) : Situation (u ++ [c]) factor
  | number {u : Fragment} {c : Token} (hc : c.isDigit = true) : Situation (u ++ [c]) number
  | name {u : Fragment} {c : Token} (front : Front) (letters : List Char) (hc : c.isLetter = true)
    (hj : front = .factor → Fragment.Joined (u ++ [c])) (hs : front = .sum → Fragment.Added (u ++ [c])) :
    Situation (u ++ [c]) (name front letters)
  | stray {u : Fragment} {c : Token} (bound : Bound) (hc : c.isDigit = true)
    (hj : bound = .chain → Fragment.Joined (u ++ [c])) (hs : bound = .sum → Fragment.Added (u ++ [c])) :
    Situation (u ++ [c]) (stray bound)
  | chain {u : Fragment} {c : Token} (hc : c.isLetter = true) (hj : Fragment.Joined (u ++ [c])) :
    Situation (u ++ [c]) chain

variable {s q : Spot} {t : Token} {u : Fragment}

theorem next_eq_some (h : s.next t = some q) (hf : t.isParenthesis = false) :
    (t.isReference = true ∧ q = factor) ∨
      (∃ c, t = .char c ∧ c.isAlpha = true ∧ s.letter c = some q) ∨
      (t.isDigit = true ∧ s.digit = some q) ∨
      (t = .char '-' ∧ s.isExpected = true ∧ q = operand .tight) ∨
      ∃ op : BinaryOp, t = .char op.symbol ∧ s.sign op = some q := by
  cases t with
  | ref i content =>
    rw [next_ref] at h
    split at h
    · cases h
      exact .inl ⟨rfl,rfl⟩
    · cases h
  | char c =>
    by_cases ha : c.isAlpha = true
    · rw [next_letter ha] at h
      exact .inr (.inl ⟨c,rfl,ha,h⟩)
    · by_cases hd : c.isDigit = true
      · rw [next_digit hd] at h
        exact .inr (.inr (.inl ⟨hd,h⟩))
      · simp only [Token.isParenthesis,Bool.or_eq_false_iff,decide_eq_false_iff_not] at hf
        simp only [next,if_neg ha,if_neg hd,if_neg hf.1,if_neg hf.2] at h
        split at h
        · rename_i hm
          cases h
          exact .inr (.inr (.inr (.inl ⟨congrArg Token.char hm.1,hm.2,rfl⟩)))
        · obtain ⟨op,hop,hs⟩ := Option.bind_eq_some_iff.mp h
          rw [← BinaryOp.symbol_of_ofSymbol? hop]
          exact .inr (.inr (.inr (.inr ⟨op,rfl,hs⟩)))

namespace Situation

theorem isOperator (h : Situation u s) (hs : s.isExpected = true) :
    ∀ t ∈ u.getLast?, t.isOperator = true := by
  intro t ht
  cases h with
  | start => cases ht
  | minus hu =>
    rw [List.getLast?_concat] at ht
    cases ht
    rfl
  | tight op | sum op =>
    rw [List.getLast?_concat] at ht
    cases ht
    cases op <;> rfl
  | _ => cases hs

theorem isOperand (h : Situation u s) (hs : s.isExpected = false) :
    ∃ v c, u = v ++ [c] ∧ c.isOperand = true := by
  cases h with
  | factor hc => exact ⟨_,_,rfl,by simp [Token.isOperand,hc]⟩
  | number hc | stray _ hc | name _ _ hc | chain hc => exact ⟨_,_,rfl,by simp [Token.isOperand,hc]⟩
  | _ => cases hs

theorem takes (h : Situation u s) (ht : s.takes t = true) :
    ∃ v c, u = v ++ [c] ∧ c.prolongs t = true := by
  cases h with
  | number hc | stray _ hc =>
    have ht : t.isDigit = true := ht
    exact ⟨_,_,rfl,by simp [Token.prolongs,hc,ht]⟩
  | name _ _ hc | chain hc =>
    have ht : t.isLetter = true := ht
    exact ⟨_,_,rfl,by simp [Token.prolongs,hc,ht]⟩
  | _ => cases ht

theorem takes_eq_false {a : Fragment} (h : Situation u s)
    (hp : ∀ v c, u = v ++ [c] → ∀ t ∈ a.head?, c.prolongs t = false) :
    ∀ t ∈ a.head?, s.takes t = false := by
  intro t ht
  by_contra htake
  obtain ⟨v,c,rfl,hc⟩ := h.takes (by simpa using htake)
  rw [hp v c rfl t ht] at hc
  cases hc

theorem letter {c : Char} (h : Situation u s) (hq : s.letter c = some q) (hc : c.isAlpha = true) :
    Situation (u ++ [.char c]) q := by
  have ht : (Token.char c).isLetter = true := hc
  have joined : (∃ v y, u = v ++ [y] ∧ (y.isDigit = true ∨ y.isReference = true)) →
      Fragment.Joined (u ++ [.char c]) := by
    rintro ⟨v,y,rfl,hy⟩
    exact ⟨v,y,.char c,[],by simp,hy,ht⟩
  have ho : (Token.char c).isOperand = true := by simp [Token.isOperand,ht]
  cases h with
  | start | minus _ | tight _ _ _ =>
    cases hq
    exact .name _ _ ht (fun hf => by cases hf) fun hf => by cases hf
  | @sum u x op hop hx =>
    cases hq
    exact .name _ _ ht (fun hf => by cases hf) fun _ => ⟨u,x,.char c,[],op,by simp,hx,hop,ho⟩
  | factor hc =>
    cases hq
    exact .name _ _ ht (fun _ => joined ⟨_,_,rfl,.inr hc⟩) fun hf => by cases hf
  | number hc =>
    cases hq
    exact .name _ _ ht (fun _ => joined ⟨_,_,rfl,.inl hc⟩) fun hf => by cases hf
  | name front letters hc hj hs =>
    cases hq
    exact .name _ _ ht (fun hf => (hj hf).concat _) fun hf => (hs hf).concat _
  | stray bound hc hj hs =>
    cases bound with
    | free =>
      cases hq
      exact .name _ _ ht (fun _ => joined ⟨_,_,rfl,.inl hc⟩) fun hf => by cases hf
    | chain =>
      cases hq
      exact .chain ht ((hj rfl).concat _)
    | sum => cases hq
  | chain hc hj =>
    cases hq
    exact .chain ht (hj.concat _)

theorem digit (h : Situation u s) (hq : s.digit = some q) (ht : t.isDigit = true) :
    Situation (u ++ [t]) q := by
  cases h with
  | name front letters hc hj hs =>
    simp only [Spot.digit] at hq
    split at hq
    · cases hq
      exact .stray _ ht (fun hf => by cases hf) fun hf => by cases hf
    · cases front with
      | nothing => cases hq
      | tight =>
        cases hq
        exact .stray _ ht (fun hf => by cases hf) fun hf => by cases hf
      | sum =>
        cases hq
        exact .stray _ ht (fun hf => by cases hf) fun _ => (hs rfl).concat t
      | factor =>
        cases hq
        exact .stray _ ht (fun _ => (hj rfl).concat t) fun hf => by cases hf
  | stray bound hc hj hs =>
    cases hq
    exact .stray _ ht (fun hb => (hj hb).concat t) fun hb => (hs hb).concat t
  | chain hc hj =>
    cases hq
    exact .stray _ ht (fun _ => hj.concat t) fun hf => by cases hf
  | factor hc =>
    cases hq
    exact .stray _ ht (fun hf => by cases hf) fun hf => by cases hf
  | _ =>
    cases hq
    exact .number ht

theorem sign {op : BinaryOp} (h : Situation u s) (hq : s.sign op = some q) :
    Situation (u ++ [.char op.symbol]) q := by
  rw [Spot.sign] at hq
  split at hq
  · cases hq
  · rename_i he
    obtain ⟨v,c,rfl,hc⟩ := h.isOperand (by simpa using he)
    split at hq
    · rename_i ho
      cases hq
      exact .sum op ho hc
    · rename_i ho
      split at hq
      · cases hq
      · cases hq
        exact .tight op (by have := op.level_pos; omega) hc

end Situation

theorem situation_of_run (h : follow Spot.next (operand .nothing) u = some s) (hf : u.Flat) :
    Situation u s := by
  induction u using List.reverseRecOn generalizing s with
  | nil =>
    cases h
    exact .start
  | append_singleton u t ih =>
    obtain ⟨m,hm,ht⟩ := follow_concat_eq_some h
    have hs := ih hm fun x hx => hf x (by simp [hx])
    rcases next_eq_some ht (hf t (by simp)) with ⟨hr,rfl⟩ | ⟨c,rfl,hc,hq⟩ | ⟨hd,hq⟩ | ⟨rfl,he,rfl⟩ |
      ⟨op,rfl,hq⟩
    · exact .factor hr
    · exact hs.letter hq hc
    · exact hs.digit hq hd
    · exact .minus (hs.isOperator he)
    · exact hs.sign hq

theorem digit_ne_name {front : Front} {letters : List Char} :
    s.digit ≠ some (name front letters) := by
  intro h
  cases s with
  | name front letters =>
    simp only [digit] at h
    split at h
    · cases h
    · cases front <;> cases h
  | _ => cases h

theorem sign_ne_name {op : BinaryOp} {front : Front} {letters : List Char} :
    s.sign op ≠ some (name front letters) := by
  simp only [sign]
  split
  · simp
  · split
    · simp
    · split <;> simp

theorem next_ne_name (ht : t.isParenthesis = true) {front : Front} {letters : List Char} :
    s.next t ≠ some (name front letters) := by
  rcases Token.eq_of_isParenthesis ht with rfl | rfl
  · rw [next_open]
    split <;> simp
  · rw [next_close]
    split <;> simp

/-- A name in front of a place is the end of the text. -/
theorem suffix_of_run {front : Front} {letters : List Char}
    (h : follow Spot.next (operand .nothing) u = some (name front letters)) :
    letters.map .char <:+ u := by
  induction u using List.reverseRecOn generalizing front letters with
  | nil => cases h
  | append_singleton u t ih =>
    obtain ⟨m,hm,ht⟩ := follow_concat_eq_some h
    have hp : t.isParenthesis = false := by
      by_contra hp
      exact next_ne_name (by simpa using hp) ht
    rcases next_eq_some ht hp with ⟨-,hq⟩ | ⟨c,rfl,-,hq⟩ | ⟨-,hq⟩ | ⟨-,-,hq⟩ | ⟨op,-,hq⟩
    · cases hq
    · cases m with
      | name front' letters' =>
        cases hq
        obtain ⟨v,hv⟩ := ih hm
        exact ⟨v,by rw [← hv]; simp⟩
      | stray bound =>
        cases bound with
        | free =>
          cases hq
          exact ⟨u,by simp⟩
        | chain => cases hq
        | sum => cases hq
      | chain => cases hq
      | _ =>
        cases hq
        exact ⟨u,by simp⟩
    · exact absurd hq digit_ne_name
    · cases hq
    · exact absurd hq sign_ne_name

end Spot

end Fluxion.Formula
