import Fluxion.Proofs.Absence
import Fluxion.Proofs.Outline

/-! Exactly the texts that are read, followed token by token. Places are told apart more
finely than in an outline, because a name of several letters is a factor of a product
without a sign only where it has been set aside together with what is in front of it. -/
namespace Fluxion.Formula

/-- What an operand has in front of it: nothing, a sign of a product or power or a minus of
its own, a sign of a sum, or another factor. -/
inductive Front
  | nothing | tight | sum | factor
  deriving DecidableEq

/-- What may follow stray digits: anything, only letters, digits and sums, or only sums. -/
inductive Bound
  | free | chain | sum
  deriving DecidableEq

/-- What the text in front of a place ends with. Digits are stray where they follow a name,
a reference or a group, and a chain goes on behind them with letters. -/
inductive Spot
  | operand (front : Front)
  | factor
  | number
  | name (front : Front) (letters : List Char)
  | stray (bound : Bound)
  | chain
  deriving DecidableEq

namespace Spot

def isExpected : Spot → Bool
  | operand _ => true
  | _ => false

def isComplete : Spot → Bool
  | factor | number | name _ _ | chain => true
  | operand _ | stray _ => false

/-- Whether nothing but a sum completes what is in front. -/
def isBound : Spot → Bool
  | stray .chain | stray .sum | chain => true
  | _ => false

def isFactor : Spot → Bool
  | name front letters => letters.length ≤ 1 || front = .tight
  | s => !s.isBound

/-- What is in front of `ln`, if this is the end of a name. -/
def beforeCall : Spot → Spot
  | name front letters =>
    match letters.reverse with
    | ['n', 'l'] => operand front
    | 'n' :: 'l' :: rest => name front rest.reverse
    | _ => name front letters
  | s => s

def letter (c : Char) : Spot → Option Spot
  | operand front => some (name front [c])
  | factor | number | stray .free => some (name .factor [c])
  | name front letters => some (name front (letters ++ [c]))
  | stray .chain | chain => some chain
  | stray .sum => none

def digit : Spot → Option Spot
  | operand _ | number => some number
  | factor => some (stray .free)
  | name front letters =>
    if letters.length ≤ 1 then some (stray .free)
    else
      match front with
      | .nothing => none
      | .tight => some (stray .free)
      | .sum => some (stray .sum)
      | .factor => some (stray .chain)
  | stray bound => some (stray bound)
  | chain => some (stray .chain)

def sign (op : BinaryOp) (s : Spot) : Option Spot :=
  if s.isExpected then none
  else if op.level = 1 then some (operand .sum)
  else if s.isBound then none
  else some (operand .tight)

def next (s : Spot) : Token → Option Spot
  | .ref _ _ => if s.isFactor then some factor else none
  | .char c =>
    if c.isAlpha then s.letter c
    else if c.isDigit then s.digit
    else if c = '(' then if s.beforeCall.isFactor then some (operand .nothing) else none
    else if c = ')' then if s.isComplete then some factor else none
    else if c = '-' ∧ s.isExpected = true then some (operand .tight)
    else (BinaryOp.ofSymbol? c).bind s.sign

/-- Whether a text may follow and be the end. -/
def accepts (s : Spot) (text : Fragment) : Bool := (follow next s text).any isComplete

variable {s q : Spot} {t : Token} {a rest : Fragment}

theorem accepts_append (s : Spot) (a b : Fragment) :
    s.accepts (a ++ b) = (follow next s a).any (accepts · b) := by
  rw [accepts,follow_append]
  cases follow next s a <;> rfl

theorem accepts_cons (s : Spot) (t : Token) (rest : Fragment) :
    s.accepts (t :: rest) = (s.next t).any (accepts · rest) :=
  accepts_append s [t] rest |>.trans (by rw [follow_cons]; cases s.next t <;> rfl)

theorem next_ref (s : Spot) (i : Nat) (content : Fragment) :
    s.next (.ref i content) = if s.isFactor then some factor else none := rfl

theorem next_open (s : Spot) :
    s.next (.char '(') = if s.beforeCall.isFactor then some (operand .nothing) else none := rfl

theorem next_close (s : Spot) :
    s.next (.char ')') = if s.isComplete then some factor else none := rfl

theorem next_letter {c : Char} (h : c.isAlpha = true) (s : Spot) :
    s.next (.char c) = s.letter c := by
  simp [next,h]

theorem next_digit {c : Char} (h : c.isDigit = true) (s : Spot) : s.next (.char c) = s.digit := by
  have hl : c.isAlpha = false := Token.not_isLetter_of_isDigit (t := .char c) h
  simp [next,h,hl]

theorem next_sign (op : BinaryOp) (h : s.isExpected = false) :
    s.next (.char op.symbol) = s.sign op := by
  cases op <;> simp [next,BinaryOp.symbol,BinaryOp.ofSymbol?,h]

theorem accepts_ref (s : Spot) (i : Nat) (content rest : Fragment) :
    s.accepts (.ref i content :: rest) = (s.isFactor && factor.accepts rest) := by
  rw [accepts_cons,next_ref]
  cases s.isFactor <;> rfl

/-- Whether a token goes on with the run at the end of the text in front. -/
def takes : Spot → Token → Bool
  | number, t | stray _, t => t.isDigit
  | name _ _, t | chain, t => t.isLetter
  | _, _ => false

/-- A place behind an operand to which no sign of a sum belongs. What may follow is the same
as behind a reference. -/
def isFree : Spot → Bool
  | factor | number => true
  | name front letters => letters.length ≤ 1 || front = .tight
  | _ => false

theorem isFactor_beforeCall (h : s.isFree = true) : s.beforeCall.isFactor = true := by
  cases s with
  | name front letters =>
    rw [beforeCall]
    split
    · rfl
    · rename_i rest _ hl
      have hlen := congrArg List.length hl
      rw [isFree,Bool.or_eq_true] at h
      rcases h with h | h
      · simp at h hlen
        omega
      · simp [isFactor,of_decide_eq_true h]
    · exact h
  | factor => rfl
  | number => rfl
  | _ => cases h

theorem next_of_isFree (h : s.isFree = true) (ht : s.takes t = false) :
    s.next t = factor.next t := by
  cases s with
  | factor => rfl
  | number =>
    cases t with
    | ref i content => rfl
    | char c =>
      have hd : c.isDigit = false := ht
      simp only [next,hd]
      rfl
  | name front letters =>
    cases t with
    | ref i content =>
      have hf : (name front letters).isFactor = true := h
      rw [next_ref,hf]
      rfl
    | char c =>
      have ha : c.isAlpha = false := ht
      simp only [next,ha,isFactor_beforeCall h]
      by_cases hd : c.isDigit = true
      · have hdig : (name front letters).digit = some (stray .free) := by
          rw [isFree,Bool.or_eq_true] at h
          rcases h with h | h
          · simp [digit,of_decide_eq_true h]
          · simp [digit,of_decide_eq_true h]
        simp only [hd,hdig]
        rfl
      · simp only [hd]
        rfl
  | _ => cases h

theorem accepts_of_isFree (h : s.isFree = true) (ht : ∀ t ∈ rest.head?, s.takes t = false) :
    s.accepts rest = factor.accepts rest := by
  cases rest with
  | nil => cases s <;> first | rfl | cases h
  | cons t rest => rw [accepts_cons,accepts_cons,next_of_isFree h (ht t rfl)]

theorem digit_digit (h : s.digit = some q) : q.digit = some q := by
  cases s with
  | name front letters =>
    simp only [digit] at h
    split at h
    · cases h
      rfl
    · cases front <;> cases h <;> rfl
  | _ =>
    cases h
    rfl

theorem run_digits {cs : List Char} (hn : cs ≠ []) (h : ∀ c ∈ cs, c.isDigit = true) (s : Spot) :
    follow next s (cs.map .char) = s.digit := by
  induction cs generalizing s with
  | nil => exact absurd rfl hn
  | cons c cs ih =>
    rw [List.map_cons,follow_cons,next_digit (h c (by simp))]
    cases hd : s.digit with
    | none => rfl
    | some q =>
      cases cs with
      | nil => rfl
      | cons d cs =>
        rw [Option.bind_some,ih (by simp) (fun e he => h e (by simp [he])),digit_digit hd]

theorem run_name {cs : List Char} (h : ∀ c ∈ cs, c.isAlpha = true) (front : Front)
    (letters : List Char) :
    follow next (name front letters) (cs.map .char) = some (name front (letters ++ cs)) :=
  follow_chars (name front) (fun _ _ hc => next_letter hc _) h letters

theorem run_chain {cs : List Char} (h : ∀ c ∈ cs, c.isAlpha = true) :
    follow next chain (cs.map .char) = some chain :=
  follow_chars (fun _ => chain) (fun _ _ hc => next_letter hc chain) h []

def front : Spot → Front
  | operand front | name front _ => front
  | _ => .factor

/-- Where an operand leads to, if a factor may stand in its place. -/
inductive Behind (s : Spot) : Fragment → Spot → Prop
  | name {cs : List Char} (letters : List Char) (hn : cs ≠ []) (hc : ∀ c ∈ cs, c.isAlpha = true)
    (hl : letters = [] ∨ s = name s.front letters) :
    Behind s (cs.map .char) (name s.front (letters ++ cs))
  | number {cs : List Char} {q : Spot} (hn : cs ≠ []) (hc : ∀ c ∈ cs, c.isDigit = true)
    (hs : s.digit = some q) (hq : q = number ∨ q = stray .free) : Behind s (cs.map .char) q
  | reference (i : Nat) (content : Fragment) : Behind s [.ref i content] factor

theorem letter_of_isFactor (hs : s.isFactor = true) (c : Char) :
    ∃ letters, s.letter c = some (name s.front (letters ++ [c])) ∧
      (letters = [] ∨ s = name s.front letters) := by
  cases s with
  | stray bound =>
    cases bound with
    | free => exact ⟨[],rfl,.inl rfl⟩
    | chain => cases hs
    | sum => cases hs
  | chain => cases hs
  | name front letters => exact ⟨letters,rfl,.inr rfl⟩
  | _ => exact ⟨[],rfl,.inl rfl⟩

theorem digit_of_isFactor (hs : s.isFactor = true) :
    ∃ q, s.digit = some q ∧ (q = number ∨ q = stray .free) := by
  cases s with
  | name front letters =>
    rw [isFactor,Bool.or_eq_true] at hs
    rcases hs with hs | hs
    · exact ⟨_,by simp only [digit,if_pos (of_decide_eq_true hs)],.inr rfl⟩
    · refine ⟨stray .free,?_,.inr rfl⟩
      rw [of_decide_eq_true hs,digit]
      split <;> rfl
  | stray bound =>
    cases bound with
    | free => exact ⟨_,rfl,.inr rfl⟩
    | chain => cases hs
    | sum => cases hs
  | chain => cases hs
  | operand front => exact ⟨_,rfl,.inl rfl⟩
  | number => exact ⟨_,rfl,.inl rfl⟩
  | factor => exact ⟨_,rfl,.inr rfl⟩

theorem run_operand (hs : s.isFactor = true) (ha : a.Operand) :
    ∃ q, follow next s a = some q ∧ s.Behind a q := by
  cases ha with
  | @name cs hn hc =>
    obtain ⟨c,cs,rfl⟩ := List.exists_cons_of_ne_nil hn
    obtain ⟨letters,hl,hletters⟩ := letter_of_isFactor hs c
    refine ⟨_,?_,.name letters hn hc hletters⟩
    rw [List.map_cons,follow_cons,next_letter (hc c (by simp)),hl,Option.bind_some,
      run_name fun e he => hc e (by simp [he])]
    simp
  | number hn hc =>
    obtain ⟨q,hd,hq⟩ := digit_of_isFactor hs
    exact ⟨q,(run_digits hn hc s).trans hd,.number hn hc hd hq⟩
  | reference i content =>
    refine ⟨factor,?_,.reference i content⟩
    rw [follow_cons,next_ref,if_pos hs]
    rfl

namespace Behind

theorem isExpected (h : s.Behind a q) : q.isExpected = false := by
  cases h with
  | number hn hc hs hq => rcases hq with rfl | rfl <;> rfl
  | _ => rfl

theorem isBound (h : s.Behind a q) : q.isBound = false := by
  cases h with
  | number hn hc hs hq => rcases hq with rfl | rfl <;> rfl
  | _ => rfl

theorem takes (h : s.Behind a q) (he : a.Ends rest) : ∀ t ∈ rest.head?, q.takes t = false := by
  intro t ht
  cases h with
  | name letters hn hc _ => exact he.not_isLetter hn hc t ht
  | number hn hc hs hq => rcases hq with rfl | rfl <;> exact he.not_isDigit hn hc t ht
  | reference i content => rfl

theorem sign (h : s.Behind a q) (op : BinaryOp) :
    q.next (.char op.symbol) = some (operand (if op.level = 1 then .sum else .tight)) := by
  rw [next_sign op h.isExpected,Spot.sign,h.isExpected,h.isBound]
  by_cases ho : op.level = 1
  · simp [ho]
  · simp [ho]

theorem isFree (h : (operand .tight).Behind a q) : q.isFree = true := by
  cases h with
  | number hn hc hs hq =>
    cases hs
    rfl
  | name letters hn hc _ => simp [Spot.isFree,Spot.front]
  | reference i content => rfl

theorem letter (h : s.Behind a q) (hn : ∀ t ∈ a, t.isLetter = false) (c : Char) :
    q.letter c = some (Spot.name .factor [c]) := by
  cases h with
  | name letters hne hc _ => exact absurd hn (Fragment.has_letter hne hc)
  | number hne hc hs hq => rcases hq with rfl | rfl <;> rfl
  | reference i content => rfl

end Behind

theorem isBound_of_run (hs : s.isFactor = false) (ha : a.Operand)
    (ht : ∀ t ∈ a.head?, s.takes t = false) (hr : follow next s a = some q) : q.isBound = true := by
  cases ha with
  | @name cs hn hc =>
    obtain ⟨c,cs,rfl⟩ := List.exists_cons_of_ne_nil hn
    have ht : s.takes (.char c) = false := ht _ rfl
    have hl : (Token.char c).isLetter = true := hc c (by simp)
    rw [List.map_cons,follow_cons,next_letter (hc c (by simp))] at hr
    cases s with
    | name front letters => rw [takes,hl] at ht; cases ht
    | chain => rw [takes,hl] at ht; cases ht
    | stray bound =>
      cases bound with
      | free => cases hs
      | sum => cases hr
      | chain =>
        have hr : follow next chain (cs.map .char) = some q := hr
        rw [run_chain fun e he => hc e (by simp [he])] at hr
        cases hr
        rfl
    | _ => cases hs
  | @number cs hn hc =>
    rw [run_digits hn hc] at hr
    cases s with
    | name front letters =>
      rw [isFactor,Bool.or_eq_false_iff,decide_eq_false_iff_not,decide_eq_false_iff_not] at hs
      simp only [digit,if_neg hs.1] at hr
      cases front with
      | nothing => cases hr
      | tight => exact absurd rfl hs.2
      | sum => cases hr; rfl
      | factor => cases hr; rfl
    | stray bound =>
      cases hr
      cases bound with
      | free => cases hs
      | chain => rfl
      | sum => rfl
    | chain => cases hr; rfl
    | _ => cases hs
  | reference i content =>
    rw [follow_cons,next_ref,hs] at hr
    cases hr

theorem accepts_of_isBound (h : s.isBound = true) {op : BinaryOp} (ho : 2 ≤ op.level)
    (rest : Fragment) : s.accepts (.char op.symbol :: rest) = false := by
  have he : s.isExpected = false := by cases s <;> first | rfl | cases h
  have hl : op.level ≠ 1 := Nat.ne_of_gt ho
  rw [accepts_cons,next_sign op he,sign,he,h]
  simp [hl]

section Replacement

variable {b : Fragment} {op : BinaryOp} {x : Token}

theorem accepts_operation (ho : 2 ≤ op.level) (ha : a.Operand) (hb : b.Operand) (he : b.Ends rest)
    (ht : ∀ t ∈ a.head?, s.takes t = false) (i : Nat) (content : Fragment) :
    s.accepts (a ++ .char op.symbol :: (b ++ rest)) = s.accepts (.ref i content :: rest) := by
  rw [accepts_append,accepts_ref]
  by_cases hs : s.isFactor = true
  · obtain ⟨q,hr,hq⟩ := run_operand hs ha
    obtain ⟨r,hr',hb⟩ := run_operand (s := operand .tight) rfl hb
    rw [hr,Option.any_some,accepts_cons,hq.sign,if_neg (Nat.ne_of_gt ho),Option.any_some,
      accepts_append,hr',Option.any_some,accepts_of_isFree hb.isFree (hb.takes he),hs,Bool.true_and]
  · have hs : s.isFactor = false := by simpa using hs
    rw [hs,Bool.false_and]
    cases hr : follow next s a with
    | none => rfl
    | some q => exact accepts_of_isBound (isBound_of_run hs ha ht hr) ho (b ++ rest)

theorem accepts_negation (ha : a.Operand) (he : a.Ends rest) (front : Front) (i : Nat)
    (content : Fragment) : (operand front).accepts (.char '-' :: (a ++ rest)) =
      (operand front).accepts (.ref i content :: rest) := by
  obtain ⟨q,hr,hq⟩ := run_operand (s := operand .tight) rfl ha
  rw [accepts_cons,show (operand front).next (.char '-') = some (operand .tight) from rfl,
    Option.any_some,accepts_append,hr,Option.any_some,accepts_of_isFree hq.isFree (hq.takes he),
    accepts_ref]
  rfl

theorem accepts_cut (ha : (a ++ [x]).Operand) (front : Front) (i : Nat) (content : Fragment) :
    (operand front).accepts (.char '-' :: (a ++ x :: .char '^' :: rest)) =
      (operand front).accepts (.ref i content :: x :: .char '^' :: rest) := by
  have key : ∀ {s : Spot} {b : Fragment}, s.isFactor = true → b.Operand →
      s.accepts (b ++ .char '^' :: rest) = (operand .tight).accepts rest := by
    intro s b hs hb
    obtain ⟨q,hr,hq⟩ := run_operand hs hb
    rw [accepts_append,hr,Option.any_some,accepts_cons,
      show q.next (.char '^') = some (operand .tight) from hq.sign .power,Option.any_some]
  rw [accepts_cons,show (operand front).next (.char '-') = some (operand .tight) from rfl,
    Option.any_some,accepts_ref,show (operand front).isFactor = true from rfl,Bool.true_and,
    show a ++ x :: .char '^' :: rest = (a ++ [x]) ++ .char '^' :: rest by simp,key rfl ha]
  exact (key (b := [x]) rfl (.singleton (ha.isOperand x (by simp)))).symm

end Replacement

end Spot

end Fluxion.Formula
