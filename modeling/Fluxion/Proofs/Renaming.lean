import Fluxion.Formula.Collapse
import Fluxion.Formula.Shape
import Fluxion.Proofs.Operand
import Mathlib

/-! Renaming of letters. No pattern tells one letter from another, but for the two that call the
logarithm in front of a group. A renaming that neither makes nor breaks such a call is not seen
while a formula is collapsed and cut up: what is set aside, and what is left, are the same with
other letters. Nothing that is set aside leaves a call behind, because a reference stays in its
place; so it is enough to look at the formula. -/
namespace Fluxion

theorem Formula.not_isAlpha_of_isDigit {c : Char} (h : c.isDigit = true) : c.isAlpha = false :=
  Token.not_isLetter_of_isDigit (t := .char c) h

/-- A renaming of letters. All other characters stay what they are. -/
structure Renaming where
  char : Char → Char
  isAlpha : ∀ {c : Char}, c.isAlpha = true → (char c).isAlpha = true
  other : ∀ {c : Char}, c.isAlpha = false → char c = c

namespace Renaming

open Formula

/-- Any change of letters into letters is a renaming. -/
def ofLetters (f : Char → Char) (hf : ∀ c, c.isAlpha = true → (f c).isAlpha = true) : Renaming where
  char c := if c.isAlpha then f c else c
  isAlpha h := by
    rw [if_pos h]
    exact hf _ h
  other h := by simp [h]

variable (r : Renaming)

section Characters

@[simp] theorem isAlpha_char (c : Char) : (r.char c).isAlpha = c.isAlpha := by
  cases h : c.isAlpha with
  | true => exact r.isAlpha h
  | false => rw [r.other h,h]

@[simp] theorem isDigit_char (c : Char) : (r.char c).isDigit = c.isDigit := by
  cases h : c.isAlpha with
  | true => rw [not_isDigit_of_isAlpha h,not_isDigit_of_isAlpha (r.isAlpha h)]
  | false => rw [r.other h]

/-- No letter is taken for a sign. -/
theorem char_eq_iff {c d : Char} (hd : d.isAlpha = false) : r.char c = d ↔ c = d := by
  constructor
  · rintro rfl
    rw [isAlpha_char] at hd
    exact (r.other hd).symm
  · rintro rfl
    exact r.other hd

@[simp] theorem char_open : r.char '(' = '(' := r.other rfl

@[simp] theorem char_close : r.char ')' = ')' := r.other rfl

@[simp] theorem char_minus : r.char '-' = '-' := r.other rfl

@[simp] theorem char_caret : r.char '^' = '^' := r.other rfl

def chars (s : List Char) : List Char := s.map r.char

def text (s : String) : String := String.ofList (r.chars s.toList)

@[simp] theorem chars_nil : r.chars [] = [] := rfl

@[simp] theorem chars_cons (c : Char) (s : List Char) :
    r.chars (c :: s) = r.char c :: r.chars s := rfl

@[simp] theorem chars_append (s s' : List Char) : r.chars (s ++ s') = r.chars s ++ r.chars s' :=
  List.map_append

@[simp] theorem length_chars (s : List Char) : (r.chars s).length = s.length := List.length_map ..

theorem chars_eq_self {s : List Char} (h : ∀ c ∈ s, c.isAlpha = false) : r.chars s = s := by
  rw [chars,List.map_congr_left fun c hc => r.other (h c hc)]
  exact List.map_id' s

/-- The logarithm is called at the same places of a text before and after. -/
def SameCalls (s : List Char) : Prop :=
  ∀ i, ['l', 'n', '('] <+: s.drop i ↔ ['l', 'n', '('] <+: (r.chars s).drop i

instance (s : List Char) : Decidable (r.SameCalls s) :=
  decidable_of_iff (∀ i < s.length,
    ['l', 'n', '('] <+: s.drop i ↔ ['l', 'n', '('] <+: (r.chars s).drop i) <| by
    constructor
    · intro h i
      rcases Nat.lt_or_ge i s.length with hi | hi
      · exact h i hi
      · rw [List.drop_of_length_le hi,List.drop_of_length_le ((r.length_chars s).trans_le hi)]
    · exact fun h i _ => h i

/-- Two characters in front of a group call the logarithm if their new names do. -/
def KeepsCalls (s : List Char) : Prop :=
  ∀ a b, [a, b, '('] <:+: s → (a = 'l' ∧ b = 'n' ↔ r.char a = 'l' ∧ r.char b = 'n')

variable {r}

theorem KeepsCalls.of_isInfix {s s' : List Char} (h : r.KeepsCalls s) (hs : s' <:+: s) :
    r.KeepsCalls s' :=
  fun a b hab => h a b (hab.trans hs)

theorem SameCalls.keepsCalls {s : List Char} (h : r.SameCalls s) : r.KeepsCalls s := by
  rintro a b ⟨before,after,rfl⟩
  have hi := h before.length
  simp only [chars_append,chars_cons,chars_nil,List.append_assoc,List.drop_left] at hi
  rw [← r.length_chars before,List.drop_left] at hi
  simpa [List.cons_prefix_cons,eq_comm] using hi

end Characters

section Fragments

mutual
def token : Token → Token
  | .char c => .char (r.char c)
  | .ref index content => .ref index (tokens content)
def tokens : List Token → List Token
  | [] => []
  | t :: rest => token t :: tokens rest
end

/-- The letters in the contents of references are renamed with the others. -/
def fragment (text : Fragment) : Fragment := text.map r.token

@[simp] theorem token_char (c : Char) : r.token (.char c) = .char (r.char c) := by
  simp [token]

theorem tokens_eq (text : Fragment) : r.tokens text = r.fragment text := by
  induction text with
  | nil => simp [tokens,fragment]
  | cons t text ih =>
    rw [tokens,ih]
    rfl

@[simp] theorem token_ref (index : Nat) (content : Fragment) :
    r.token (.ref index content) = .ref index (r.fragment content) := by
  rw [token,tokens_eq]

variable (t : Token) (a b : Fragment)

@[simp] theorem fragment_nil : r.fragment [] = [] := rfl

@[simp] theorem fragment_cons : r.fragment (t :: a) = r.token t :: r.fragment a := rfl

@[simp] theorem fragment_append : r.fragment (a ++ b) = r.fragment a ++ r.fragment b :=
  List.map_append

@[simp] theorem fragment_eq_nil : r.fragment a = [] ↔ a = [] := List.map_eq_nil_iff

@[simp] theorem length_fragment : (r.fragment a).length = a.length := List.length_map ..

@[simp] theorem dropLast_fragment : (r.fragment a).dropLast = r.fragment a.dropLast :=
  List.map_dropLast.symm

@[simp] theorem drop_fragment (n : Nat) : (r.fragment a).drop n = r.fragment (a.drop n) :=
  List.map_drop.symm

theorem fragment_map_char (s : List Char) :
    r.fragment (s.map .char) = (r.chars s).map .char := by
  simp [fragment,chars]

@[simp] theorem isLetter_token : (r.token t).isLetter = t.isLetter := by
  cases t <;> simp [Token.isLetter]

@[simp] theorem isDigit_token : (r.token t).isDigit = t.isDigit := by
  cases t <;> simp [Token.isDigit]

@[simp] theorem isReference_token : (r.token t).isReference = t.isReference := by
  cases t <;> simp [Token.isReference]

@[simp] theorem isOperator_token : (r.token t).isOperator = t.isOperator := by
  cases t with
  | ref i content => simp [Token.isOperator]
  | char c => simp [Token.isOperator,r.char_eq_iff]

@[simp] theorem isParenthesis_token : (r.token t).isParenthesis = t.isParenthesis := by
  cases t with
  | ref i content => simp [Token.isParenthesis]
  | char c => simp [Token.isParenthesis,r.char_eq_iff]

section Classes

variable {p : Token → Bool} (hp : ∀ t, p (r.token t) = p t)
include hp

theorem all_fragment : (r.fragment a).all p = a.all p := by
  rw [fragment,List.all_map]
  exact congrArg a.all (funext hp)

theorem takeWhile_fragment : (r.fragment a).takeWhile p = r.fragment (a.takeWhile p) := by
  rw [fragment,List.takeWhile_map]
  exact congrArg (fun q => r.fragment (a.takeWhile q)) (funext hp)

theorem dropWhile_fragment : (r.fragment a).dropWhile p = r.fragment (a.dropWhile p) := by
  rw [fragment,List.dropWhile_map]
  exact congrArg (fun q => r.fragment (a.dropWhile q)) (funext hp)

end Classes

mutual
theorem source_token : ∀ t : Token, (r.token t).source = r.chars t.source
  | .char c => by simp
  | .ref index content => by
    rw [token_ref,Token.source_ref,Token.source_ref,source_fragment content]
theorem source_fragment : ∀ a : Fragment, (r.fragment a).source = r.chars a.source
  | [] => by simp
  | t :: a => by
    rw [fragment_cons,Fragment.source_cons,Fragment.source_cons,chars_append,source_token t,
      source_fragment a]
end

/-- References are shown with their numbers, which have no letters. -/
theorem shown_token : (r.token t).shown = r.chars t.shown := by
  cases t with
  | char c => simp [Token.shown]
  | ref index content =>
    have hs : ∀ c ∈ Token.shown (.ref index content), c.isAlpha = false := by
      simp only [Token.shown,List.cons_append,List.mem_cons,List.mem_append,List.not_mem_nil,
        or_false]
      rintro c (rfl | hc | rfl)
      · rfl
      · exact not_isAlpha_of_isDigit (Decimal.isDigit_of_mem_ofNat hc)
      · rfl
    rw [r.chars_eq_self hs,token_ref]
    rfl

theorem flatMap_shown_fragment :
    (r.fragment a).flatMap Token.shown = r.chars (a.flatMap Token.shown) := by
  induction a with
  | nil => rfl
  | cons t a ih =>
    rw [fragment_cons,List.flatMap_cons,List.flatMap_cons,chars_append,ih,shown_token]

theorem render_fragment : (r.fragment a).render = r.text a.render := by
  rw [Fragment.render,flatMap_shown_fragment,text,Fragment.render,String.toList_ofList]

end Fragments

end Renaming

namespace Formula.Pattern

variable (r : Renaming)

def renamed (x : Fragment × Fragment) : Fragment × Fragment := (r.fragment x.1, r.fragment x.2)

/-- A pattern that cuts a text at the same place whatever the letters are. -/
def Uniform (p : Pattern) : Prop :=
  ∀ (r : Renaming) (text : Fragment), p (r.fragment text) = (p text).map (renamed r)

section Uniform

variable {p q : Pattern}

theorem single_uniform {p : Token → Bool} (hp : ∀ (r : Renaming) t, p (r.token t) = p t) :
    Uniform (single p) := by
  intro r text
  cases text with
  | nil => rfl
  | cons t text =>
    simp only [Renaming.fragment_cons,single,hp]
    split <;> rfl

theorem run_uniform {p : Token → Bool} (hp : ∀ (r : Renaming) t, p (r.token t) = p t) :
    Uniform (run p) := by
  intro r text
  simp only [run,r.takeWhile_fragment _ (hp r),r.dropWhile_fragment _ (hp r),
    Renaming.fragment_eq_nil]
  split <;> rfl

theorem seq_uniform (hp : p.Uniform) (hq : q.Uniform) : (p.seq q).Uniform := by
  intro r text
  simp only [seq,hp r]
  cases p text with
  | none => rfl
  | some x =>
    simp only [Option.map_some,renamed,hq r x.2]
    cases q x.2 <;> simp [renamed]

theorem orElse_uniform (hp : p.Uniform) (hq : q.Uniform) : (p.orElse q).Uniform := by
  intro r text
  simp only [orElse,hp r,hq r]
  cases p text <;> rfl

theorem sign_uniform {cs : List Char} (h : ∀ c ∈ cs, c.isAlpha = false) : (sign cs).Uniform := by
  refine single_uniform fun r t => ?_
  cases t with
  | ref i content => simp
  | char c =>
    simp only [Renaming.token_char,decide_eq_decide]
    constructor
    · intro hc
      rwa [(r.char_eq_iff (h _ hc)).mp rfl]
    · intro hc
      rwa [r.other (h _ hc)]

theorem letter_uniform : letter.Uniform := single_uniform Renaming.isLetter_token

theorem digits_uniform : digits.Uniform := run_uniform Renaming.isDigit_token

theorem reference_uniform : reference.Uniform := single_uniform Renaming.isReference_token

theorem operand_uniform : operand.Uniform :=
  orElse_uniform (run_uniform Renaming.isLetter_token)
    (orElse_uniform digits_uniform reference_uniform)

theorem group?_uniform : Uniform group? := by
  intro r text
  cases text with
  | nil => rfl
  | cons t text =>
    cases t with
    | ref i content => simp [group?]
    | char c =>
      by_cases hc : c = '('
      · subst hc
        have ht := r.takeWhile_fragment text (p := (! ·.isParenthesis)) (by simp)
        have hd := r.dropWhile_fragment text (p := (! ·.isParenthesis)) (by simp)
        simp only [Renaming.fragment_cons,Renaming.token_char,Renaming.char_open,group?,ht,hd]
        cases text.dropWhile (! ·.isParenthesis) with
        | nil => rfl
        | cons u after =>
          cases u with
          | ref i content => simp
          | char d =>
            by_cases hd : d = ')'
            · subst hd
              simp [renamed]
            · simp [hd,r.char_eq_iff (c := d) (d := ')') rfl]
      · simp [group?,hc,r.char_eq_iff (c := c) (d := '(') rfl]

theorem group_uniform : group.Uniform := by
  intro r text
  simp only [group,group?_uniform r]
  cases group? text with
  | none => rfl
  | some x => simp [renamed]

theorem negation_uniform : negation.Uniform := by
  intro r text
  cases text with
  | nil => rfl
  | cons t text =>
    cases t with
    | ref i content => simp [negation]
    | char c =>
      by_cases hc : c = '-'
      · subst hc
        simp only [Renaming.fragment_cons,Renaming.token_char,Renaming.char_minus,negation,
          operand_uniform r text]
        cases operand text with
        | none => rfl
        | some x =>
          obtain ⟨a,after⟩ := x
          cases after with
          | nil => simp [renamed]
          | cons u after =>
            cases u with
            | ref i content => simp [renamed]
            | char d =>
              by_cases hd : d = '^'
              · subst hd
                by_cases hl : a.dropLast = [] <;> simp [renamed,hl]
              · simp [hd,r.char_eq_iff (c := d) (d := '^') rfl,renamed]
      · simp [negation,hc,r.char_eq_iff (c := c) (d := '-') rfl]

theorem power_uniform : power.Uniform :=
  seq_uniform (seq_uniform operand_uniform (sign_uniform (by simp))) operand_uniform

theorem product_uniform : product.Uniform :=
  seq_uniform operand_uniform
    (orElse_uniform (seq_uniform (sign_uniform (by simp)) operand_uniform) reference_uniform)

theorem coefficient_uniform : coefficient.Uniform :=
  seq_uniform (orElse_uniform digits_uniform reference_uniform) letter_uniform

theorem sum_uniform : sum.Uniform :=
  seq_uniform (seq_uniform operand_uniform (sign_uniform (by simp))) operand_uniform

end Uniform

section Calls

variable {r} {text : Fragment}

theorem logarithm_chars (a b : Char) (text : Fragment) :
    logarithm (.char a :: .char b :: text) = if a = 'l' ∧ b = 'n' then
      (group text).map fun x => (.char a :: .char b :: x.1, x.2) else none := by
  by_cases ha : a = 'l' <;> by_cases hb : b = 'n' <;>
    simp [logarithm,seq,sign,single,ha,hb]

theorem logarithm_char (a : Char) : logarithm [.char a] = none := by
  by_cases ha : a = 'l' <;> simp [logarithm,seq,sign,single,ha]

theorem logarithm_char_ref (a : Char) (i : Nat) (content text : Fragment) :
    logarithm (.char a :: .ref i content :: text) = none := by
  by_cases ha : a = 'l' <;> simp [logarithm,seq,sign,single,ha]

theorem logarithm_ref (i : Nat) (content text : Fragment) :
    logarithm (.ref i content :: text) = none := rfl

/-- What stands in front of a group in a text stands in front of it in the formula as well. -/
theorem isInfix_call {a b : Char} {x : Fragment × Fragment} (h : group? text = some x) :
    [a, b, '('] <:+: Fragment.source (.char a :: .char b :: text) := by
  rw [eq_of_group? h]
  refine List.IsPrefix.isInfix ⟨Fragment.source (x.1 ++ .char ')' :: x.2),?_⟩
  simp

/-- Only here it matters which letters there are. -/
theorem logarithm_renamed (h : r.KeepsCalls text.source) :
    logarithm (r.fragment text) = (logarithm text).map (renamed r) := by
  cases text with
  | nil => rfl
  | cons t text =>
    cases t with
    | ref i content => simp [logarithm_ref]
    | char a =>
      cases text with
      | nil => simp [logarithm_char]
      | cons u text =>
        cases u with
        | ref i content => simp [logarithm_char_ref]
        | char b =>
          simp only [Renaming.fragment_cons,Renaming.token_char,logarithm_chars,
            group_uniform r text]
          cases hg : group text with
          | none => simp
          | some x =>
            obtain ⟨y,hy,-⟩ := Option.map_eq_some_iff.mp hg
            simp only [← h a b (isInfix_call hy)]
            split <;> simp [renamed]

end Calls

end Formula.Pattern
end Fluxion
