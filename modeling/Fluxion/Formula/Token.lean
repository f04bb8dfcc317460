import Fluxion.Decimal

/-! Formulas as they are worked on. A part of a formula that has been set aside
is a single token, a numbered reference, which keeps the part it stands for.
The main statements give the written-out source of a fragment piece by piece. -/
namespace Fluxion.Formula

inductive Token
  | char (c : Char)
  | ref (index : Nat) (content : List Token)

abbrev Fragment := List Token

namespace Token

def isLetter : Token → Bool
  | char c => c.isAlpha
  | ref _ _ => false

def isDigit : Token → Bool
  | char c => c.isDigit
  | ref _ _ => false

def isReference : Token → Bool
  | char _ => false
  | ref _ _ => true

/-- A sign after which a minus belongs to the operand behind it. -/
def isOperator : Token → Bool
  | char c => c ∈ ['+', '-', '*', '/', '^']
  | ref _ _ => false

def isParenthesis : Token → Bool
  | char c => c = '(' || c = ')'
  | ref _ _ => false

def shown : Token → List Char
  | char c => [c]
  | ref index _ => '[' :: Decimal.ofNat index ++ [']']

mutual
/-- The characters of the formula that a token stands for. -/
def source : Token → List Char
  | char c => [c]
  | ref _ content => sourceOf content
def sourceOf : List Token → List Char
  | [] => []
  | t :: rest => source t ++ sourceOf rest
end

mutual
/-- How many tokens there are, down to the characters. -/
def weight : Token → Nat
  | char _ => 1
  | ref _ content => 1 + weightOf content
def weightOf : List Token → Nat
  | [] => 0
  | t :: rest => weight t + weightOf rest
end

theorem weight_pos (t : Token) : 0 < t.weight := by
  cases t with
  | char c => simp [weight]
  | ref index content => simp only [weight]; omega

end Token

namespace Fragment

def ofString (s : String) : Fragment := s.toList.map .char

def render (text : Fragment) : String := String.ofList (text.flatMap Token.shown)

/-- The characters of the formula that a fragment stands for, with every
reference written out. -/
def source (text : Fragment) : List Char := Token.sourceOf text

def weight (text : Fragment) : Nat := Token.weightOf text

@[simp] theorem source_nil : source [] = [] := rfl

@[simp] theorem source_cons (t : Token) (text : Fragment) :
    source (t :: text) = t.source ++ source text := rfl

@[simp] theorem source_append (a b : Fragment) : source (a ++ b) = source a ++ source b := by
  induction a with
  | nil => rfl
  | cons t a ih => simp [ih]

@[simp] theorem weight_nil : weight [] = 0 := rfl

@[simp] theorem weight_cons (t : Token) (text : Fragment) :
    weight (t :: text) = t.weight + weight text := rfl

@[simp] theorem weight_append (a b : Fragment) : weight (a ++ b) = weight a + weight b := by
  induction a with
  | nil => simp
  | cons t a ih => simp [ih,Nat.add_assoc]

theorem weight_pos {text : Fragment} (h : text ≠ []) : 0 < weight text := by
  cases text with
  | nil => exact absurd rfl h
  | cons t text => have := t.weight_pos; simp; omega

end Fragment

namespace Token

@[simp] theorem source_char (c : Char) : (char c).source = [c] := by simp [source]

@[simp] theorem source_ref (index : Nat) (content : Fragment) :
    (ref index content).source = Fragment.source content := by simp [source,Fragment.source]

@[simp] theorem weight_char (c : Char) : (char c).weight = 1 := by simp [weight]

@[simp] theorem weight_ref (index : Nat) (content : Fragment) :
    (ref index content).weight = 1 + Fragment.weight content := by simp [weight,Fragment.weight]

end Token

@[simp] theorem Fragment.source_ofString (s : String) : source (ofString s) = s.toList := by
  simp only [ofString]
  induction s.toList with
  | nil => rfl
  | cons c cs ih => simp [ih]

end Fluxion.Formula
