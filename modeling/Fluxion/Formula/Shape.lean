import Fluxion.Expr.Basic
import Fluxion.Formula.Pattern

/-! The shape of a fragment tells what kind of expression it is the text of, and
where the texts of the operands lie. A shape is nothing but the fragment cut up,
so every operand has a shorter source than the fragment, or less weight. -/
namespace Fluxion.Formula

inductive Shape
  | logarithm (inner : Fragment)
  | group (inner : Fragment)
  | integer (negative : Bool) (digits : Fragment)
  | name (letters : Fragment)
  | reference (index : Nat) (content : Fragment)
  | negation (operand : Fragment)
  | operation (op : BinaryOp) (left right : Fragment)
  | juxtaposition (left right : Fragment)
  | unknown (text : Fragment)

namespace Shape

/-- The fragment that has been cut up. -/
def text : Shape → Fragment
  | logarithm inner => .char 'l' :: .char 'n' :: .char '(' :: inner ++ [.char ')']
  | group inner => .char '(' :: inner ++ [.char ')']
  | integer negative digits => if negative then .char '-' :: digits else digits
  | name letters => letters
  | reference index content => [.ref index content]
  | negation operand => .char '-' :: operand
  | operation op left right => left ++ .char op.symbol :: right
  | juxtaposition left right => left ++ right
  | unknown text => text

def logarithm? : Fragment → Option Shape
  | .char 'l' :: .char 'n' :: rest =>
    match Pattern.group? rest with
    | some (inner, []) => some (logarithm inner)
    | _ => none
  | _ => none

def group? (text : Fragment) : Option Shape :=
  match Pattern.group? text with
  | some (inner, []) => some (group inner)
  | _ => none

def operand? (text : Fragment) : Option Shape :=
  match Pattern.operand text with
  | some ([.ref index content], []) => some (reference index content)
  | some (a, []) => some (if a.all Token.isDigit then integer false a else name a)
  | _ => none

/-- A minus sign and a single operand, which together are an integer if the
operand is a run of digits. -/
def negation? : Fragment → Option Shape
  | .char '-' :: rest =>
    match Pattern.operand rest with
    | some (a, []) => some (if a.all Token.isDigit then integer true a else negation a)
    | _ => none
  | _ => none

def operation? (text : Fragment) : Option Shape :=
  match Pattern.operand text with
  | some (left, .char c :: rest) =>
    match BinaryOp.ofSymbol? c, Pattern.operand rest with
    | some op, some (right, []) => some (operation op left right)
    | _, _ => none
  | _ => none

/-- A factor and a reference or a letter right behind it. A factor is a
reference, a number or one letter: a longer run of letters is none. -/
def juxtaposition? (text : Fragment) : Option Shape :=
  match Pattern.operand text with
  | some (left, [t]) =>
    if (left.length = 1 ∨ left.all Token.isDigit) ∧ (t.isReference ∨ t.isLetter) then
      some (juxtaposition left [t])
    else none
  | _ => none

end Shape

def Fragment.shape (text : Fragment) : Shape :=
  ((((((Shape.logarithm? text).or (Shape.group? text)).or (Shape.operand? text)).or
    (Shape.negation? text)).or (Shape.operation? text)).or (Shape.juxtaposition? text)).getD
      (.unknown text)

namespace Shape

theorem text_of_logarithm? {text : Fragment} {s : Shape} (h : logarithm? text = some s) :
    s.text = text := by
  unfold logarithm? at h
  split at h
  · split at h
    · rename_i hg
      cases h
      simp [Shape.text,Pattern.eq_of_group? hg]
    · cases h
  · cases h

theorem text_of_group? {text : Fragment} {s : Shape} (h : group? text = some s) :
    s.text = text := by
  unfold group? at h
  split at h
  · rename_i hg
    cases h
    simp [Shape.text,Pattern.eq_of_group? hg]
  · cases h

theorem text_of_operand? {text : Fragment} {s : Shape} (h : operand? text = some s) :
    s.text = text := by
  unfold operand? at h
  split at h
  · rename_i ho
    cases h
    simpa [Shape.text] using (Pattern.operand_cuts _ _ _ ho).1
  · rename_i ho
    have hc := (Pattern.operand_cuts _ _ _ ho).1
    cases h
    split <;> simpa [Shape.text] using hc
  · cases h

theorem text_of_negation? {text : Fragment} {s : Shape} (h : negation? text = some s) :
    s.text = text := by
  unfold negation? at h
  split at h
  · split at h
    · rename_i ho
      have hc := (Pattern.operand_cuts _ _ _ ho).1
      cases h
      split <;> simpa [Shape.text] using hc
    · cases h
  · cases h

theorem text_of_operation? {text : Fragment} {s : Shape} (h : operation? text = some s) :
    s.text = text := by
  unfold operation? at h
  split at h
  · rename_i hl
    split at h
    · rename_i hs hr
      cases h
      have hl := (Pattern.operand_cuts _ _ _ hl).1
      have hr := (Pattern.operand_cuts _ _ _ hr).1
      have hs := BinaryOp.symbol_of_ofSymbol? hs
      simp_all [Shape.text]
    · cases h
  · cases h

theorem text_of_juxtaposition? {text : Fragment} {s : Shape}
    (h : juxtaposition? text = some s) : s.text = text := by
  unfold juxtaposition? at h
  split at h
  · rename_i hl
    split at h
    · cases h
      simpa [Shape.text] using (Pattern.operand_cuts _ _ _ hl).1
    · cases h
  · cases h

end Shape

theorem Fragment.shape_cases (text : Fragment) :
    Shape.logarithm? text = some text.shape ∨ Shape.group? text = some text.shape ∨
      Shape.operand? text = some text.shape ∨ Shape.negation? text = some text.shape ∨
      Shape.operation? text = some text.shape ∨ Shape.juxtaposition? text = some text.shape ∨
      text.shape = .unknown text := by
  unfold Fragment.shape
  cases h : ((((((Shape.logarithm? text).or (Shape.group? text)).or (Shape.operand? text)).or
    (Shape.negation? text)).or (Shape.operation? text)).or (Shape.juxtaposition? text)) with
  | none => simp
  | some s =>
    simp only [Option.or_eq_some_iff] at h
    simp only [Option.getD_some]
    rcases h with ((((h | ⟨-,h⟩) | ⟨-,h⟩) | ⟨-,h⟩) | ⟨-,h⟩) | ⟨-,h⟩ <;> simp [h]

@[simp] theorem Fragment.text_shape (text : Fragment) : text.shape.text = text := by
  rcases text.shape_cases with h | h | h | h | h | h | h
  · exact Shape.text_of_logarithm? h
  · exact Shape.text_of_group? h
  · exact Shape.text_of_operand? h
  · exact Shape.text_of_negation? h
  · exact Shape.text_of_operation? h
  · exact Shape.text_of_juxtaposition? h
  · rw [h]; rfl

theorem Fragment.ne_nil_of_shape_juxtaposition {text left right : Fragment}
    (h : text.shape = .juxtaposition left right) : left ≠ [] ∧ right ≠ [] := by
  have hc := text.shape_cases
  rw [h] at hc
  rcases hc with hc | hc | hc | hc | hc | hc | hc
  · unfold Shape.logarithm? at hc; split at hc <;> (try split at hc) <;> simp at hc
  · unfold Shape.group? at hc; split at hc <;> simp at hc
  · unfold Shape.operand? at hc; split at hc <;> (try split at hc) <;> simp at hc
  · unfold Shape.negation? at hc; split at hc <;> (try split at hc) <;> (try split at hc) <;>
      simp at hc
  · unfold Shape.operation? at hc; split at hc <;> (try split at hc) <;> simp at hc
  · unfold Shape.juxtaposition? at hc
    split at hc
    · rename_i ho
      split at hc
      · cases hc
        have hl := (Pattern.operand_cuts _ _ _ ho).2
        exact ⟨List.ne_nil_of_length_pos hl,by simp⟩
      · cases hc
    · cases hc
  · cases hc

end Fluxion.Formula
