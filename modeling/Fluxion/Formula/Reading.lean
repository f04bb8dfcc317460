import Fluxion.Expr.Construction
import Fluxion.Formula.Collapse
import Fluxion.Formula.Shape

/-! Reading a formula. The text is collapsed, and an expression is assembled from
what is left of it, along the shapes of its parts; the inside of a group or of a
logarithm is collapsed when it is reached, into the same table. With every step
the source of the text gets shorter, or it stays and the weight gets less. -/
namespace Fluxion.Formula

/-- Why a formula cannot be read. -/
inductive ParseError
  | empty
  | invalidCharacter (character : Char) (index : Nat)
  | invalidExpression (fragment : String)
  | invalidInteger (text : String)
  | construction (error : ConstructionError)
  deriving DecidableEq, Repr

def ParseError.message : ParseError → String
  | empty => "Nothing to parse"
  | invalidCharacter character index =>
    "Invalid character, '" ++ character.toString ++ "', at index " ++ Decimal.natText index
  | invalidExpression fragment => "\"" ++ fragment ++ "\" is not a valid expression"
  | invalidInteger text => "\"" ++ text ++ "\" is not a valid integer"
  | construction error => error.message

/-- What reading comes to, and the table that it has filled. -/
structure Reading where
  outcome : Except ParseError Expr
  table : Table

namespace Reading

def map (f : Expr → Expr) (r : Reading) : Reading := ⟨r.outcome.map f, r.table⟩

/-- The outcome of the left operand, then that of the right one with the table
as it is by then, joined. The first error is the outcome of both. -/
def join (op : BinaryOp) (left : Reading) (right : Table → Reading) : Reading :=
  match left with
  | ⟨.error e, table⟩ => ⟨.error e, table⟩
  | ⟨.ok a, table⟩ =>
    let r := right table
    ⟨r.outcome.bind fun b => (Expr.combine op a b).mapError .construction, r.table⟩

end Reading

/-- Constants hold 64 bits. -/
def integer? (negative : Bool) (digits : List Char) : Option Int64 :=
  let n : Int := if negative then -(Decimal.toNat digits) else Decimal.toNat digits
  if Int64.minValue.toInt ≤ n ∧ n ≤ Int64.maxValue.toInt then some (Int64.ofInt n) else none

/-- The expression that a collapsed text stands for. -/
def assemble (text : Fragment) (table : Table) : Reading :=
  match _h : text.shape with
  | .logarithm inner =>
    let r := collapse inner table
    (assemble r.1 r.2).map .ln
  | .group inner =>
    let r := collapse inner table
    assemble r.1 r.2
  | .integer negative digits =>
    match integer? negative digits.source with
    | some v => ⟨.ok (.const v), table⟩
    | none => ⟨.error (.invalidInteger text.render), table⟩
  | .name letters => ⟨.ok (.var (String.ofList letters.source)), table⟩
  | .reference _ content => assemble content table
  | .negation operand => (assemble operand table).map .neg
  | .operation op left right =>
    Reading.join op (assemble left table) fun table => assemble right table
  | .juxtaposition left right =>
    Reading.join .times (assemble left table) fun table => assemble right table
  | .unknown _ => ⟨.error (.invalidExpression text.render), table⟩
termination_by (text.source.length, text.weight)
decreasing_by
  all_goals
    have ht := text.text_shape
    rw [_h] at ht
    simp only [Shape.text] at ht
    subst ht
    simp only [source_collapse,Fragment.source_cons,Fragment.source_append,Fragment.source_nil,
      Fragment.weight_cons,Fragment.weight_append,Fragment.weight_nil,Token.source_char,
      Token.source_ref,Token.weight_ref,List.length_append,List.length_cons,List.length_nil]
  · exact Prod.Lex.left _ _ (by omega)
  · exact Prod.Lex.left _ _ (by omega)
  · exact Prod.Lex.right' _ (by omega) (by omega)
  · exact Prod.Lex.left _ _ (by omega)
  · exact Prod.Lex.left _ _ (by omega)
  · exact Prod.Lex.left _ _ (by omega)
  · have := Fragment.weight_pos (Fragment.ne_nil_of_shape_juxtaposition _h).2
    exact Prod.Lex.right' _ (by omega) (by omega)
  · have := Fragment.weight_pos (Fragment.ne_nil_of_shape_juxtaposition _h).1
    exact Prod.Lex.right' _ (by omega) (by omega)

theorem assemble_of_logarithm {text inner : Fragment} (h : text.shape = .logarithm inner)
    (table : Table) :
    assemble text table =
      (assemble (collapse inner table).1 (collapse inner table).2).map .ln := by
  rw [assemble]
  split <;> simp_all

theorem assemble_of_group {text inner : Fragment} (h : text.shape = .group inner)
    (table : Table) :
    assemble text table = assemble (collapse inner table).1 (collapse inner table).2 := by
  rw [assemble]
  split <;> simp_all

theorem assemble_of_integer {text digits : Fragment} {negative : Bool}
    (h : text.shape = .integer negative digits) (table : Table) :
    assemble text table =
      ⟨(integer? negative digits.source).elim (.error (.invalidInteger text.render))
        fun v => .ok (.const v), table⟩ := by
  rw [assemble]
  split <;> simp_all
  split <;> simp_all

theorem assemble_of_name {text letters : Fragment} (h : text.shape = .name letters)
    (table : Table) :
    assemble text table = ⟨.ok (.var (String.ofList letters.source)), table⟩ := by
  rw [assemble]
  split <;> simp_all

theorem assemble_of_reference {text content : Fragment} {index : Nat}
    (h : text.shape = .reference index content) (table : Table) :
    assemble text table = assemble content table := by
  rw [assemble]
  split <;> simp_all

theorem assemble_of_negation {text operand : Fragment} (h : text.shape = .negation operand)
    (table : Table) : assemble text table = (assemble operand table).map .neg := by
  rw [assemble]
  split <;> simp_all

theorem assemble_of_operation {text left right : Fragment} {op : BinaryOp}
    (h : text.shape = .operation op left right) (table : Table) :
    assemble text table = Reading.join op (assemble left table) (assemble right) := by
  rw [assemble]
  split <;> simp_all

theorem assemble_of_juxtaposition {text left right : Fragment}
    (h : text.shape = .juxtaposition left right) (table : Table) :
    assemble text table = Reading.join .times (assemble left table) (assemble right) := by
  rw [assemble]
  split <;> simp_all

theorem assemble_of_unknown {text u : Fragment} (h : text.shape = .unknown u)
    (table : Table) :
    assemble text table = ⟨.error (.invalidExpression text.render), table⟩ := by
  rw [assemble]
  split <;> simp_all

/-- Letters and digits of ASCII, signs and parentheses. -/
def isAllowed (c : Char) : Bool :=
  c.isAlphanum || c ∈ ['+', '-', '*', '/', '^', '(', ')']

/-- The first character that a formula cannot have, with its place in bytes,
counted from `offset`. -/
def firstInvalid? (offset : Nat) : List Char → Option (Char × Nat)
  | [] => none
  | c :: cs => if isAllowed c then firstInvalid? (offset + c.utf8Size) cs else some (c, offset)

/-- Read a formula without white space. -/
def read (formula : String) : Reading :=
  if formula.isEmpty then ⟨.error .empty, .empty⟩
  else
    match firstInvalid? 0 formula.toList with
    | some (c, i) => ⟨.error (.invalidCharacter c i), .empty⟩
    | none =>
      let r := collapse (.ofString formula) .empty
      assemble r.1 r.2

def parse (formula : String) : Except ParseError Expr := (read formula).outcome

end Fluxion.Formula
