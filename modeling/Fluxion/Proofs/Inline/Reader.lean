import Fluxion.Formula.Reading
import Fluxion.Proofs.Inline.Scanner

/-! Reading a formula in place: what is set aside is cut out of the written text, and its number
is written there in brackets. The table holds written texts, too, number 0 being the formula, and
a reference is followed by looking its digits up. Nothing makes sure beforehand that this comes
to an end, so there is a limit to the calls that are nested. -/
namespace Fluxion.Formula.Inline

/-- A run ends with a value or a fault, or it does not end within its limit. -/
abbrev Run := ExceptT Fault Option

namespace Run

variable {α β : Type}

def unfinished : Run α := ExceptT.mk none

theorem bind_of_ok {x : Except Fault α} {a : α} (h : x = .ok a) (f : α → Run β) :
    (liftM x >>= f : Run β) = f a := by
  subst h
  rfl

theorem bind_of_pure {x : Run α} {a : α} (h : x = pure a) (f : α → Run β) : x >>= f = f a := by
  subst h
  rfl

end Run

/-- The texts that have been set aside. -/
abbrev Store := List (List Char)

def reduce : Nat → List Char → Store → Run (List Char × Store)
  | 0, _, _ => .unfinished
  | limit + 1, text, store => do
    match ← first (Text.encode text) with
    | none => return (text, store)
    | some (start, stop) =>
      let part ← slice text start stop
      let text ← splice text start stop ('[' :: Decimal.ofNat store.length ++ [']'])
      reduce limit text (store ++ [part])

/-- What a text is built as, with the places where it is cut. -/
inductive Rule
  | logarithm | group | integer | name | reference | negation
  | operation (op : BinaryOp) (sign : Nat)
  | juxtaposition (split : Nat)
  | unknown
  deriving DecidableEq, Repr

section Rules

def isLogarithm (src : List UInt8) : Except Fault Bool := do
  if ¬Text.encode ['l', 'n', '('] <+: src then return false
  if ¬Text.encode [')'] <:+ src then return false
  let inner ← byteSlice src 3 (src.length - 1)
  return inner.all fun b => !byteIs (· ∈ ['(', ')']) b

def isGroup (src : List UInt8) : Except Fault Bool := do
  if src.length < 2 then return false
  if !byteIs (· == '(') (← byteAt src 0) then return false
  return byteIs (· == ')') (← byteAt src (src.length - 1))

def isInteger (src : List UInt8) : Bool := digits src (skip '-' src 0) = some src.length

def isName (src : List UInt8) : Bool := letters src 0 = some src.length

def isReference (src : List UInt8) : Bool := reference src 0 = some src.length

def isNegation (src : List UInt8) : Except Fault Bool := do
  if !byteIs (· == '-') (← byteAt src 0) then return false
  return operand src 1 = some src.length

/-- The place of the sign between two operands. Those of a product or a quotient may have a
minus of their own. -/
def operation? (op : BinaryOp) (src : List UInt8) : Option Nat := do
  let operandAt (i : Nat) : Option Nat :=
    operand src (if op = .times ∨ op = .divide then skip '-' src i else i)
  let place ← operandAt 0
  let right ← sign op.symbol src place
  let stop ← operandAt right
  if stop = src.length then some place else none

def twoReferences? (src : List UInt8) : Option Nat := do
  let second ← reference src 0
  let stop ← reference src second
  if stop = src.length then some second else none

/-- The place of what comes up to the end behind a factor, which may have a minus in front and a
star behind it. -/
def factor? (p q : Scanner) (src : List UInt8) : Option Nat := do
  let stop ← p src (skip '-' src 0)
  let second := skip '*' src stop
  let stop ← q src second
  if stop = src.length then some second else none

def factorOfReference? : List UInt8 → Option Nat :=
  factor? (fun src i => (one Char.isAlpha src i).or (digits src i)) reference

def factorOfLetters? : List UInt8 → Option Nat :=
  factor? (fun src i => (digits src i).or (reference src i)) letters

/-- The place of the second factor of a product without a sign. -/
def split? (src : List UInt8) : Option Nat :=
  (twoReferences? src).or ((factorOfReference? src).or (factorOfLetters? src))

/-- The first rule for two operands that a text is built by. -/
def pairRule (src : List UInt8) : Rule :=
  let ruleFor (op : BinaryOp) : Option Rule := (operation? op src).map (.operation op)
  ((ruleFor .plus).or ((ruleFor .minus).or ((ruleFor .times).or
    (((split? src).map .juxtaposition).or ((ruleFor .divide).or (ruleFor .power)))))).getD .unknown

/-- The first rule that a text is built by. -/
def rule (src : List UInt8) : Except Fault Rule := do
  if src = [] then return .unknown
  if ← isLogarithm src then return .logarithm
  if ← isGroup src then return .group
  if isInteger src then return .integer
  if isName src then return .name
  if isReference src then return .reference
  if ← isNegation src then return .negation
  return pairRule src

end Rules

def lookup (text : List Char) (store : Store) : Except Fault (List Char) := do
  match Decimal.toNat (← slice text 1 ((Text.encode text).length - 1)) with
  | 0 => throw .wholeFormula
  | i + 1 =>
    match store[i + 1]? with
    | some part => return part
    | none => throw (.noEntry text)

def integer (text : List Char) : Except ParseError Expr :=
  let v? := match text with
    | '-' :: digits => integer? true digits
    | digits => integer? false digits
  v?.elim (.error (.invalidInteger (String.ofList text))) fun v => .ok (.const v)

/-- The expression for a text, or the first error, and the store as it is by then. -/
def build : Nat → List Char → Store → Run (Except ParseError Expr × Store)
  | 0, _, _ => .unfinished
  | limit + 1, text, store => do
    let stop := (Text.encode text).length
    match ← rule (Text.encode text) with
    | .logarithm =>
      let inner ← slice text 3 (stop - 1)
      let (rest, store) ← reduce limit inner store
      let (a, store) ← build limit rest store
      return (a.map .ln, store)
    | .group =>
      let inner ← slice text 1 (stop - 1)
      let (rest, store) ← reduce limit inner store
      build limit rest store
    | .integer => return (integer text, store)
    | .name => return (.ok (.var (String.ofList text)), store)
    | .reference =>
      let part ← lookup text store
      build limit part store
    | .negation =>
      let operand ← slice text 1 stop
      let (a, store) ← build limit operand store
      return (a.map .neg, store)
    | .operation op sign =>
      let left ← slice text 0 sign
      match ← build limit left store with
      | (.error e, store) => return (.error e, store)
      | (.ok a, store) =>
        let right ← slice text (sign + 1) stop
        let (b, store) ← build limit right store
        return (b.bind fun b => (Expr.combine op a b).mapError .construction, store)
    | .juxtaposition split =>
      let left ← slice text 0 split
      match ← build limit (left.reverse.dropWhile (· == '*')).reverse store with
      | (.error e, store) => return (.error e, store)
      | (.ok a, store) =>
        let right ← slice text split stop
        let (b, store) ← build limit right store
        return (b.map (.binary .times a), store)
    | .unknown => return (.error (.invalidExpression (String.ofList text)), store)

/-- Read a formula without white space. -/
def read (limit : Nat) (formula : String) : Run (Except ParseError Expr × Store) := do
  let text := formula.toList
  if text.isEmpty then return (.error .empty, [text])
  match firstInvalid? 0 text with
  | some (c, i) => return (.error (.invalidCharacter c i), [text])
  | none =>
    let (rest, store) ← reduce limit text [text]
    build limit rest store

end Fluxion.Formula.Inline
