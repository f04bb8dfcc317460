import Fluxion.Formula.Tier
import Fluxion.Text

/-! Texts as they are written, with references among the characters: a number in brackets.
Patterns go by places here, which are counted in bytes, and nothing tells the digits of a
reference from those of a number. Every access that assumes a place to lie in the text is
checked, and it is a fault if it does not, or if it lies inside a character. -/
namespace Fluxion.Formula.Inline

/-- What must not happen while a formula is read. -/
inductive Fault
  | outOfRange
  /-- A reference without an entry is looked up. -/
  | noEntry (reference : List Char)
  /-- Number 0 is looked up, which is the formula itself. -/
  | wholeFormula
  deriving DecidableEq, Repr

section Access

def checked {α : Type} : Option α → Except Fault α
  | some a => .ok a
  | none => .error .outOfRange

/-- The parts of a text in front of a place and behind it. -/
def cut? : List Char → Nat → Option (List Char × List Char)
  | text, 0 => some ([], text)
  | [], _ + 1 => none
  | c :: text, n + 1 =>
    if c.utf8Size ≤ n + 1 then
      (cut? text (n + 1 - c.utf8Size)).map fun (front, back) => (c :: front, back)
    else none

def slice (text : List Char) (start stop : Nat) : Except Fault (List Char) := do
  let (front, _) ← checked (cut? text stop)
  let (_, part) ← checked (cut? front start)
  return part

def splice (text : List Char) (start stop : Nat) (part : List Char) :
    Except Fault (List Char) := do
  let (front, back) ← checked (cut? text stop)
  let (before, _) ← checked (cut? front start)
  return before ++ part ++ back

def byteAt (src : List UInt8) (i : Nat) : Except Fault UInt8 := checked src[i]?

/-- The bytes from a place on, which may be the end. -/
def bytesFrom (src : List UInt8) (start : Nat) : Except Fault (List UInt8) :=
  if start ≤ src.length then .ok (src.drop start) else .error .outOfRange

def byteSlice (src : List UInt8) (start stop : Nat) : Except Fault (List UInt8) :=
  if start ≤ stop ∧ stop ≤ src.length then .ok ((src.take stop).drop start)
  else .error .outOfRange

end Access

/-- Where a match ends that starts at a place. -/
abbrev Scanner := List UInt8 → Nat → Option Nat

section Scanners

/-- Bytes are told apart as characters. Those of a character outside ASCII are none that has a
meaning in formulas. -/
def byteIs (p : Char → Bool) (b : UInt8) : Bool := p (Char.ofUInt8 b)

def one (p : Char → Bool) : Scanner := fun src i =>
  if (src[i]?).any (byteIs p) then some (i + 1) else none

def sign (c : Char) : Scanner := one (· == c)

def skip (c : Char) (src : List UInt8) (i : Nat) : Nat := (sign c src i).getD i

def takeRun (p : Char → Bool) : Scanner := fun src start =>
  let run := (src.drop start).takeWhile (byteIs p)
  if run = [] then none else some (start + run.length)

def letters : Scanner := takeRun Char.isAlpha
def digits : Scanner := takeRun Char.isDigit

def reference : Scanner := fun src start => do
  let first ← sign '[' src start
  let last ← digits src first
  sign ']' src last

def operand : Scanner := fun src start =>
  (letters src start).or ((digits src start).or (reference src start))

/-- Where the group ends whose inside goes on at a place. -/
def closing (src : List UInt8) (cursor : Nat) : Option Nat :=
  match _h : src[cursor]? with
  | none => none
  | some b =>
    if byteIs (· == ')') b then some (cursor + 1)
    else if byteIs (· == '(') b then none
    else closing src (cursor + 1)
termination_by src.length - cursor
decreasing_by
  have := (List.getElem?_eq_some_iff.mp _h).1
  omega

def group : Scanner := fun src start => do
  let first ← sign '(' src start
  closing src first

def logarithm (src : List UInt8) (start : Nat) : Except Fault (Option Nat) := do
  let rest ← bytesFrom src start
  return if Text.encode ['l', 'n'] <+: rest then group src (start + 2) else none

/-- Whether a minus at a place belongs to the operand behind it. -/
def opens (src : List UInt8) (start : Nat) : Except Fault Bool := do
  if start = 0 then return true
  let previous ← byteAt src (start - 1)
  return byteIs (· ∈ ['+', '-', '*', '/', '^']) previous

/-- An operand that is not in front of `^`. Of a run of letters or digits the longest part is
taken that is not. -/
def unraised : Scanner := fun src first =>
  let free (stop : Nat) : Bool := (sign '^' src stop).isNone
  match reference src first with
  | some stop => if free stop then some stop else none
  | none => do
    let longest ← (letters src first).or (digits src first)
    ((List.range' (first + 1) (longest - first)).reverse).find? free

def minus : Scanner := fun src start => do
  let first ← sign '-' src start
  unraised src first

def negation (src : List UInt8) (start : Nat) : Except Fault (Option Nat) := do
  return if ← opens src start then minus src start else none

def power : Scanner := fun src start => do
  let left ← operand src start
  let right ← sign '^' src left
  operand src right

def product : Scanner := fun src start => do
  let left ← operand src start
  match one (· ∈ ['*', '/']) src left with
  | some right => operand src right
  | none => reference src left

def coefficient : Scanner := fun src start => do
  let left ← (digits src start).or (reference src start)
  one Char.isAlpha src left

def sum : Scanner := fun src start => do
  let left ← operand src start
  let right ← one (· ∈ ['+', '-']) src left
  operand src right

def scan : Tier → List UInt8 → Nat → Except Fault (Option Nat)
  | .logarithm => logarithm
  | .group => fun src start => .ok (group src start)
  | .negation => negation
  | .power => fun src start => .ok (power src start)
  | .product => fun src start => .ok (product src start)
  | .coefficient => fun src start => .ok (coefficient src start)
  | .sum => fun src start => .ok (sum src start)

/-- The first match from the left. -/
def leftmost (tier : Tier) (src : List UInt8) : Except Fault (Option (Nat × Nat)) :=
  (List.range src.length).findSomeM? fun start =>
    return (← scan tier src start).map fun stop => (start, stop)

/-- The first match of the highest tier that has one. -/
def first (src : List UInt8) : Except Fault (Option (Nat × Nat)) :=
  Tier.all.findSomeM? fun tier => leftmost tier src

end Scanners

end Fluxion.Formula.Inline
