/-! Decimal text of numbers. Reading the digits of a natural number gives it back.
A positive double stands for all reals that round to it; among the decimals in that
range the one on the coarsest grid of powers of ten is written, of two on the same
grid the nearer one, with all zeros and never an exponent. All comparisons are exact,
between natural numbers on a common scale. -/
namespace Fluxion.Decimal

/-- The digits of a natural number, without leading zeros. -/
def ofNat (n : Nat) : List Char := Nat.toDigits 10 n

def ofInt (n : Int) : List Char :=
  if n < 0 then '-' :: ofNat n.natAbs else ofNat n.natAbs

def natText (n : Nat) : String := String.ofList (ofNat n)

/-- The number that a run of digits stands for; leading zeros do not count. -/
def toNat (digits : List Char) : Nat := Nat.ofDigitChars 10 digits 0

@[simp] theorem toNat_ofNat (n : Nat) : toNat (ofNat n) = n := by
  simp [toNat,ofNat]

theorem isDigit_of_mem_ofNat {n : Nat} {c : Char} (h : c ∈ ofNat n) : c.isDigit = true :=
  Nat.isDigit_of_mem_toDigits (by decide) (by decide) h

theorem ofNat_ne_nil (n : Nat) : ofNat n ≠ [] := Nat.toDigits_ne_nil

theorem ofInt_of_nonneg {n : Int} (h : 0 ≤ n) : ofInt n = ofNat n.natAbs := by
  simp [ofInt,Int.not_lt.mpr h]

theorem ofInt_of_neg {n : Int} (h : n < 0) : ofInt n = '-' :: ofNat n.natAbs := by
  simp [ofInt,h]

/-- The reals that round to a positive double, in units of `2 ^ exponent`. The
ends belong to the range if it is closed. -/
structure Range where
  low : Nat
  value : Nat
  high : Nat
  exponent : Int
  closed : Bool

namespace Range

/-- The range of the double with a given biased exponent and fraction. Its ends
are half a unit away, the lower one a quarter just above a power of two, and
they round to the double if its significand is even. -/
def ofFields (biased fraction : Nat) : Range :=
  let significand := if biased = 0 then fraction else fraction + Nat.pow 2 52
  { low := 4 * significand - if fraction = 0 ∧ 1 < biased then 1 else 2
    value := 4 * significand
    high := 4 * significand + 2
    exponent := (max biased 1 : Nat) - 1077
    closed := significand % 2 = 0 }

/-- The common scale on which `k * 10 ^ place` is `k * grid` and `n` units of the
range are `n * step`. -/
def grid (r : Range) (place : Int) : Nat := Nat.pow 10 place.toNat * Nat.pow 2 (-r.exponent).toNat

def step (r : Range) (place : Int) : Nat := Nat.pow 2 r.exponent.toNat * Nat.pow 10 (-place).toNat

def holds (r : Range) (place : Int) (k : Nat) : Bool :=
  if r.closed then
    r.low * r.step place ≤ k * r.grid place ∧ k * r.grid place ≤ r.high * r.step place
  else
    r.low * r.step place < k * r.grid place ∧ k * r.grid place < r.high * r.step place

/-- The nearest multiple of `10 ^ place` in the range, as its factor. Halfway
between two multiples it is the upper one. -/
def nearest? (r : Range) (place : Int) : Option Nat :=
  let below := r.value * r.step place / r.grid place
  let nearBelow :=
    2 * (r.value * r.step place) < (2 * below + 1) * r.grid place
  if r.holds place below ∧ (nearBelow ∨ ¬ r.holds place (below + 1)) then some below
  else if r.holds place (below + 1) then some (below + 1)
  else none

/-- From the largest power of ten below all doubles to one that is finer than
the gaps between them. -/
def places : List Int := (List.range 633).map fun (i : Nat) => 308 - (i : Int)

/-- Factor and place of the shortest decimal in the range. -/
def shortest (r : Range) : Nat × Int :=
  (places.findSome? fun place => (r.nearest? place).map (·, place)).getD (0, 0)

end Range

def positional (k : Nat) (place : Int) : List Char :=
  let digits := ofNat k
  let places := (-place).toNat
  if places = 0 then digits ++ List.replicate place.toNat '0'
  else
    let padded := List.replicate (places + 1 - digits.length) '0' ++ digits
    padded.take (padded.length - places) ++ '.' :: padded.drop (padded.length - places)

/-- The text of the double with given fields, without its sign. -/
def magnitude (biased fraction : Nat) : List Char :=
  if biased = 2047 then ['i', 'n', 'f']
  else if biased = 0 ∧ fraction = 0 then ['0']
  else
    let (k, place) := (Range.ofFields biased fraction).shortest
    positional k place

def floatText (x : Float) : String :=
  let bits := x.toBits.toNat
  if x.isNaN then "NaN"
  else
    let unsigned := magnitude (bits / Nat.pow 2 52 % Nat.pow 2 11) (bits % Nat.pow 2 52)
    String.ofList (if bits / Nat.pow 2 63 = 1 then '-' :: unsigned else unsigned)

end Fluxion.Decimal
