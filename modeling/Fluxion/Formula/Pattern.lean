import Fluxion.Formula.Token

/-! Patterns split a text into what they match, at its start, and the rest.
A law of every pattern here is that the two parts make up the text and that
the match is not empty. -/
namespace Fluxion.Formula

abbrev Pattern := Fragment → Option (Fragment × Fragment)

namespace Pattern

def single (p : Token → Bool) : Pattern
  | [] => none
  | t :: rest => if p t then some ([t], rest) else none

def run (p : Token → Bool) : Pattern := fun text =>
  if text.takeWhile p = [] then none else some (text.takeWhile p, text.dropWhile p)

/-- The second pattern right after the first. -/
def seq (p q : Pattern) : Pattern := fun text =>
  match p text with
  | none => none
  | some (a, rest) => (q rest).map fun (b, after) => (a ++ b, after)

/-- The second pattern where the first one does not match. -/
def orElse (p q : Pattern) : Pattern := fun text =>
  match p text with
  | none => q text
  | some r => some r

def sign (cs : List Char) : Pattern := single fun
  | .char c => c ∈ cs
  | .ref _ _ => false

def letter : Pattern := single Token.isLetter
def letters : Pattern := run Token.isLetter
def digits : Pattern := run Token.isDigit
def reference : Pattern := single Token.isReference

/-- What an operation can be applied to: a run of letters, a run of digits or
a reference. -/
def operand : Pattern := letters.orElse (digits.orElse reference)

/-- The inside of the group that opens a text, and what follows the group.
There are no parentheses inside. -/
def group? : Fragment → Option (Fragment × Fragment)
  | .char '(' :: rest =>
    match rest.dropWhile (! ·.isParenthesis) with
    | .char ')' :: after => some (rest.takeWhile (! ·.isParenthesis), after)
    | _ => none
  | _ => none

def group : Pattern := fun text =>
  (group? text).map fun (inner, after) => (.char '(' :: inner ++ [.char ')'], after)

def logarithm : Pattern := ((sign ['l']).seq (sign ['n'])).seq group

/-- A minus and its operand. An operand in front of `^` is left to the power;
of a run of letters or digits only the last character is left to it. -/
def negation : Pattern
  | .char '-' :: rest =>
    match operand rest with
    | some (a, .char '^' :: _) =>
      if a.dropLast = [] then none
      else some (.char '-' :: a.dropLast, rest.drop a.dropLast.length)
    | some (a, after) => some (.char '-' :: a, after)
    | none => none
  | _ => none

def power : Pattern := (operand.seq (sign ['^'])).seq operand

/-- Two operands with a sign between them, or an operand and a reference with
nothing between them. -/
def product : Pattern := operand.seq (((sign ['*', '/']).seq operand).orElse reference)

/-- A number or a reference, and one letter right behind it. -/
def coefficient : Pattern := (digits.orElse reference).seq letter

def sum : Pattern := (operand.seq (sign ['+', '-'])).seq operand

/-- A match of at least `n` tokens is cut off the start of the text. -/
def Cuts (n : Nat) (p : Pattern) : Prop :=
  ∀ text a rest, p text = some (a, rest) → a ++ rest = text ∧ n ≤ a.length

theorem Cuts.weaken {m n : Nat} {p : Pattern} (h : Cuts n p) (hm : m ≤ n) : Cuts m p :=
  fun text a rest hp => ⟨(h text a rest hp).1,Nat.le_trans hm (h text a rest hp).2⟩

theorem single_cuts (p : Token → Bool) : Cuts 1 (single p) := by
  intro text a rest h
  cases text with
  | nil => simp [single] at h
  | cons t text =>
    simp only [single] at h
    split at h
    · cases h; simp
    · cases h

theorem run_cuts (p : Token → Bool) : Cuts 1 (run p) := by
  intro text a rest h
  simp only [run] at h
  split at h
  · cases h
  · rename_i hne
    cases h
    exact ⟨List.takeWhile_append_dropWhile,List.length_pos_iff.mpr hne⟩

theorem seq_cuts {m n : Nat} {p q : Pattern} (hp : Cuts m p) (hq : Cuts n q) :
    Cuts (m + n) (p.seq q) := by
  intro text a rest h
  simp only [seq] at h
  split at h
  · cases h
  · rename_i b mid hb
    obtain ⟨⟨c,after⟩,hc,he⟩ := Option.map_eq_some_iff.mp h
    cases he
    obtain ⟨rfl,hbl⟩ := hp _ _ _ hb
    obtain ⟨rfl,hcl⟩ := hq _ _ _ hc
    exact ⟨by simp,by simp; omega⟩

theorem orElse_cuts {n : Nat} {p q : Pattern} (hp : Cuts n p) (hq : Cuts n q) :
    Cuts n (p.orElse q) := by
  intro text a rest h
  simp only [orElse] at h
  split at h
  · exact hq _ _ _ h
  · rename_i r hr
    cases h; exact hp _ _ _ hr

theorem operand_cuts : Cuts 1 operand :=
  orElse_cuts (run_cuts _) (orElse_cuts (run_cuts _) (single_cuts _))

theorem eq_of_group? {text inner after : Fragment} (h : group? text = some (inner, after)) :
    text = .char '(' :: inner ++ .char ')' :: after := by
  unfold group? at h
  split at h
  · rename_i rest
    split at h
    · rename_i hd
      cases h
      have := rest.takeWhile_append_dropWhile (p := (! ·.isParenthesis))
      rw [hd] at this
      simp [this]
    · cases h
  · cases h

theorem group_cuts : Cuts 2 group := by
  intro text a rest h
  obtain ⟨⟨inner,after⟩,hg,he⟩ := Option.map_eq_some_iff.mp h
  cases he
  exact ⟨by simp [eq_of_group? hg],by simp⟩

theorem logarithm_cuts : Cuts 4 logarithm :=
  seq_cuts (seq_cuts (single_cuts _) (single_cuts _)) group_cuts

theorem negation_cuts : Cuts 2 negation := by
  intro text a rest h
  unfold negation at h
  split at h
  · rename_i tail
    split at h
    · rename_i b after hb
      split at h
      · cases h
      · rename_i hne
        cases h
        obtain ⟨rfl,-⟩ := operand_cuts _ _ _ hb
        have hp : b.dropLast <+: b ++ .char '^' :: after :=
          (List.dropLast_prefix b).trans (List.prefix_append ..)
        refine ⟨?_,by have := List.length_pos_iff.mpr hne; simp at this ⊢; omega⟩
        obtain ⟨t,ht⟩ := hp
        rw [← ht]; simp
    · rename_i b after _ hb
      cases h
      obtain ⟨rfl,hl⟩ := operand_cuts _ _ _ hb
      exact ⟨by simp,by simp; omega⟩
    · cases h
  · cases h

theorem power_cuts : Cuts 3 power :=
  seq_cuts (seq_cuts operand_cuts (single_cuts _)) operand_cuts

theorem product_cuts : Cuts 2 product :=
  seq_cuts operand_cuts
    (orElse_cuts ((seq_cuts (single_cuts _) operand_cuts).weaken (by decide)) (single_cuts _))

theorem coefficient_cuts : Cuts 2 coefficient :=
  seq_cuts (orElse_cuts (run_cuts _) (single_cuts _)) (single_cuts _)

theorem sum_cuts : Cuts 3 sum :=
  seq_cuts (seq_cuts operand_cuts (single_cuts _)) operand_cuts

end Pattern
end Fluxion.Formula
