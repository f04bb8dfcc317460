import Fluxion.Formula.Pattern

/-! The tiers of precedence. Each has a pattern, and the places of a text where
a pattern matches are tried from the left. -/
namespace Fluxion.Formula

/-- What can be set aside next, what binds tightest first. -/
inductive Tier
  | logarithm | group | negation | power | product | coefficient | sum
  deriving DecidableEq, Repr

namespace Tier

def all : List Tier := [logarithm, group, negation, power, product, coefficient, sum]

def name : Tier → String
  | logarithm => "ln"
  | group => "parentheses"
  | negation => "unary minus"
  | power => "power"
  | product => "multiply/divide"
  | coefficient => "implicit multiply"
  | sum => "add/subtract"

def pattern : Tier → Pattern
  | logarithm => .logarithm
  | group => .group
  | negation => .negation
  | power => .power
  | product => .product
  | coefficient => .coefficient
  | sum => .sum

/-- Only a negation depends on the token in front of it: its minus opens the
text or follows an operator. -/
def allowedAfter : Tier → Option Token → Bool
  | negation, some t => t.isOperator
  | _, _ => true

/-- The match of a tier at the start of a text, `previous` being the token in
front of it. -/
def match? (tier : Tier) (previous : Option Token) (text : Fragment) :
    Option (Fragment × Fragment) :=
  if tier.allowedAfter previous then tier.pattern text else none

theorem pattern_cuts (tier : Tier) : tier.pattern.Cuts 2 := by
  cases tier
  · exact Pattern.logarithm_cuts.weaken (by decide)
  · exact Pattern.group_cuts
  · exact Pattern.negation_cuts
  · exact Pattern.power_cuts.weaken (by decide)
  · exact Pattern.product_cuts
  · exact Pattern.coefficient_cuts
  · exact Pattern.sum_cuts.weaken (by decide)

theorem match?_cuts (tier : Tier) (previous : Option Token) :
    Pattern.Cuts 2 (tier.match? previous) := by
  intro text a rest h
  unfold match? at h
  split at h
  · exact tier.pattern_cuts _ _ _ h
  · cases h

end Tier

/-- A place in a text where something matches. -/
structure Site where
  before : Fragment
  matched : Fragment
  after : Fragment

namespace Site

def text (s : Site) : Fragment := s.before ++ s.matched ++ s.after

/-- The text with a token in the place of the match. -/
def replace (s : Site) (t : Token) : Fragment := s.before ++ t :: s.after

end Site

namespace Tier

/-- The first place from the left where a tier matches. -/
def leftmost? (tier : Tier) (previous : Option Token) : Fragment → Option Site
  | [] => none
  | t :: rest =>
    match tier.match? previous (t :: rest) with
    | some (matched, after) => some ⟨[], matched, after⟩
    | none => (tier.leftmost? (some t) rest).map fun s => { s with before := t :: s.before }

theorem leftmost?_cuts {tier : Tier} {previous : Option Token} {text : Fragment} {s : Site}
    (h : tier.leftmost? previous text = some s) : s.text = text ∧ 2 ≤ s.matched.length := by
  induction text generalizing previous s with
  | nil => simp [leftmost?] at h
  | cons t rest ih =>
    simp only [leftmost?] at h
    split at h
    · rename_i hm
      cases h
      exact tier.match?_cuts previous _ _ _ hm
    · obtain ⟨s,hs,rfl⟩ := Option.map_eq_some_iff.mp h
      obtain ⟨ht,hl⟩ := ih hs
      exact ⟨by simpa [Site.text] using ht,hl⟩

/-- The highest tier that matches somewhere, and the first place where it does. -/
def first? (text : Fragment) : Option (Tier × Site) :=
  all.findSome? fun tier => (tier.leftmost? none text).map (tier, ·)

theorem leftmost?_of_first? {text : Fragment} {tier : Tier} {s : Site}
    (h : first? text = some (tier, s)) : tier.leftmost? none text = some s := by
  obtain ⟨tier',-,ht⟩ := List.exists_of_findSome?_eq_some h
  obtain ⟨s',hs,he⟩ := Option.map_eq_some_iff.mp ht
  cases he
  exact hs

theorem first?_cuts {text : Fragment} {tier : Tier} {s : Site}
    (h : first? text = some (tier, s)) : s.text = text ∧ 2 ≤ s.matched.length :=
  leftmost?_cuts (leftmost?_of_first? h)

theorem length_replace_lt {text : Fragment} {tier : Tier} {s : Site}
    (h : first? text = some (tier, s)) (t : Token) : (s.replace t).length < text.length := by
  obtain ⟨rfl,hl⟩ := first?_cuts h
  simp [Site.text,Site.replace]
  omega

end Tier
end Fluxion.Formula
