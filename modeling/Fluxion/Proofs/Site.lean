import Fluxion.Proofs.Operand

/-! Where the next match is. No tier above that of the match has one anywhere in the
text, and its own tier has none further to the left. -/
namespace Fluxion.Formula
namespace Tier

/-- The tier matches at no place of the text. -/
def Nowhere (tier : Tier) (text : Fragment) : Prop :=
  ∀ u v, text = u ++ v → tier.match? u.getLast? v = none

/-- The tiers that are tried before this one. -/
def above (tier : Tier) : List Tier := all.takeWhile (· ≠ tier)

theorem match?_nil (tier : Tier) (previous : Option Token) : tier.match? previous [] = none := by
  cases h : tier.match? previous [] with
  | none => rfl
  | some r =>
    obtain ⟨ha,hl⟩ := tier.match?_cuts previous _ _ _ h
    rw [(List.append_eq_nil_iff.mp ha).1] at hl
    simp at hl

theorem getLast?_cons_or {α : Type} (t : α) (u : List α) (previous : Option α) :
    (t :: u).getLast?.or previous = u.getLast?.or (some t) := by
  rw [List.getLast?_cons]
  cases u.getLast? <;> rfl

theorem leftmost?_eq_none {tier : Tier} {previous : Option Token} {text : Fragment}
    (h : tier.leftmost? previous text = none) (u v : Fragment) (ht : text = u ++ v) :
    tier.match? (u.getLast?.or previous) v = none := by
  induction text generalizing previous u with
  | nil =>
    obtain ⟨rfl,rfl⟩ := List.append_eq_nil_iff.mp ht.symm
    exact tier.match?_nil _
  | cons t text ih =>
    simp only [leftmost?] at h
    split at h
    · cases h
    · rename_i hm
      cases u with
      | nil =>
        subst ht
        exact hm
      | cons x u =>
        obtain ⟨rfl,rfl⟩ := List.cons_eq_cons.mp ht
        rw [getLast?_cons_or]
        exact ih (Option.map_eq_none_iff.mp h) u rfl

theorem leftmost?_eq_some {tier : Tier} {previous : Option Token} {text : Fragment} {s : Site}
    (h : tier.leftmost? previous text = some s) :
    tier.match? (s.before.getLast?.or previous) (s.matched ++ s.after) = some (s.matched, s.after) ∧
      ∀ u v, text = u ++ v → u.length < s.before.length →
        tier.match? (u.getLast?.or previous) v = none := by
  induction text generalizing previous s with
  | nil => simp [leftmost?] at h
  | cons t text ih =>
    simp only [leftmost?] at h
    split at h
    · rename_i a rest hm
      cases h
      rw [← (tier.match?_cuts previous _ _ _ hm).1] at hm
      exact ⟨hm,fun u v _ hu => absurd hu (Nat.not_lt_zero _)⟩
    · rename_i hm
      obtain ⟨s,hs,rfl⟩ := Option.map_eq_some_iff.mp h
      obtain ⟨hh,hl⟩ := ih hs
      refine ⟨by rw [getLast?_cons_or]; exact hh,fun u v ht hu => ?_⟩
      cases u with
      | nil =>
        subst ht
        exact hm
      | cons x u =>
        obtain ⟨rfl,rfl⟩ := List.cons_eq_cons.mp ht
        rw [getLast?_cons_or]
        exact hl u v rfl (by simpa using hu)

/-- What is known of the next match. -/
structure First (text : Fragment) (tier : Tier) (s : Site) : Prop where
  cut : text = s.before ++ (s.matched ++ s.after)
  here : tier.match? s.before.getLast? (s.matched ++ s.after) = some (s.matched, s.after)
  left : ∀ u v, text = u ++ v → u.length < s.before.length → tier.match? u.getLast? v = none
  above : ∀ higher ∈ tier.above, higher.Nowhere text

theorem First.isOperator_of_negation {text : Fragment} {s : Site} (hs : First text .negation s) :
    ∀ t ∈ s.before.getLast?, t.isOperator = true := by
  intro t ht
  have hhere := hs.here
  rw [Option.mem_def.mp ht] at hhere
  by_contra ho
  have ho : ¬negation.allowedAfter (some t) = true := ho
  rw [match?,if_neg ho] at hhere
  cases hhere

theorem first_of_first? {text : Fragment} {tier : Tier} {s : Site}
    (h : first? text = some (tier, s)) : First text tier s := by
  obtain ⟨hh,hl⟩ := leftmost?_eq_some (leftmost?_of_first? h)
  refine ⟨by simpa [Site.text] using (first?_cuts h).1.symm,by simpa using hh,
    by simpa using hl,?_⟩
  obtain ⟨l,tier',l',ha,ht,hn⟩ := List.findSome?_eq_some_iff.mp h
  obtain ⟨s',-,he⟩ := Option.map_eq_some_iff.mp ht
  obtain ⟨rfl,-⟩ := Prod.mk.inj he
  intro higher hm u v huv
  have hm : higher ∈ l := by
    rw [Tier.above,ha,List.takeWhile_append] at hm
    split at hm
    · simpa using hm
    · exact (List.takeWhile_prefix _).subset hm
  simpa using leftmost?_eq_none (Option.map_eq_none_iff.mp (hn higher hm)) u v huv

theorem nowhere_of_first? {text : Fragment} (h : first? text = none) (tier : Tier) :
    tier.Nowhere text := by
  intro u v huv
  have hm := List.findSome?_eq_none_iff.mp h tier (by cases tier <;> decide)
  simpa using leftmost?_eq_none (Option.map_eq_none_iff.mp hm) u v huv

end Tier
end Fluxion.Formula
