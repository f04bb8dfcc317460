import Fluxion.Proofs.Enclosure

/-! What stands in front of a place. A factor that is still a run of characters is the end
of the text in front, and it decides whether a parenthesis opens a group or a call. -/
namespace Fluxion.Formula

/-- A run that has been read ends the text that has been read. -/
def Factor.EndOf (u : Fragment) : Factor → Prop
  | .number digits => digits ≠ [] ∧ (∀ c ∈ digits, c.isDigit = true) ∧ digits.map .char <:+ u
  | .name letters => letters ≠ [] ∧ (∀ c ∈ letters, c.isAlpha = true) ∧ letters.map .char <:+ u
  | .value _ => True

namespace Scan

variable {style : Style} {ps : List Pending} {f : Factor} {s s' : Scan} {t : Token}
  {u : Fragment}

theorem map_char_suffix {cs : List Char} (h : cs.map .char <:+ u) (c : Char) :
    (cs ++ [c]).map .char <:+ u ++ [.char c] := by
  obtain ⟨v,rfl⟩ := h
  exact ⟨v,by simp⟩

theorem endOf_start (h : start ps t = some s) : ∀ f ∈ s.factor, f.EndOf (u ++ [t]) := by
  intro f hf
  cases t with
  | ref i a =>
    cases h
    cases hf
    trivial
  | char c =>
    simp only [start] at h
    split at h
    · rename_i ha
      cases h
      cases hf
      exact ⟨by simp,by simpa using ha,u,by simp⟩
    · split at h
      · rename_i hd
        cases h
        cases hf
        exact ⟨by simp,by simpa using hd,u,by simp⟩
      · split at h
        · cases h
          cases hf
        · split at h
          · cases h
            cases hf
          · cases h

theorem endOf_next (h : next style ps f t = some s) (hf : f.EndOf u) :
    ∀ g ∈ s.factor, g.EndOf (u ++ [t]) := by
  intro g hg
  have hj : ∀ {x : Option Scan}, (x.bind fun m => start m.pending t) = some s →
      g.EndOf (u ++ [t]) := by
    intro x hx
    obtain ⟨m,-,hm⟩ := Option.bind_eq_some_iff.mp hx
    exact endOf_start hm g hg
  cases t with
  | ref i a => cases f <;> exact hj h
  | char c =>
    simp only [next] at h
    split at h
    · rename_i hd
      cases f with
      | number digits =>
        cases h
        cases hg
        exact ⟨by simp,by simpa [or_imp,forall_and,hd] using hf.2.1,map_char_suffix hf.2.2 c⟩
      | name letters => cases h
      | value e => cases h
    · split at h
      · rename_i ha
        cases f with
        | name letters =>
          cases h
          cases hg
          exact ⟨by simp,by simpa [or_imp,forall_and,ha] using hf.2.1,map_char_suffix hf.2.2 c⟩
        | number digits => exact hj h
        | value e => exact hj h
      · split at h
        · obtain ⟨log,qs,rfl⟩ := openGroup_eq_some h
          cases hg
        · split at h
          · obtain ⟨log,rest,g',-,-,rfl⟩ := closeGroup_eq_some h
            cases hg
            trivial
          · obtain ⟨op,-,ho⟩ := Option.bind_eq_some_iff.mp h
            rw [(operate_eq_some ho).1] at hg
            cases hg

theorem endOf_step (h : s.step style t = some s') (hs : ∀ f ∈ s.factor, f.EndOf u) :
    ∀ f ∈ s'.factor, f.EndOf (u ++ [t]) := by
  obtain ⟨ps,x⟩ := s
  cases x with
  | none => exact endOf_start h
  | some f => exact endOf_next h (hs f rfl)

theorem endOf_run {v : Fragment} (h : follow (Scan.step style) s v = some s')
    (hs : ∀ f ∈ s.factor, f.EndOf u) : ∀ f ∈ s'.factor, f.EndOf (u ++ v) := by
  induction v generalizing s u with
  | nil =>
    cases h
    simpa using hs
  | cons t v ih =>
    obtain ⟨m,hm,hr⟩ := Option.bind_eq_some_iff.mp h
    simpa using ih hr (endOf_step hm hs)

theorem endOf_init (h : follow (Scan.step style) init u = some s) : ∀ f ∈ s.factor, f.EndOf u :=
  endOf_run (u := []) h (by simp [init])

/-- A run goes on only behind a token of its own kind. -/
theorem exists_prolongs (h : f.EndOf u) (ht : f.takes t = true) :
    ∃ v c, u = v ++ [c] ∧ c.prolongs t = true ∧ c.isOperand = true := by
  have key : ∀ {p : Char → Bool} {cs : List Char}, cs ≠ [] → (∀ c ∈ cs, p c = true) →
      cs.map Token.char <:+ u → ∃ v c, u = v ++ [.char c] ∧ p c = true := by
    rintro p cs hn hp ⟨w,rfl⟩
    obtain ⟨ds,c,rfl⟩ := List.eq_nil_or_concat' cs |>.resolve_left hn
    exact ⟨w ++ ds.map .char,c,by simp,hp c (by simp)⟩
  cases f with
  | number digits =>
    obtain ⟨v,c,hv,hc⟩ := key h.1 h.2.1 h.2.2
    have ht : t.isDigit = true := ht
    exact ⟨v,.char c,hv,by simp [Token.prolongs,Token.isDigit_char,hc,ht],
      by simp [Token.isOperand_char,hc]⟩
  | name letters =>
    obtain ⟨v,c,hv,hc⟩ := key h.1 h.2.1 h.2.2
    have ht : t.isLetter = true := ht
    exact ⟨v,.char c,hv,by simp [Token.prolongs,Token.isLetter_char,hc,ht],
      by simp [Token.isOperand_char,hc]⟩
  | value e => cases ht

end Scan

namespace Factor

theorem beforeCall?_append {front : List Char} (h : front ≠ []) :
    (name (front ++ ['l', 'n'])).beforeCall? = some (some (name front)) := by
  obtain ⟨cs,c,rfl⟩ := List.eq_nil_or_concat' front |>.resolve_left h
  simp [beforeCall?]

theorem beforeCall?_ne_none {f : Factor} (h : f.beforeCall? ≠ none) :
    ∃ front, f = name (front ++ ['l', 'n']) := by
  cases f with
  | name letters =>
    simp only [beforeCall?] at h
    split at h
    · rename_i hr
      exact ⟨[],by rw [← List.reverse_reverse letters,hr]; rfl⟩
    · rename_i front _ hr
      exact ⟨front.reverse,by rw [← List.reverse_reverse letters,hr]; simp⟩
    · exact absurd rfl h
  | number digits => exact absurd rfl h
  | value e => exact absurd rfl h

end Factor

namespace Scan

variable {style : Style} {ps : List Pending} {f : Factor} {s s' : Scan} {u : Fragment}

theorem step_ref (ps : List Pending) (f : Factor) (i : Nat) (content : Fragment) :
    step style ⟨ps, some f⟩ (.ref i content) =
      (juxtapose style ps f).map fun m => ⟨m.pending, some (.value content.assembled?)⟩ := by
  rw [step_some,next]
  cases juxtapose style ps f <;> rfl

theorem step_group (h : s.step style (.char '(') = some s')
    (hf : ∀ f ∈ s.factor, f.beforeCall? = none) :
    ∃ qs, s' = ⟨.group false :: qs, none⟩ ∧ ∀ (i : Nat) (content : Fragment),
      s.step style (.ref i content) = some ⟨qs, some (.value content.assembled?)⟩ := by
  obtain ⟨ps,x⟩ := s
  cases x with
  | none =>
    cases h
    exact ⟨ps,rfl,fun i content => rfl⟩
  | some f =>
    have ho : openGroup style ps f = some s' := h
    simp only [openGroup,hf f rfl] at ho
    obtain ⟨m,hm,rfl⟩ := Option.map_eq_some_iff.mp ho
    refine ⟨m.pending,rfl,fun i content => ?_⟩
    rw [step_ref,hm]
    rfl

/-- A reference in the place of a call stands on the same stack. -/
theorem run_call (h : follow (Scan.step style) s [.char 'l', .char 'n', .char '('] = some s')
    (hf : ∀ f ∈ s.factor, f.EndOf u) :
    ∃ qs, s' = ⟨.group true :: qs, none⟩ ∧ ∀ (i : Nat) (content : Fragment),
      s.step style (.ref i content) = some ⟨qs, some (.value content.assembled?)⟩ := by
  obtain ⟨ps,x⟩ := s
  cases x with
  | none =>
    cases h
    exact ⟨ps,rfl,fun i content => rfl⟩
  | some f =>
    have hj : ∀ {m : Scan}, juxtapose style ps f = some m →
        follow (Scan.step style) ⟨m.pending, some (.name ['l'])⟩ [.char 'n', .char '('] = some s' →
        ∃ qs, s' = ⟨.group true :: qs, none⟩ ∧ ∀ (i : Nat) (content : Fragment),
          step style ⟨ps, some f⟩ (.ref i content) = some ⟨qs, some (.value content.assembled?)⟩ := by
      intro m hm hr
      cases hr
      refine ⟨m.pending,rfl,fun i content => ?_⟩
      rw [step_ref,hm]
      rfl
    obtain ⟨m,hm,hr⟩ := Option.bind_eq_some_iff.mp h
    cases f with
    | number digits =>
      obtain ⟨n,hn,hs⟩ := Option.bind_eq_some_iff.mp hm
      cases hs
      exact hj hn hr
    | value e =>
      obtain ⟨n,hn,hs⟩ := Option.bind_eq_some_iff.mp hm
      cases hs
      exact hj hn hr
    | name letters =>
      cases hm
      obtain ⟨hn,-⟩ := hf _ rfl
      have ho : openGroup style ps (.name (letters ++ ['l'] ++ ['n'])) = some s' := by
        simpa [follow_cons,step,next] using hr
      rw [List.append_assoc] at ho
      simp only [openGroup,List.cons_append,List.nil_append,Factor.beforeCall?_append hn] at ho
      obtain ⟨m,hm,rfl⟩ := Option.map_eq_some_iff.mp ho
      refine ⟨m.pending,rfl,fun i content => ?_⟩
      rw [step_ref,hm]
      rfl

end Scan
end Fluxion.Formula
