import Fluxion.Proofs.Answers

/-! Parentheses in pairs. The scan for a failure of balance finds none exactly if no part at
the start of a text closes more groups than are open, and the whole closes as many as it opens.
What can be read is such a text. The balance of an input is looked at first, and nothing that
could be read without its white space is turned away there. -/
namespace Fluxion

namespace Text

/-- With so many groups open in front of it, a text closes none that is not open, and in the
end it has closed all of them. -/
structure Paired (depth : Nat) (s : List Char) : Prop where
  enough : ∀ part, part <+: s → part.count ')' ≤ depth + part.count '('
  closed : s.count ')' = depth + s.count '('

section Paired

variable {depth depth' : Nat} {s : List Char} {c : Char}

theorem paired_nil : Paired depth [] ↔ depth = 0 := by
  constructor
  · intro h
    simpa using h.closed.symm
  · rintro rfl
    refine ⟨fun part hp => ?_,rfl⟩
    rw [List.prefix_nil.mp hp]
    rfl

theorem paired_cons (hc : depth + [c].count '(' = depth' + [c].count ')') :
    Paired depth (c :: s) ↔ Paired depth' s := by
  have count : ∀ (d : Char) (part : List Char), (c :: part).count d = [c].count d + part.count d :=
    fun d part => by rw [← List.singleton_append,List.count_append]
  have opened := count '('
  have closed := count ')'
  constructor
  · intro h
    refine ⟨fun part hp => ?_,?_⟩
    · have hle := h.enough (c :: part) (List.cons_prefix_cons.mpr ⟨rfl,hp⟩)
      rw [opened,closed] at hle
      omega
    · have heq := h.closed
      rw [opened,closed] at heq
      omega
  · intro h
    refine ⟨fun part hp => ?_,?_⟩
    · cases part with
      | nil => exact Nat.zero_le _
      | cons d part =>
        obtain ⟨rfl,hs⟩ := List.cons_prefix_cons.mp hp
        have hle := h.enough part hs
        rw [opened,closed]
        omega
    · have heq := h.closed
      rw [opened,closed]
      omega

theorem not_paired_close (s : List Char) : ¬Paired 0 (')' :: s) := fun h =>
  absurd (h.enough [')'] (List.cons_prefix_cons.mpr ⟨rfl,List.nil_prefix⟩)) (by decide)

theorem unbalancedFrom?_eq_none_iff (depth offset : Nat) (s : List Char) :
    unbalancedFrom? depth offset s = none ↔ Paired depth s := by
  induction s generalizing depth offset with
  | nil =>
    rw [paired_nil]
    cases depth <;> simp [unbalancedFrom?]
  | cons c s ih =>
    by_cases ho : c = '('
    · subst ho
      rw [unbalancedFrom?_open,ih]
      exact (paired_cons rfl).symm
    · by_cases hc : c = ')'
      · subst hc
        cases depth with
        | zero =>
          rw [iff_false_right (not_paired_close s)]
          simp [unbalancedFrom?]
        | succ depth =>
          rw [unbalancedFrom?_close,ih]
          exact (paired_cons rfl).symm
      · rw [unbalancedFrom?_other depth offset s ho hc,ih]
        exact (paired_cons (by simp [ho,hc])).symm

end Paired

theorem unbalanced?_eq_none_iff {s : List Char} : unbalanced? s = none ↔ Paired 0 s :=
  unbalancedFrom?_eq_none_iff 0 0 s

end Text

section Balance

variable {input s : String}

/-- A text is left as it is if its parentheses are in pairs and there is no white space. -/
theorem tidy_eq_ok_self_iff :
    tidy s = .ok s ↔ Text.Paired 0 s.toList ∧ ∀ c ∈ s.toList, Text.isBlank c = false := by
  constructor
  · intro h
    simp only [tidy] at h
    cases hu : Text.unbalanced? (Text.strip s.toList) with
    | some index =>
      simp only [hu] at h
      cases h
    | none =>
      simp only [hu] at h
      have hs : Text.strip s.toList = s.toList := by
        rw [← String.toList_ofList (l := Text.strip s.toList),Except.ok.inj h]
      rw [hs] at hu
      refine ⟨Text.unbalanced?_eq_none_iff.mp hu,fun c hc => ?_⟩
      simpa using List.filter_eq_self.mp hs c hc
  · rintro ⟨hp,hb⟩
    simp only [tidy,Text.strip_eq_self hb,Text.unbalanced?_eq_none_iff.mpr hp,String.ofList_toList]

theorem tidy_congr (h : Text.strip input.toList = Text.strip s.toList) : tidy input = tidy s := by
  simp only [tidy,h]

theorem readFormula_congr (h : Text.strip input.toList = Text.strip s.toList) :
    readFormula input = readFormula s := by
  rw [readFormula,readFormula,tidy_congr h]

end Balance

namespace Exercise

theorem ofEquation_ne_unbalanced {equation : String} {e : Expr} (h : readFormula equation = .ok e)
    (index : Nat) : ofEquation equation ≠ .error (.unbalancedParentheses index) := by
  cases hd : e.derivative with
  | ok d =>
    rw [ofEquation_eq_ok h hd]
    nofun
  | error error =>
    unfold ofEquation
    split
    · rename_i hr
      cases h.symm.trans hr
    · rename_i hr
      cases h.symm.trans hr
      split <;> simp_all

end Exercise

/-- What can be read has its parentheses in pairs and has no white space, so it is tidy. However
it is spaced, as an equation and as an answer it is not refused for its balance. -/
theorem paired_of_parse {s : String} {t : Expr} (h : Formula.parse s = .ok t) :
    tidy s = .ok s ∧ Text.Paired 0 s.toList ∧ (∀ c ∈ s.toList, Text.isBlank c = false) ∧
      ∀ input : String, String.ofList (Text.strip input.toList) = s →
        tidy input = .ok s ∧ readFormula input = .ok t ∧
        (∀ index, Exercise.ofEquation input ≠ .error (.unbalancedParentheses index)) ∧
        ∀ (exercise : Exercise) (settings : Settings) (index : Nat),
          exercise.grade input settings ≠ .invalid (.unbalancedParentheses index) := by
  have ht : tidy s = .ok s := tidy_of_parse h
  obtain ⟨hp,hb⟩ := tidy_eq_ok_self_iff.mp ht
  refine ⟨ht,hp,hb,fun input hi => ?_⟩
  have hs : Text.strip input.toList = Text.strip s.toList := by
    rw [Text.strip_eq_self hb,← hi,String.toList_ofList]
  have hr : readFormula input = .ok t := by
    rw [readFormula_congr hs,readFormula_of_parse h]
  exact ⟨(tidy_congr hs).trans ht,hr,Exercise.ofEquation_ne_unbalanced hr,
    fun exercise settings index => Exercise.grade_ne_invalid hr _⟩

theorem paired_of_parse_spaced :
    Formula.parse "ln(2(x))" = .ok (.ln (.binary .times (.const 2) (.var "x"))) ∧
      Text.Paired 0 "ln(2(x))".toList ∧
      Exercise.ofEquation " ln( 2 (x)\t)" ≠ .error (.unbalancedParentheses 8) := by
  have h : Formula.parse "ln(2(x))" = .ok (.ln (.binary .times (.const 2) (.var "x"))) := by cbv
  obtain ⟨-,hp,-,hi⟩ := paired_of_parse h
  exact ⟨h,hp,(hi " ln( 2 (x)\t)" (by cbv)).2.2.1 8⟩

end Fluxion
