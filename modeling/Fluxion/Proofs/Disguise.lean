import Fluxion.Proofs.Relettering

/-! Exercises in disguise. An equation and an answer whose letters are renamed together are graded
as they were, as long as the renaming keeps the calls of the logarithm: neither derivatives nor
values look at names, and white space and parentheses are no letters. -/
namespace Fluxion

open Formula

namespace Renaming

variable (r : Renaming)

section Expressions

theorem derivative_expr (e : Expr) : (r.expr e).derivative = e.derivative.map r.expr := by
  induction e with
  | const v => rfl
  | var name => rfl
  | neg a ih =>
    simp only [expr,Expr.derivative,ih]
    cases a.derivative <;> rfl
  | ln a ih =>
    simp only [expr,Expr.derivative,ih]
    cases a.derivative with
    | error e => rfl
    | ok da => exact r.combine_expr .divide da a
  | binary op a b iha ihb =>
    cases op with
    | power =>
      simp only [expr,Expr.derivative,iha]
      cases a.derivative <;> rfl
    | divide =>
      simp only [expr,Expr.derivative,iha,ihb]
      cases a.derivative with
      | error e => rfl
      | ok da =>
        cases b.derivative with
        | error e => rfl
        | ok db => exact r.combine_expr .divide (da * b - a * db) (b ^ Expr.const 2)
    | plus | minus | times =>
      simp only [expr,Expr.derivative,iha,ihb]
      cases a.derivative with
      | error e => rfl
      | ok da => cases b.derivative <;> rfl

theorem valueIn_expr {α : Type} (A : Arithmetic α) (x : α) (e : Expr) :
    (r.expr e).valueIn A x = e.valueIn A x := by
  induction e with
  | const v => rfl
  | var name => rfl
  | neg a ih => simp only [expr,Expr.valueIn,ih]
  | binary op a b iha ihb => simp only [expr,Expr.valueIn,iha,ihb]
  | ln a ih => simp only [expr,Expr.valueIn,ih]

theorem value_expr (e : Expr) (x : Float) : (r.expr e).value x = e.value x :=
  r.valueIn_expr .binary64 x e

theorem firstMismatch?_expr (reference candidate : Expr) (settings : Settings) :
    firstMismatch? (r.expr reference) (r.expr candidate) settings =
      firstMismatch? reference candidate settings := by
  have hm : mismatchAt? (r.expr reference) (r.expr candidate) settings.epsilon =
      mismatchAt? reference candidate settings.epsilon :=
    funext fun x => by simp only [mismatchAt?,value_expr]
  rw [firstMismatch?_eq,firstMismatch?_eq,hm]

end Expressions

section Inputs

theorem isBlank_char (c : Char) : Text.isBlank (r.char c) = Text.isBlank c := by
  cases h : c.isAlpha with
  | false => rw [r.other h]
  | true =>
    rw [not_isBlank_of_isAllowed (isAllowed_of_isAlpha h),
      not_isBlank_of_isAllowed (isAllowed_of_isAlpha (r.isAlpha h))]

theorem strip_chars (s : List Char) : Text.strip (r.chars s) = r.chars (Text.strip s) := by
  rw [Text.strip,chars,List.filter_map]
  exact congrArg (fun p => r.chars (s.filter p)) (funext fun c => by simp [isBlank_char])

theorem unbalancedFrom?_chars (depth offset : Nat) (s : List Char) :
    Text.unbalancedFrom? depth offset (r.chars s) = Text.unbalancedFrom? depth offset s := by
  induction s generalizing depth offset with
  | nil => rfl
  | cons c s ih =>
    have ho : r.char c = '(' ↔ c = '(' := r.char_eq_iff rfl
    have hc : r.char c = ')' ↔ c = ')' := r.char_eq_iff rfl
    simp only [chars_cons,Text.unbalancedFrom?,ho,hc,utf8Size_char,ih]

theorem tidy_text (input : String) : tidy (r.text input) = (tidy input).map r.text := by
  have hs : Text.strip (r.text input).toList = r.chars (Text.strip input.toList) := by
    rw [text,String.toList_ofList,strip_chars]
  simp only [tidy,hs,Text.unbalanced?,unbalancedFrom?_chars]
  split
  · rfl
  · simp [Except.map,text]

def inputError : InputError → InputError
  | .parse e => .parse (r.error e)
  | e => e

/-- Only what cannot be read is quoted in a verdict. -/
def verdict : Verdict → Verdict
  | .invalid e => .invalid (r.inputError e)
  | v => v

variable {r} {input : String}

theorem readFormula_text (h : r.KeepsCalls (Text.strip input.toList)) :
    readFormula (r.text input) = ((readFormula input).map r.expr).mapError r.inputError := by
  rw [readFormula,readFormula,tidy_text,tidy]
  cases Text.unbalanced? (Text.strip input.toList) with
  | some index => rfl
  | none =>
    have hk : r.KeepsCalls (String.ofList (Text.strip input.toList)).toList := by simpa using h
    simp only [Except.map,Except.bind,parse_renamed hk]
    cases parse (String.ofList (Text.strip input.toList)) <;> rfl

end Inputs

end Renaming

namespace Exercise

variable {r : Renaming} {equation : String}

theorem exists_ofEquation_iff :
    (∃ x, ofEquation equation = .ok x) ↔
      ∃ e d, readFormula equation = .ok e ∧ e.derivative = .ok d := by
  constructor
  · rintro ⟨x,hx⟩
    exact ⟨x.expression,x.derivative,readFormula_of_ofEquation hx,x.derivative_eq⟩
  · rintro ⟨e,d,he,hd⟩
    exact ⟨_,ofEquation_eq_ok he hd⟩

theorem readFormula_text_eq_ok (h : r.KeepsCalls (Text.strip equation.toList)) {d : Expr} :
    readFormula (r.text equation) = .ok d ↔ ∃ e, readFormula equation = .ok e ∧ d = r.expr e := by
  rw [Renaming.readFormula_text h]
  cases readFormula equation with
  | error e => simp [Except.map,Except.mapError]
  | ok e => simp [Except.map,Except.mapError,eq_comm]

/-- An exercise in disguise can be made of an equation if the exercise itself can. -/
theorem exists_ofEquation_text_iff (h : r.KeepsCalls (Text.strip equation.toList)) :
    (∃ y, ofEquation (r.text equation) = .ok y) ↔ ∃ x, ofEquation equation = .ok x := by
  rw [exists_ofEquation_iff,exists_ofEquation_iff]
  constructor
  · rintro ⟨_,d,hr,hd⟩
    obtain ⟨e,he,rfl⟩ := (readFormula_text_eq_ok h).mp hr
    rw [r.derivative_expr] at hd
    cases hde : e.derivative with
    | error error =>
      rw [hde] at hd
      cases hd
    | ok d => exact ⟨e,d,he,hde⟩
  · rintro ⟨e,d,he,hd⟩
    refine ⟨r.expr e,r.expr d,(readFormula_text_eq_ok h).mpr ⟨e,he,rfl⟩,?_⟩
    rw [r.derivative_expr,hd]
    rfl

theorem derivative_text {x y : Exercise} (h : r.KeepsCalls (Text.strip equation.toList))
    (hx : ofEquation equation = .ok x) (hy : ofEquation (r.text equation) = .ok y) :
    y.derivative = r.expr x.derivative := by
  obtain ⟨e,he,hye⟩ := (readFormula_text_eq_ok h).mp (readFormula_of_ofEquation hy)
  obtain rfl := Except.ok.inj ((readFormula_of_ofEquation hx).symm.trans he)
  have hd := y.derivative_eq
  rw [hye,r.derivative_expr,x.derivative_eq] at hd
  exact (Except.ok.inj hd).symm

theorem grade_text {x y : Exercise} {answer : String}
    (hd : y.derivative = r.expr x.derivative) (ha : r.KeepsCalls (Text.strip answer.toList))
    (settings : Settings) :
    y.grade (r.text answer) settings = r.verdict (x.grade answer settings) := by
  simp only [grade,Renaming.readFormula_text ha,hd]
  cases readFormula answer with
  | error e => rfl
  | ok candidate =>
    simp only [Except.map,Except.mapError,Renaming.firstMismatch?_expr]
    cases firstMismatch? x.derivative candidate settings <;> rfl

end Exercise

/-- Letters are treated uniformly. Let a renaming keep the places where a formula calls the
logarithm. Then the formula in other letters is the same expression with other names, or it has the
same error about other letters, and the same reductions are made, with the same tiers, places and
numbers. If it keeps those of an equation and of an answer without their white space, there is an
exercise for both equations or for none, and both answers come to the same verdict. -/
theorem Renaming.uniform_in_letters (r : Renaming) :
    (∀ formula : String, r.SameCalls formula.toList →
      (∀ e, parse formula = .ok e → parse (r.text formula) = .ok (r.expr e)) ∧
      (∀ error, parse formula = .error error → parse (r.text formula) = .error (r.error error)) ∧
      reductionsOf (r.text formula) = (reductionsOf formula).map r.reduction) ∧
    ∀ equation answer : String, r.SameCalls (Text.strip equation.toList) →
      r.SameCalls (Text.strip answer.toList) →
      ((∃ x, Exercise.ofEquation equation = .ok x) ↔
        ∃ y, Exercise.ofEquation (r.text equation) = .ok y) ∧
      ∀ x y, Exercise.ofEquation equation = .ok x → Exercise.ofEquation (r.text equation) = .ok y →
        ∀ settings, y.grade (r.text answer) settings = r.verdict (x.grade answer settings) := by
  refine ⟨fun formula h => ⟨fun e he => ?_,fun error he => ?_,reductionsOf_renamed h.keepsCalls⟩,
    fun equation answer he ha =>
      ⟨(Exercise.exists_ofEquation_text_iff he.keepsCalls).symm,fun x y hx hy settings => ?_⟩⟩
  · rw [parse_renamed h.keepsCalls,he]
    rfl
  · rw [parse_renamed h.keepsCalls,he]
    rfl
  · exact Exercise.grade_text (Exercise.derivative_text he.keepsCalls hx hy) ha.keepsCalls settings

/-- All letters but those of the logarithm become one. -/
def Renaming.toY : Renaming :=
  .ofLetters (fun c => if c = 'l' ∨ c = 'n' then c else 'y') fun c hc => by
    split
    · exact hc
    · rfl

theorem Renaming.uniform_in_letters_toY :
    toY.SameCalls "ab/ln(a)".toList ∧ toY.text "ab/ln(a)" = "yy/ln(y)" ∧
    parse "yy/ln(y)" = .ok (.binary .divide (.var "yy") (.ln (.var "y"))) ∧
    ∃ y, Exercise.ofEquation "y*y" = .ok y ∧ y.grade "2y" ⟨1e-4, 3⟩ = .correct := by
  obtain ⟨hformulas,hexercises⟩ := toY.uniform_in_letters
  have htext : toY.text "ab/ln(a)" = "yy/ln(y)" := by cbv
  refine ⟨by decide,htext,?_,?_⟩
  · have hp : parse "ab/ln(a)" = .ok (.binary .divide (.var "ab") (.ln (.var "a"))) := by cbv
    have hr := (hformulas "ab/ln(a)" (by decide)).1 _ hp
    rwa [htext] at hr
  · have hp : parse "a*a" = .ok (.binary .times (.var "a") (.var "a")) := by cbv
    have hq : parse "2a" = .ok (.binary .times (.const 2) (.var "a")) := by cbv
    obtain ⟨x,hx,hd⟩ : ∃ x, Exercise.ofEquation "a*a" = .ok x ∧
        x.derivative = .binary .plus (.binary .times (.const 1) (.var "a"))
          (.binary .times (.var "a") (.const 1)) :=
      ⟨_,Exercise.ofEquation_eq_ok (readFormula_of_parse hp) rfl,rfl⟩
    have hc : x.grade "2a" ⟨1e-4, 3⟩ = .correct := by
      rw [Exercise.grade_eq_correct_iff (readFormula_of_parse hq),hd]
      exact Option.isNone_iff_eq_none.mp (by decide +kernel)
    obtain ⟨hiff,hgrade⟩ := hexercises "a*a" "2a" (by decide +kernel) (by decide +kernel)
    have hy : toY.text "a*a" = "y*y" := by cbv
    have ha : toY.text "2a" = "2y" := by cbv
    rw [hy] at hiff hgrade
    rw [ha] at hgrade
    obtain ⟨y,hy⟩ := hiff.mp ⟨x,hx⟩
    refine ⟨y,hy,?_⟩
    rw [hgrade x y hx hy,hc]
    rfl

end Fluxion
