import Fluxion.Proofs.Lines

/-! Line by line. What is printed for a text is put together from what each of its lines gives
alone, and the run ends well; it fails on bytes that are no text only. A line is answered with a
complaint, or with the expression and its derivative and, behind a bar, with a verdict. -/
namespace Fluxion

namespace Decimal

theorem toList_toString_nat (n : Nat) : (toString n).toList = ofNat n :=
  String.toList_ofList

theorem toList_toString_int (n : Int) : (toString n).toList = ofInt n := by
  cases n with
  | ofNat n =>
    rw [Int.ofNat_eq_natCast,ofInt_of_nonneg (Int.natCast_nonneg n)]
    exact toList_toString_nat n
  | negSucc n =>
    rw [ofInt_of_neg (Int.negSucc_lt_zero n)]
    have h : toString (Int.negSucc n) = "-" ++ toString (n + 1) := rfl
    rw [h,String.toList_append,toList_toString_nat]
    rfl

end Decimal

def BinaryOp.signs : List (BinaryOp × Char) :=
  [(.plus, '+'), (.minus, '-'), (.times, '*'), (.divide, '/'), (.power, '^')]

/-- An expression and its text. Every operand stands in parentheses of its own. -/
inductive Expr.Printed : Expr → List Char → Prop
  | const (v : Int64) : Printed (.const v) (toString v.toInt).toList
  | var (name : String) : Printed (.var name) name.toList
  | neg {a : Expr} {s : List Char} (h : Printed a s) :
    Printed (.neg a) ("-(".toList ++ s ++ ")".toList)
  | binary {op : BinaryOp} {sign : Char} {a b : Expr} {s t : List Char}
    (hop : (op, sign) ∈ BinaryOp.signs) (ha : Printed a s) (hb : Printed b t) :
    Printed (.binary op a b) ("(".toList ++ s ++ ")".toList ++ [sign] ++ "(".toList ++ t ++ ")".toList)
  | ln {a : Expr} {s : List Char} (h : Printed a s) :
    Printed (.ln a) ("ln(".toList ++ s ++ ")".toList)

theorem Expr.printed_chars (e : Expr) : e.Printed e.chars := by
  induction e with
  | const v =>
    rw [chars,← Decimal.toList_toString_int]
    exact .const v
  | var name => exact .var name
  | neg a ih => simpa [chars] using Printed.neg ih
  | binary op a b iha ihb =>
    have hop : (op, op.symbol) ∈ BinaryOp.signs := by cases op <;> decide
    simpa [chars] using Printed.binary hop iha ihb
  | ln a ih => simpa [chars] using Printed.ln ih

/-- The verdict on an answer as a line. The tolerance is a ten-thousandth, and the samples stay
below a thousand. -/
inductive Exercise.Reports (exercise : Exercise) (answer : List Char) : List Char → Prop
  | correct {named : List Char} (ht : Text.Trimmed answer named)
    (hv : exercise.grade (String.ofList answer) ⟨1e-4, 1000⟩ = .correct) :
    Reports exercise answer ("  \"".toList ++ named ++ "\" is correct".toList)
  | incorrect {named : List Char} {sample : Nat} {expected actual : Float}
    (ht : Text.Trimmed answer named)
    (hv : exercise.grade (String.ofList answer) ⟨1e-4, 1000⟩ =
      .incorrect ⟨sample, expected, actual⟩) :
    Reports exercise answer ("  \"".toList ++ named ++ "\" is incorrect: Expected ".toList ++
      (Decimal.floatText expected).toList ++ " but got ".toList ++
      (Decimal.floatText actual).toList ++ " at x = ".toList ++ (toString sample).toList)
  | invalid {named : List Char} {e : InputError} (ht : Text.Trimmed answer named)
    (hv : exercise.grade (String.ofList answer) ⟨1e-4, 1000⟩ = .invalid e) :
    Reports exercise answer ("  \"".toList ++ named ++ "\" is invalid: ".toList ++
      e.message.toList)

theorem Exercise.reports_ofVerdict (exercise : Exercise) (answer : List Char) :
    exercise.Reports answer
      (Report.ofVerdict answer (exercise.grade (String.ofList answer) {})) := by
  have ht := Text.trimmed_trim answer
  cases hv : exercise.grade (String.ofList answer) {} with
  | correct => simpa [Report.ofVerdict,Report.quoted] using Reports.correct ht hv
  | incorrect m =>
    simpa [Report.ofVerdict,Report.quoted,Mismatch.message,Decimal.natText,Decimal.ofNat]
      using Reports.incorrect ht hv
  | invalid e => simpa [Report.ofVerdict,Report.quoted] using Reports.invalid ht hv

namespace Transcript

/-- How a line is answered. The part in front of the first bar is refused, and that is complained
about on one line; or one line shows the expression and its derivative, and if there is a bar, one
more has the verdict on all that is behind it. -/
inductive Answers (line : List Char) : Transcript → Prop
  | refused {equation named complaint : List Char} {answer? : Option (List Char)} {e : InputError}
    (hs : Text.Split '|' line equation answer?)
    (he : Exercise.ofEquation (String.ofList equation) = .error e)
    (ht : Text.Trimmed equation named)
    (hc : complaint = "Unable to use \"".toList ++ named ++ "\": ".toList ++ e.message.toList)
    (hu : Text.Unbroken complaint) :
    Answers line ⟨"", String.ofList (complaint ++ ['\n']), 0⟩
  | unanswered {equation expression derivative shown : List Char} {exercise : Exercise}
    (hs : Text.Split '|' line equation none)
    (he : Exercise.ofEquation (String.ofList equation) = .ok exercise)
    (hx : exercise.expression.Printed expression) (hd : exercise.derivative.Printed derivative)
    (hc : shown = "d/dx ".toList ++ expression ++ " = ".toList ++ derivative)
    (hu : Text.Unbroken shown) :
    Answers line ⟨String.ofList (shown ++ ['\n']), "", 0⟩
  | answered {equation answer expression derivative shown verdict : List Char}
    {exercise : Exercise} (hs : Text.Split '|' line equation (some answer))
    (he : Exercise.ofEquation (String.ofList equation) = .ok exercise)
    (hx : exercise.expression.Printed expression) (hd : exercise.derivative.Printed derivative)
    (hc : shown = "d/dx ".toList ++ expression ++ " = ".toList ++ derivative)
    (hu : Text.Unbroken shown) (hr : exercise.Reports answer verdict)
    (hw : Text.Unbroken verdict) :
    Answers line ⟨String.ofList (shown ++ '\n' :: verdict ++ ['\n']), "", 0⟩

variable {line : List Char}

theorem answers_ofLine (hu : Text.Unbroken line) : Answers line (ofLine line) := by
  have hs := Text.split_splitFirst '|' line
  obtain ⟨hq,ha⟩ := hs.unbroken hu
  rw [ofLine,Report.ofLine]
  generalize Text.splitFirst '|' line = parts at hs hq ha
  obtain ⟨equation,answer?⟩ := parts
  simp only at hs hq ha ⊢
  cases he : Exercise.ofEquation (String.ofList equation) with
  | error e =>
    have ht := Text.trimmed_trim equation
    have hc : Text.Unbroken ("Unable to use \"".toList ++ Text.trim equation ++ "\": ".toList ++
        e.message.toList) := by
      simpa using ⟨hq.subset (Text.trim_subset equation),Exercise.unbroken_message_of_ofEquation he⟩
    simpa [Text.unlines,Report.quoted] using Answers.refused hs he ht rfl hc
  | ok exercise =>
    have hc : Text.Unbroken ("d/dx ".toList ++ exercise.expression.chars ++ " = ".toList ++
        exercise.derivative.chars) := by
      simpa using ⟨Exercise.unbroken_expression he,Exercise.unbroken_derivative he⟩
    have hx := exercise.expression.printed_chars
    have hd := exercise.derivative.printed_chars
    cases answer? with
    | none => simpa [Text.unlines] using Answers.unanswered hs he hx hd rfl hc
    | some answer =>
      have hr := exercise.reports_ofVerdict answer
      have hw := Report.unbroken_ofVerdict (ha answer rfl) exercise {}
      simpa [Text.unlines] using Answers.answered hs he hx hd rfl hc hr hw

@[simp] theorem nothing_andThen (t : Transcript) : nothing.andThen t = t := by
  simp [andThen,nothing]

@[simp] theorem andThen_nothing (t : Transcript) : t.andThen nothing = t := by
  by_cases ht : t.code = 0
  · simp [andThen,nothing,← ht]
  · rw [andThen,if_neg ht]

theorem andThen_assoc (t u v : Transcript) :
    (t.andThen u).andThen v = t.andThen (u.andThen v) := by
  by_cases ht : t.code = 0
  · by_cases hu : u.code = 0
    · simp [andThen,ht,hu,String.append_assoc]
    · simp [andThen,ht,hu]
  · simp [andThen,ht]

theorem foldr_andThen_append (ts us : List Transcript) :
    (ts ++ us).foldr andThen nothing =
      (ts.foldr andThen nothing).andThen (us.foldr andThen nothing) := by
  induction ts with
  | nil => simp
  | cons t ts ih => rw [List.cons_append,List.foldr_cons,ih,List.foldr_cons,andThen_assoc]

/-- What has been read up to the end of a line can be answered before the rest is read. -/
theorem ofBytes_append {front : List UInt8} (h : front = [] ∨ front.getLast? = some 10)
    (rest : List UInt8) : ofBytes (front ++ rest) = (ofBytes front).andThen (ofBytes rest) := by
  rw [ofBytes,Text.rawLines_append h,List.map_append,foldr_andThen_append]
  rfl

theorem ofText_of_lines {input : String} {ls : List (List Char)}
    (h : Text.Lines input.toList ls) : ofText input = (ls.map ofLine).foldr andThen nothing := by
  have hr : (Text.rawLines (Text.encode input.toList)).map ofRaw =
      ((Text.rawLines (Text.encode input.toList)).map Text.line?).map (·.elim unreadable ofLine) := by
    rw [List.map_map]
    rfl
  rw [ofText,ofBytes,hr,h.map_line?,List.map_map]
  rfl

theorem foldr_ofLine (ls : List (List Char)) : (ls.map ofLine).foldr andThen nothing =
    ⟨String.join (ls.map fun line => (ofLine line).output),
      String.join (ls.map fun line => (ofLine line).errors), 0⟩ := by
  induction ls with
  | nil => rfl
  | cons line ls ih =>
    rw [List.map_cons,List.foldr_cons,ih,andThen,if_pos (show (ofLine line).code = 0 from rfl)]
    simp

theorem code_foldr_eq_zero {ts : List Transcript} (h : (ts.foldr andThen nothing).code = 0) :
    ∀ t ∈ ts, t.code = 0 := by
  induction ts with
  | nil => simp
  | cons t ts ih =>
    rw [List.foldr_cons,andThen] at h
    split at h
    · rename_i ht
      exact List.forall_mem_cons.mpr ⟨ht,ih h⟩
    · exact absurd h ‹_›

/-- The exit code tells whether the input is a text. -/
theorem code_ofBytes_eq_zero_iff {input : List UInt8} :
    (ofBytes input).code = 0 ↔ ∃ s : String, input = Text.encode s.toList := by
  constructor
  · intro h
    have hr : ∀ raw ∈ Text.rawLines input, ∃ s, Text.encode s = raw := by
      intro raw hm
      have hc : (ofRaw raw).code = 0 := code_foldr_eq_zero h _ (List.mem_map_of_mem hm)
      rw [ofRaw,Text.line?] at hc
      cases hd : Text.decode? raw with
      | none =>
        rw [hd] at hc
        cases hc
      | some s => exact ⟨s,Text.encode_of_decode? hd⟩
    obtain ⟨s,hs⟩ := Text.exists_encode_eq_flatten hr
    exact ⟨String.ofList s,by rw [String.toList_ofList,hs,Text.flatten_rawLines]⟩
  · rintro ⟨s,rfl⟩
    obtain ⟨ls,hl⟩ := Text.exists_lines s.toList
    have ht : ofBytes (Text.encode s.toList) = _ := ofText_of_lines hl
    rw [ht,foldr_ofLine]

/-- The transcript of a text is made up of those of its lines. Each line has its answer alone,
and a text of this line only is answered in the same way. The exit code is always zero. -/
theorem ofText_line_by_line (input : String) :
    ∃ ls, Text.Lines input.toList ls ∧ (ofText input).code = 0 ∧
      (ofText input).output = String.join (ls.map fun line => (ofLine line).output) ∧
      (ofText input).errors = String.join (ls.map fun line => (ofLine line).errors) ∧
      ∀ line ∈ ls, Answers line (ofLine line) ∧
        ∀ s : String, Text.Lines s.toList [line] → ofText s = ofLine line := by
  obtain ⟨ls,hl⟩ := Text.exists_lines input.toList
  have ht := ofText_of_lines hl
  rw [foldr_ofLine] at ht
  refine ⟨ls,hl,by rw [ht],by rw [ht],by rw [ht],fun line hm => ⟨?_,fun s hs => ?_⟩⟩
  · exact answers_ofLine (hl.unbroken line hm)
  · rw [ofText_of_lines hs,List.map_singleton,List.foldr_cons,List.foldr_nil,andThen_nothing]

/-- One line of each kind, the first one with a carriage return. -/
theorem ofText_line_by_line_kinds :
    ∃ ls, Text.Lines "x2\r\nx|1 \nx|2\nx|(".toList ls ∧
      (ofText "x2\r\nx|1 \nx|2\nx|(").code = 0 ∧
      (ofText "x2\r\nx|1 \nx|2\nx|(").output =
        "d/dx x = 1\n  \"1\" is correct\n" ++
        "d/dx x = 1\n  \"2\" is incorrect: Expected 1 but got 2 at x = 1\n" ++
        "d/dx x = 1\n  \"(\" is invalid: Unbalanced parenthesis at index 1\n" ∧
      (ofText "x2\r\nx|1 \nx|2\nx|(").errors =
        "Unable to use \"x2\": \"x2\" is not a valid expression\n" := by
  obtain ⟨ls,hl,hc,ho,he,-⟩ := ofText_line_by_line "x2\r\nx|1 \nx|2\nx|("
  have hls : ls = [['x', '2'], ['x', '|', '1', ' '], ['x', '|', '2'], ['x', '|', '(']] := by
    refine hl.unique ?_
    rw [show "x2\r\nx|1 \nx|2\nx|(".toList = ['x', '2'] ++ '\r' :: '\n' ::
      (['x', '|', '1', ' '] ++ '\n' :: (['x', '|', '2'] ++ '\n' :: ['x', '|', '('])) by decide]
    exact .returnFeed (by decide) (.feed (by decide) (by decide)
      (.feed (by decide) (by decide) (.last (by decide) (by decide))))
  have hr : Exercise.ofEquation (String.ofList ['x', '2']) =
      .error (.parse (.invalidExpression "x2")) := by cbv
  have refused : Report.ofLine ['x', '2'] =
      { complaints := ["Unable to use \"x2\": \"x2\" is not a valid expression".toList] } := by
    simp only [Report.ofLine,show Text.splitFirst '|' ['x', '2'] = (['x', '2'], none) from rfl,hr]
    rfl
  obtain ⟨exercise,hx,hs,hd⟩ : ∃ exercise, Exercise.ofEquation (String.ofList ['x']) = .ok exercise ∧
      exercise.expression = .var "x" ∧ exercise.derivative = .const 1 :=
    ⟨_,Exercise.ofEquation_eq_ok (readFormula_of_parse (by cbv)) rfl,rfl,rfl⟩
  have answered (answer : List Char) : Report.ofLine ('x' :: '|' :: answer) =
      { printed := ["d/dx x = 1".toList,
          Report.ofVerdict answer (exercise.grade (String.ofList answer) {})] } := by
    simp only [Report.ofLine,
      show Text.splitFirst '|' ('x' :: '|' :: answer) = (['x'], some answer) from rfl,hx,hs,hd]
    rfl
  have h1 : exercise.grade (String.ofList ['1', ' ']) {} = .correct := by
    have hp : readFormula (String.ofList ['1', ' ']) = .ok (.const 1) := by cbv
    rw [Exercise.grade_eq_correct_iff hp,hd]
    exact Option.isNone_iff_eq_none.mp (by decide +kernel)
  have h2 : exercise.grade (String.ofList ['2']) {} = .incorrect ⟨1, 1, 2⟩ := by
    have hp : readFormula (String.ofList ['2']) = .ok (.const 2) := by cbv
    rw [Exercise.grade_eq_incorrect_iff hp,hd]
    rfl
  have h3 : exercise.grade (String.ofList ['(']) {} = .invalid (.unbalancedParentheses 1) := by
    have hp : readFormula (String.ofList ['(']) = .error (.unbalancedParentheses 1) := by cbv
    simp only [Exercise.grade,hp]
  refine ⟨ls,hl,hc,?_,?_⟩
  · rw [ho,hls]
    simp only [List.map_cons,List.map_nil,ofLine,refused,answered,h1,h2,h3]
    decide +kernel
  · rw [he,hls]
    simp only [List.map_cons,List.map_nil,ofLine,refused,answered]
    decide +kernel

end Transcript
end Fluxion
