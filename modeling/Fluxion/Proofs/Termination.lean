import Fluxion.Proofs.Lookup
import Mathlib

/-! Reading ends. A collapse sets aside fewer parts than its text has tokens. Assembling goes
on to the parts of a text and to the entries that its references are to, and on its way the
table gets new entries with larger numbers; but what a text stands for, written out, gets
shorter, or it stays and there are fewer tokens, down to the characters. -/
namespace Fluxion.Formula

theorem size_collapse_add_length_le (text : Fragment) (table : Table) :
    (collapse text table).2.size + (collapse text table).1.length ≤ table.size + text.length := by
  fun_induction collapse text table with
  | case1 text table h => exact Nat.le_refl _
  | case2 text table tier site h ih =>
    have hl := Tier.length_replace_lt h (.ref table.size site.matched)
    rw [Table.size_push] at ih
    omega

theorem collapse_ne_nil {text : Fragment} (h : text ≠ []) (table : Table) :
    (collapse text table).1 ≠ [] := by
  fun_induction collapse text table with
  | case1 text table hf => exact h
  | case2 text table tier site hf ih => exact ih (by simp [Site.replace])

theorem size_collapse_lt {text : Fragment} (h : text ≠ []) (table : Table) :
    (collapse text table).2.size < table.size + text.length := by
  have hs := size_collapse_add_length_le text table
  have hp := List.length_pos_of_ne_nil (collapse_ne_nil h table)
  omega

/-- A text that is to be assembled, and the table as it is by then. -/
structure Task where
  text : Fragment
  table : Table

namespace Task

def collapsed (text : Fragment) (table : Table) : Task :=
  ⟨(collapse text table).1, (collapse text table).2⟩

/-- The tasks that a task comes to directly. A reference asks the table for what it is to. A
right operand comes after the left one, with the table that this has left behind, and only if
the left one is an expression. -/
inductive Calls : Task → Task → Prop
  | logarithm {text inner : Fragment} {table : Table} (hs : text.shape = .logarithm inner) :
    Calls ⟨text, table⟩ (.collapsed inner table)
  | group {text inner : Fragment} {table : Table} (hs : text.shape = .group inner) :
    Calls ⟨text, table⟩ (.collapsed inner table)
  | reference {text content entry : Fragment} {table : Table} {i : Nat}
    (hs : text.shape = .reference i content) (hl : table.lookup? i = some entry) :
    Calls ⟨text, table⟩ ⟨entry, table⟩
  | negation {text operand : Fragment} {table : Table} (hs : text.shape = .negation operand) :
    Calls ⟨text, table⟩ ⟨operand, table⟩
  | left {text left right : Fragment} {table : Table} {op : BinaryOp}
    (hs : text.shape = .operation op left right) : Calls ⟨text, table⟩ ⟨left, table⟩
  | right {text left right : Fragment} {table : Table} {op : BinaryOp} {a : Expr}
    (hs : text.shape = .operation op left right) (hl : (assemble left table).outcome = .ok a) :
    Calls ⟨text, table⟩ ⟨right, (assemble left table).table⟩
  | first {text left right : Fragment} {table : Table}
    (hs : text.shape = .juxtaposition left right) : Calls ⟨text, table⟩ ⟨left, table⟩
  | second {text left right : Fragment} {table : Table} {a : Expr}
    (hs : text.shape = .juxtaposition left right) (hl : (assemble left table).outcome = .ok a) :
    Calls ⟨text, table⟩ ⟨right, (assemble left table).table⟩

/-- All that the task refers to is in its table. -/
def Recorded (task : Task) : Prop := Formula.Recorded task.text task.table

/-- How long the text is written out, and how many tokens it has down to the characters. -/
def measure (task : Task) : ℕ ×ₗ ℕ := toLex (task.text.source.length, task.text.weight)

theorem measure_lt_iff {task task' : Task} :
    task.measure < task'.measure ↔ task.text.source.length ≤ task'.text.source.length ∧
      (task.text.source.length = task'.text.source.length →
        task.text.weight < task'.text.weight) :=
  Prod.Lex.toLex_lt_toLex'

theorem recorded_collapsed {text : Fragment} {table : Table} (h : Formula.Recorded text table) :
    (collapsed text table).Recorded :=
  h.collapse

namespace Calls

variable {caller callee : Task}

theorem recorded (h : Calls caller callee) (hr : caller.Recorded) : callee.Recorded := by
  cases h with
  | logarithm hs | group hs => exact recorded_collapsed (hr.of_part hs (by simp [Shape.parts]))
  | reference hs hl => exact hr.lookup hl
  | negation hs | left hs | first hs => exact hr.of_part hs (by simp [Shape.parts])
  | right hs hl | second hs hl =>
    exact hr.of_part_after hs (by simp [Shape.parts]) (by simp [Shape.parts])

/-- A call is for a shorter piece of the formula, or for the same piece in fewer tokens. The
entry that a reference is to is the part that it stands for, since that has been recorded. -/
theorem measure_lt (h : Calls caller callee) (hr : caller.Recorded) :
    callee.measure < caller.measure := by
  rw [measure_lt_iff]
  cases h with
  | logarithm hs | group hs =>
    rw [Fragment.eq_text_of_shape hs]
    simp only [collapsed,source_collapse,Shape.text,Fragment.source_append,Fragment.source_cons,
      Token.source_char,List.length_append,List.length_cons]
    omega
  | reference hs hl =>
    obtain rfl := Option.some.inj (hl.symm.trans (hr.lookup?_eq hs))
    rw [Fragment.eq_text_of_shape hs]
    simp [Shape.text]
  | negation hs | left hs | right hs hl =>
    rw [Fragment.eq_text_of_shape hs]
    simp only [Shape.text,Fragment.source_append,Fragment.source_cons,Token.source_char,
      List.length_append,List.length_cons]
    omega
  | first hs =>
    have hn := Fragment.weight_pos (Fragment.ne_nil_of_shape_juxtaposition hs).2
    rw [Fragment.eq_text_of_shape hs]
    simp only [Shape.text,Fragment.source_append,Fragment.weight_append,List.length_append]
    omega
  | second hs hl =>
    have hn := Fragment.weight_pos (Fragment.ne_nil_of_shape_juxtaposition hs).1
    rw [Fragment.eq_text_of_shape hs]
    simp only [Shape.text,Fragment.source_append,Fragment.weight_append,List.length_append]
    omega

end Calls

theorem Recorded.acc {task : Task} (h : task.Recorded) :
    Acc (fun callee caller => Calls caller callee) task := by
  -- On the measure, since a call may be for a text that is no part of the caller's.
  induction hm : task.measure using WellFoundedLT.induction generalizing task with
  | ind m ih =>
    subst hm
    exact .intro task fun callee hc => ih callee.measure (hc.measure_lt h) (hc.recorded h) rfl

/-- What a task comes to if `next` tells it for the tasks that it calls. A reference asks the
table, and there is nothing if the table has no entry for it. -/
def step (next : Task → Reading) (task : Task) : Option Reading :=
  let ⟨text, table⟩ := task
  match text.shape with
  | .logarithm inner => some ((next (.collapsed inner table)).map .ln)
  | .group inner => some (next (.collapsed inner table))
  | .integer negative digits =>
    some ⟨(integer? negative digits.source).elim (.error (.invalidInteger text.render))
      fun v => .ok (.const v), table⟩
  | .name letters => some ⟨.ok (.var (String.ofList letters.source)), table⟩
  | .reference i _ => (table.lookup? i).map fun entry => next ⟨entry, table⟩
  | .negation operand => some ((next ⟨operand, table⟩).map .neg)
  | .operation op left right =>
    some (Reading.join op (next ⟨left, table⟩) fun table => next ⟨right, table⟩)
  | .juxtaposition left right =>
    some (Reading.join .times (next ⟨left, table⟩) fun table => next ⟨right, table⟩)
  | .unknown _ => some ⟨.error (.invalidExpression text.render), table⟩

def reading (task : Task) : Reading := assemble task.text task.table

theorem Recorded.step_reading {task : Task} (h : task.Recorded) :
    task.step reading = some task.reading := by
  obtain ⟨text,table⟩ := task
  cases hs : text.shape with
  | logarithm inner => simp only [step,hs,reading,collapsed,assemble_of_logarithm hs]
  | group inner => simp only [step,hs,reading,collapsed,assemble_of_group hs]
  | integer negative digits => simp only [step,hs,reading,assemble_of_integer hs]
  | name letters => simp only [step,hs,reading,assemble_of_name hs]
  | reference i content =>
    have hl : table.lookup? i = some content := h.lookup?_eq hs
    simp only [step,hs,hl,reading,assemble_of_reference hs,Option.map_some]
  | negation operand => simp only [step,hs,reading,assemble_of_negation hs]
  | operation op left right => simp only [step,hs,reading,assemble_of_operation hs]
  | juxtaposition left right => simp only [step,hs,reading,assemble_of_juxtaposition hs]
  | unknown u => simp only [step,hs,reading,assemble_of_unknown hs]

theorem step_of_calls {next : Task → Reading} {task : Task}
    (h : ∀ callee, Calls task callee → next callee = callee.reading) :
    task.step next = task.step reading := by
  obtain ⟨text,table⟩ := task
  cases hs : text.shape with
  | logarithm inner => simp only [step,hs,h _ (.logarithm hs)]
  | group inner => simp only [step,hs,h _ (.group hs)]
  | integer negative digits | name letters | unknown u => simp only [step,hs]
  | reference i content =>
    cases hl : table.lookup? i with
    | none => simp only [step,hs,hl,Option.map_none]
    | some entry => simp only [step,hs,hl,Option.map_some,h _ (.reference hs hl)]
  | negation operand => simp only [step,hs,h _ (.negation hs)]
  | operation op left right =>
    simp only [step,hs,h _ (.left hs)]
    exact congrArg some (Reading.join_congr fun a hl => h _ (.right hs hl))
  | juxtaposition left right =>
    simp only [step,hs,h _ (.first hs)]
    exact congrArg some (Reading.join_congr fun a hl => h _ (.second hs hl))

theorem step_eq_iff {next : Task → Reading} :
    (∀ task : Task, task.Recorded → task.step next = some (next task)) ↔
      ∀ task : Task, task.Recorded → next task = task.reading := by
  constructor
  · intro h task hr
    induction hr.acc with
    | intro task _ ih =>
      have hc := step_of_calls fun callee hc => ih callee hc (hc.recorded hr)
      rw [h task hr,hr.step_reading] at hc
      exact Option.some.inj hc
  · intro h task hr
    rw [step_of_calls fun callee hc => h callee (hc.recorded hr),hr.step_reading,h task hr]

end Task

/-- A collapse sets aside fewer parts than the text has tokens, although the text may grow. The
calls of a reading come to an end, while they follow references through a growing table, and
what is assembled is the only thing that they can come to. -/
theorem reading_ends :
    (∀ (text : Fragment) (table : Table), text ≠ [] →
      (collapse text table).2.size < table.size + text.length) ∧
    (∃ text : Fragment,
      text.render.utf8ByteSize < (collapse text .empty).1.render.utf8ByteSize) ∧
    (∀ s : String, (Task.collapsed (.ofString s) .empty).Recorded) ∧
    (∀ task : Task, task.Recorded → Acc (fun callee caller => Task.Calls caller callee) task) ∧
    ∀ next : Task → Reading,
      (∀ task : Task, task.Recorded → task.step next = some (next task)) ↔
        ∀ task : Task, task.Recorded → next task = task.reading := by
  refine ⟨fun text table h => size_collapse_lt h table,⟨.ofString "2x",?_⟩,
    fun s => Task.recorded_collapsed (.ofString s),fun task h => h.acc,
    fun next => Task.step_eq_iff⟩
  cbv

/-- The two tokens of a product become one. -/
theorem reading_ends_product :
    Fragment.ofString "2x" ≠ [] ∧
      (collapse (.ofString "2x") .empty).2.size = Table.empty.size + 1 ∧
      (collapse (.ofString "2x") .empty).2.size <
        Table.empty.size + (Fragment.ofString "2x").length ∧
      Acc (fun callee caller => Task.Calls caller callee)
        (Task.collapsed (.ofString "2x") .empty) := by
  obtain ⟨hc,-,hs,ha,-⟩ := reading_ends
  exact ⟨by decide,by cbv,hc _ _ (by decide),ha _ (hs "2x")⟩

end Fluxion.Formula
