import Fluxion.Proofs.Language
import Fluxion.Proofs.Termination

/-! What is left over. What a tier sets aside is assembled with the operation of that tier, and
what is left when no tier matches is a single operand or cannot be assembled at all. So there
are two kinds of text only that a formula is refused for: what is left of the formula or of the
inside of a group, and names of several letters with a group behind them. -/
namespace Fluxion.Formula

namespace Fragment

variable {a : Fragment}

/-- A name of several letters with a reference behind it, like the call of a function. -/
def IsCall (a : Fragment) : Prop :=
  ∃ (cs : List Char) (i : Nat) (content : Fragment), 2 ≤ cs.length ∧
    (∀ c ∈ cs, c.isAlpha = true) ∧ a = cs.map .char ++ [.ref i content]

theorem Operand.isCall (h : a.Operand) (hf : ¬(a.length = 1 ∨ a.all Token.isDigit = true))
    (i : Nat) (content : Fragment) : IsCall (a ++ [.ref i content]) := by
  obtain ⟨hl,hd⟩ := not_or.mp hf
  cases h with
  | @name cs hn hc =>
    have hp := List.length_pos_of_ne_nil hn
    rw [List.length_map] at hl
    exact ⟨cs,i,content,by omega,hc,rfl⟩
  | number hn hc => exact absurd (all_isDigit_of_number hc) hd
  | reference j d => exact absurd rfl hl

theorem Operand.shape_ne_unknown (h : a.Operand) (u : Fragment) : a.shape ≠ .unknown u := by
  cases h with
  | name hn hc => simp [shape_name hn hc]
  | number hn hc => simp [shape_number hn hc]
  | reference i content => simp [shape_ref]

end Fragment

/-- What a tier makes of a match: its own operation, applied to the operands on both sides of
the sign, or side by side. A minus in front of digits belongs to the constant. A call is
refused. -/
inductive Tier.Reads : Tier → Fragment → (Table → Reading) → Prop
  | logarithm {inner : Fragment} (h : inner.Flat) :
    Reads .logarithm (.char 'l' :: .char 'n' :: .char '(' :: inner ++ [.char ')'])
      fun table => (Task.collapsed inner table).reading.map .ln
  | group {inner : Fragment} (h : inner.Flat) :
    Reads .group (.char '(' :: inner ++ [.char ')']) fun table => (Task.collapsed inner table).reading
  | integer {a : Fragment} (ha : a.Operand) (hd : a.all Token.isDigit = true) :
    Reads .negation (.char '-' :: a) fun table =>
      ⟨(integer? true a.source).elim (.error (.invalidInteger (Fragment.render (.char '-' :: a))))
        fun v => .ok (.const v), table⟩
  | negation {a : Fragment} (ha : a.Operand) (hd : a.all Token.isDigit = false) :
    Reads .negation (.char '-' :: a) fun table => (assemble a table).map .neg
  | operation (op : BinaryOp) {a b : Fragment} (ha : a.Operand) (hb : b.Operand) :
    Reads op.tier (a ++ .char op.symbol :: b) fun table =>
      Reading.join op (assemble a table) (assemble b)
  | reference {a : Fragment} (ha : a.Operand) (hf : a.length = 1 ∨ a.all Token.isDigit = true)
    (i : Nat) (content : Fragment) :
    Reads .product (a ++ [.ref i content]) fun table =>
      Reading.join .times (assemble a table) (assemble [.ref i content])
  | call {a : Fragment} (h : a.IsCall) :
    Reads .product a fun table => ⟨.error (.invalidExpression a.render), table⟩
  | coefficient {a : Fragment} {x : Token} (ha : a.Operand) (hn : ∀ t ∈ a, t.isLetter = false)
    (hx : x.isLetter = true) :
    Reads .coefficient (a ++ [x]) fun table =>
      Reading.join .times (assemble a table) (assemble [x])

namespace Tier

variable {tier : Tier} {a m after : Fragment}

theorem reads_minus (ha : a.Operand) :
    Reads .negation (.char '-' :: a) (assemble (.char '-' :: a)) := by
  have hs := Fragment.shape_minus_operand ha
  by_cases hd : a.all Token.isDigit = true
  · rw [if_pos hd] at hs
    rw [funext (assemble_of_integer hs)]
    exact .integer ha hd
  · rw [if_neg hd] at hs
    rw [funext (assemble_of_negation hs)]
    exact .negation ha (by simpa using hd)

/-- A match is assembled the way its tier asks for. -/
theorem Match.reads (h : tier.Match m after) : tier.Reads m (assemble m) := by
  cases h with
  | logarithm hi =>
    rw [funext (assemble_of_logarithm (Fragment.shape_logarithm hi))]
    exact .logarithm hi
  | group hi =>
    rw [funext (assemble_of_group (Fragment.shape_group hi))]
    exact .group hi
  | negation ha he hp => exact reads_minus ha
  | cut hn ha w => exact reads_minus (ha.of_concat hn)
  | operation op ha hb he =>
    rw [funext (assemble_of_operation (Fragment.shape_operation op ha hb))]
    exact .operation op ha hb
  | @reference a ha i content =>
    have hs := Fragment.shape_concat ha (.inl rfl) (a.ends_ref i content [])
    by_cases hf : a.length = 1 ∨ a.all Token.isDigit = true
    · rw [if_pos hf] at hs
      rw [funext (assemble_of_juxtaposition hs)]
      exact .reference ha hf i content
    · rw [if_neg hf] at hs
      rw [funext (assemble_of_unknown hs)]
      exact .call (ha.isCall hf i content)
  | @coefficient a x ha hn hx =>
    have hs := Fragment.shape_juxtaposition ha (ha.isFactor hn) (.inr hx)
      (Fragment.ends_letter hn hx [])
    rw [funext (assemble_of_juxtaposition hs)]
    exact .coefficient ha hn hx

theorem Match.isCall (h : tier.Match m after) {u : Fragment} (hu : m.shape = .unknown u) :
    tier = .product ∧ m.IsCall := by
  have minus : ∀ {a : Fragment}, a.Operand → Fragment.shape (.char '-' :: a) ≠ .unknown u := by
    intro a ha
    rw [Fragment.shape_minus_operand ha]
    split <;> simp
  cases h with
  | logarithm hi =>
    rw [Fragment.shape_logarithm hi] at hu
    cases hu
  | group hi =>
    rw [Fragment.shape_group hi] at hu
    cases hu
  | negation ha he hp => exact absurd hu (minus ha)
  | cut hn ha w => exact absurd hu (minus (ha.of_concat hn))
  | operation op ha hb he =>
    rw [Fragment.shape_operation op ha hb] at hu
    cases hu
  | @reference a ha i content =>
    rw [Fragment.shape_concat ha (.inl rfl) (a.ends_ref i content [])] at hu
    by_cases hf : a.length = 1 ∨ a.all Token.isDigit = true
    · rw [if_pos hf] at hu
      cases hu
    · exact ⟨rfl,ha.isCall hf i content⟩
  | coefficient ha hn hx =>
    rw [Fragment.shape_juxtaposition ha (ha.isFactor hn) (.inr hx)
      (Fragment.ends_letter hn hx [])] at hu
    cases hu

end Tier

section Tables

variable {P : Table → Prop}

/-- Tables are filled with the matches that are set aside, and with nothing else. -/
theorem collapse_induction
    (push : ∀ {text : Fragment} {tier : Tier} {site : Site} {table : Table},
      Tier.first? text = some (tier, site) → P table → P (table.push tier site.matched))
    (text : Fragment) {table : Table} (h : P table) : P (collapse text table).2 := by
  fun_induction collapse text table with
  | case1 text table hf => exact h
  | case2 text table tier site hf ih => exact ih (push hf h)

theorem assemble_induction
    (push : ∀ {text : Fragment} {tier : Tier} {site : Site} {table : Table},
      Tier.first? text = some (tier, site) → P table → P (table.push tier site.matched))
    (text : Fragment) {table : Table} (h : P table) : P (assemble text table).table := by
  induction text using Fragment.shape_induction generalizing table with
  | logarithm text inner hs ih =>
    rw [assemble_of_logarithm hs]
    exact ih _ (by simp) (collapse_induction push inner h)
  | group text inner hs ih =>
    rw [assemble_of_group hs]
    exact ih _ (by simp) (collapse_induction push inner h)
  | integer text negative digits hs =>
    rw [assemble_of_integer hs]
    exact h
  | name text letters hs =>
    rw [assemble_of_name hs]
    exact h
  | reference text i content hs ih =>
    rw [assemble_of_reference hs]
    exact ih h
  | negation text operand hs ih =>
    rw [assemble_of_negation hs]
    exact ih h
  | operation text op left right hs ihl ihr =>
    rw [assemble_of_operation hs]
    exact Reading.table_join_of (ihl h) (ihr (ihl h))
  | juxtaposition text left right hs ihl ihr =>
    rw [assemble_of_juxtaposition hs]
    exact Reading.table_join_of (ihl h) (ihr (ihl h))
  | unknown text u hs =>
    rw [assemble_of_unknown hs]
    exact h

theorem le_assemble (text : Fragment) (table : Table) : table ≤ (assemble text table).table :=
  assemble_induction (P := fun later => table ≤ later)
    (fun _ h => Table.le_trans h (Table.le_push _ _ _)) text table.le_refl

/-- Every entry is a match of its tier. -/
def Table.Matched (table : Table) : Prop :=
  ∀ entry ∈ table.entries, ∃ after, entry.tier.Match entry.fragment after

theorem Table.Matched.push {table : Table} (h : table.Matched) {text : Fragment} {tier : Tier}
    {site : Site} (hs : Tier.first? text = some (tier, site)) :
    (table.push tier site.matched).Matched := by
  intro entry he
  rcases List.mem_append.mp he with he | he
  · exact h entry he
  · rw [List.mem_singleton.mp he]
    exact ⟨site.after,(Tier.first_of_first? hs).match⟩

theorem matched_read (s : String) : (read s).table.Matched := by
  have empty : Table.empty.Matched := List.forall_mem_nil _
  unfold read
  split
  · exact empty
  · split
    · exact empty
    · exact assemble_induction (fun hs h => h.push hs) _
        (collapse_induction (fun hs h => h.push hs) _ empty)

end Tables

theorem Reading.le_join (op : BinaryOp) (a b : Fragment) (table : Table) :
    (assemble a table).table ≤ (join op (assemble a table) (assemble b)).table :=
  table_join_of (Table.le_refl _) (le_assemble b _)

namespace Task.Calls

variable {caller callee : Task}

theorem passes_on (h : Calls caller callee) (hr : caller.Recorded) :
    callee.reading.table ≤ caller.reading.table ∧
      ∀ e, callee.reading.outcome = .error e → caller.reading.outcome = .error e := by
  cases h with
  | logarithm hs =>
    rw [reading,reading,assemble_of_logarithm hs]
    exact ⟨Table.le_refl _,fun e he => Reading.map_error he .ln⟩
  | group hs =>
    rw [reading,reading,assemble_of_group hs]
    exact ⟨Table.le_refl _,fun e he => he⟩
  | reference hs hl =>
    obtain rfl := Option.some.inj (hl.symm.trans (hr.lookup?_eq hs))
    rw [reading,reading,assemble_of_reference hs]
    exact ⟨Table.le_refl _,fun e he => he⟩
  | negation hs =>
    rw [reading,reading,assemble_of_negation hs]
    exact ⟨Table.le_refl _,fun e he => Reading.map_error he .neg⟩
  | left hs =>
    rw [reading,reading,assemble_of_operation hs]
    exact ⟨Reading.le_join _ _ _ _,fun e he => Reading.join_error_left he⟩
  | right hs hl =>
    rw [reading,reading,assemble_of_operation hs,Reading.table_join_of_ok hl]
    exact ⟨Table.le_refl _,fun e he => Reading.join_error_right hl he⟩
  | first hs =>
    rw [reading,reading,assemble_of_juxtaposition hs]
    exact ⟨Reading.le_join _ _ _ _,fun e he => Reading.join_error_left he⟩
  | second hs hl =>
    rw [reading,reading,assemble_of_juxtaposition hs,Reading.table_join_of_ok hl]
    exact ⟨Table.le_refl _,fun e he => Reading.join_error_right hl he⟩

end Task.Calls

namespace Task

variable {task : Task} {f : String}

theorem unknown_or_calls (hr : task.Recorded)
    (h : task.reading.outcome = .error (.invalidExpression f)) :
    (f = task.text.render ∧ ∃ u, task.text.shape = .unknown u) ∨
      ∃ callee, Calls task callee ∧ callee.reading.outcome = .error (.invalidExpression f) := by
  obtain ⟨text,table⟩ := task
  rw [reading] at h
  cases hs : text.shape with
  | logarithm inner =>
    rw [assemble_of_logarithm hs] at h
    exact .inr ⟨_,.logarithm hs,Reading.error_of_map h⟩
  | group inner =>
    rw [assemble_of_group hs] at h
    exact .inr ⟨_,.group hs,h⟩
  | integer negative digits =>
    rw [assemble_of_integer hs] at h
    cases hi : integer? negative digits.source with
    | none => rw [hi] at h; cases h
    | some v => rw [hi] at h; cases h
  | name letters =>
    rw [assemble_of_name hs] at h
    cases h
  | reference i content =>
    rw [assemble_of_reference hs] at h
    exact .inr ⟨_,.reference hs (hr.lookup?_eq hs),h⟩
  | negation operand =>
    rw [assemble_of_negation hs] at h
    exact .inr ⟨_,.negation hs,Reading.error_of_map h⟩
  | operation op left right =>
    rw [assemble_of_operation hs] at h
    rcases Reading.error_of_join h with hl | ⟨⟨a,ha⟩,hr⟩ | ⟨c,hc⟩
    · exact .inr ⟨_,.left hs,hl⟩
    · exact .inr ⟨_,.right hs ha,hr⟩
    · cases hc
  | juxtaposition left right =>
    rw [assemble_of_juxtaposition hs] at h
    rcases Reading.error_of_join h with hl | ⟨⟨a,ha⟩,hr⟩ | ⟨c,hc⟩
    · exact .inr ⟨_,.first hs,hl⟩
    · exact .inr ⟨_,.second hs ha,hr⟩
    · cases hc
  | unknown u =>
    rw [assemble_of_unknown hs] at h
    cases h
    exact .inl ⟨rfl,u,rfl⟩

theorem Recorded.of_chain {callee : Task} (hr : task.Recorded)
    (h : Relation.ReflTransGen Calls task callee) :
    callee.Recorded ∧ callee.reading.table ≤ task.reading.table ∧
      ∀ e, callee.reading.outcome = .error e → task.reading.outcome = .error e := by
  induction h with
  | refl => exact ⟨hr,Table.le_refl _,fun _ he => he⟩
  | tail _ hc ih =>
    obtain ⟨hm,hle,herror⟩ := ih
    obtain ⟨hle',herror'⟩ := hc.passes_on hm
    exact ⟨hc.recorded hm,Table.le_trans hle' hle,fun e he => herror e (herror' e he)⟩

theorem Recorded.exists_unknown (hr : task.Recorded)
    (h : task.reading.outcome = .error (.invalidExpression f)) :
    ∃ callee, Relation.ReflTransGen Calls task callee ∧ f = callee.text.render ∧
      ∃ u, callee.text.shape = .unknown u := by
  induction hr.acc with
  | intro task _ ih =>
    rcases unknown_or_calls hr h with hu | ⟨callee,hc,he⟩
    · exact ⟨task,.refl,hu⟩
    · obtain ⟨last,hl,hu⟩ := ih callee hc (hc.recorded hr) he
      exact ⟨last,.head hc hl,hu⟩

end Task

/-- A text that is collapsed in the course of reading a formula, and the table as it is by then:
the formula itself, and the inside of every group and logarithm that is come to. -/
inductive Level (s : String) : Fragment → Table → Prop
  | whole : Level s (.ofString s) .empty
  | logarithm {text inner : Fragment} {table : Table}
    (h : Relation.ReflTransGen Task.Calls (.collapsed (.ofString s) .empty) ⟨text, table⟩)
    (hs : text.shape = .logarithm inner) : Level s inner table
  | group {text inner : Fragment} {table : Table}
    (h : Relation.ReflTransGen Task.Calls (.collapsed (.ofString s) .empty) ⟨text, table⟩)
    (hs : text.shape = .group inner) : Level s inner table

/-- Where the text of a task comes from: it is what is left of a text, or it has been set aside,
or it is an operand of one that has. -/
inductive Task.Origin (s : String) : Task → Prop
  | residual {text : Fragment} {table : Table} (h : Level s text table) :
    Origin s (.collapsed text table)
  | entry {entry : Entry} {table : Table} (h : entry ∈ table.entries) :
    Origin s ⟨entry.fragment, table⟩
  | operand {text : Fragment} {table : Table} (h : text.Operand) : Origin s ⟨text, table⟩

section Levels

variable {s : String} {text : Fragment} {table : Table} {task : Task}

theorem Level.calls (h : Level s text table) :
    Relation.ReflTransGen Task.Calls (.collapsed (.ofString s) .empty) (.collapsed text table) := by
  cases h with
  | whole => exact .refl
  | logarithm h hs => exact h.tail (.logarithm hs)
  | group h hs => exact h.tail (.group hs)

theorem Task.origin_of_chain
    (h : Relation.ReflTransGen Task.Calls (.collapsed (.ofString s) .empty) task) :
    task.Origin s := by
  cases h with
  | refl => exact .residual .whole
  | tail h hc =>
    cases hc with
    | logarithm hs => exact .residual (.logarithm h hs)
    | group hs => exact .residual (.group h hs)
    | reference hs hl =>
      obtain ⟨entry,he,rfl⟩ := Table.mem_of_lookup? hl
      exact .entry he
    | negation hs =>
      cases Fragment.formed_of_shape hs with
      | negation ha => exact .operand ha
    | left hs =>
      cases Fragment.formed_of_shape hs with
      | operation op ha hb => exact .operand ha
    | right hs hl =>
      cases Fragment.formed_of_shape hs with
      | operation op ha hb => exact .operand hb
    | first hs =>
      cases Fragment.formed_of_shape hs with
      | juxtaposition ha ht => exact .operand ha
    | second hs hl =>
      cases Fragment.formed_of_shape hs with
      | juxtaposition ha ht =>
        exact .operand (.singleton (Token.isOperand_of_second ht))

end Levels

/-- What is left over at a level matches no tier; if it is no operand, the formula is refused for
it. What has been set aside is assembled with the operation of its tier, but for calls. A
formula is refused for nothing else. -/
theorem parse_leftovers {s : String} (hn : s ≠ "") (ha : ∀ c ∈ s.toList, isAllowed c = true) :
    (∀ text table, Level s text table →
      (∀ tier : Tier, tier.Nowhere (collapse text table).1) ∧
      (collapse text table).2 ≤ (read s).table ∧
      (¬(collapse text table).1.Operand →
        (∀ later, assemble (collapse text table).1 later =
          ⟨.error (.invalidExpression (collapse text table).1.render), later⟩) ∧
        parse s = .error (.invalidExpression (collapse text table).1.render))) ∧
    (∀ entry ∈ (read s).table.entries,
      entry.tier.match? none entry.fragment = some (entry.fragment, []) ∧
        entry.tier.Reads entry.fragment (assemble entry.fragment)) ∧
    ∀ f, parse s = .error (.invalidExpression f) →
      (∃ text table, Level s text table ∧ ¬(collapse text table).1.Operand ∧
        f = (collapse text table).1.render) ∨
      ∃ entry ∈ (read s).table.entries, entry.tier = .product ∧ entry.fragment.IsCall ∧
        f = entry.fragment.render := by
  have hread : read s = (Task.collapsed (.ofString s) .empty).reading := read_of_isAllowed hn ha
  have hr : (Task.collapsed (.ofString s) .empty).Recorded := Task.recorded_collapsed (.ofString s)
  refine ⟨fun text table hl => ?_,fun entry he => ?_,fun f hf => ?_⟩
  · have hnow : ∀ tier : Tier, tier.Nowhere (collapse text table).1 :=
      Tier.nowhere_of_first? (first?_collapse text table)
    obtain ⟨-,hle,herror⟩ := hr.of_chain hl.calls
    refine ⟨hnow,?_,fun ho => ?_⟩
    · rw [hread]
      exact Table.le_trans (le_assemble _ _) hle
    · have hs := Fragment.shape_of_nowhere hnow ho
      refine ⟨assemble_of_unknown hs,?_⟩
      rw [parse,hread]
      exact herror _ (congrArg Reading.outcome (assemble_of_unknown hs _))
  · obtain ⟨after,hm⟩ := matched_read s entry he
    exact ⟨hm.match?_self,hm.reads⟩
  · rw [parse,hread] at hf
    obtain ⟨task,hc,rfl,u,hu⟩ := hr.exists_unknown hf
    obtain ⟨-,hle,-⟩ := hr.of_chain hc
    cases Task.origin_of_chain hc with
    | @residual text table hl =>
      exact .inl ⟨text,table,hl,fun ho => ho.shape_ne_unknown u hu,rfl⟩
    | @entry entry table he =>
      have hmem : entry ∈ (read s).table.entries := by
        rw [hread]
        exact Table.mem_of_le (Table.le_trans (le_assemble _ table) hle) he
      obtain ⟨after,hm⟩ := matched_read s entry hmem
      obtain ⟨htier,hcall⟩ := hm.isCall hu
      exact .inr ⟨entry,hmem,htier,hcall,rfl⟩
    | operand ho => exact absurd hu (ho.shape_ne_unknown u)

/-- Digits behind a letter are left over inside a group. -/
theorem parse_leftovers_group :
    (∀ c ∈ "(x2)".toList, isAllowed c = true) ∧
      Level "(x2)" [.char 'x', .char '2']
        ⟨[⟨.group, [.char '(', .char 'x', .char '2', .char ')']⟩]⟩ ∧
      parse "(x2)" = .error (.invalidExpression "x2") := by
  have hs : "(x2)".toList = ['(', 'x', '2', ')'] := by decide
  have ha : ∀ c ∈ "(x2)".toList, isAllowed c = true := by
    rw [hs]
    simp only [List.forall_mem_cons]
    exact ⟨rfl,rfl,rfl,rfl,List.forall_mem_nil _⟩
  have hc : collapse (.ofString "(x2)") .empty =
      ([.ref 1 [.char '(', .char 'x', .char '2', .char ')']],
        ⟨[⟨.group, [.char '(', .char 'x', .char '2', .char ')']⟩]⟩) := by
    rw [Fragment.ofString,hs,@collapse_of_some _ .group
      ⟨[], [.char '(', .char 'x', .char '2', .char ')'], []⟩ rfl,collapse_of_none rfl]
    rfl
  have hl : Level "(x2)" [.char 'x', .char '2']
      ⟨[⟨.group, [.char '(', .char 'x', .char '2', .char ')']⟩]⟩ := by
    refine .group ?_ (rfl : Fragment.shape [.char '(', .char 'x', .char '2', .char ')'] = _)
    rw [Task.collapsed,hc]
    exact .single (.reference (Fragment.shape_ref _ _) rfl)
  have ho : ¬Fragment.Operand [.char 'x', .char '2'] := fun ho => by
    have hp : Pattern.operand [.char 'x', .char '2'] = some ([.char 'x'], [.char '2']) := rfl
    rw [Fragment.operand_self ho] at hp
    cases hp
  have h := ((parse_leftovers (by decide) ha).1 _ _ hl).2.2
  rw [collapse_of_none rfl] at h
  exact ⟨ha,hl,(h ho).2⟩

end Fluxion.Formula
