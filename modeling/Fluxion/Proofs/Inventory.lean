import Fluxion.Journal
import Fluxion.Proofs.Balance
import Fluxion.Proofs.Leftovers

/-! An inventory of the table. Every part of a formula that is set aside is looked up again, and
just once, while the formula is assembled. What is looked up is there for a sign, a minus, the
opening of a group or a product without a sign, so the entries can be counted in the formula and
in the expression. -/
namespace Fluxion

def Expr.products : Expr → Nat
  | const _ | var _ => 0
  | neg a | ln a => a.products
  | binary op a b => a.products + b.products + if op = .times then 1 else 0

namespace Formula

mutual
/-- The numbers of the references in a token, those in the parts they are to included. -/
def Token.references : Token → List Nat
  | char _ => []
  | ref index content => index :: Token.referencesOf content
def Token.referencesOf : List Token → List Nat
  | [] => []
  | t :: rest => t.references ++ Token.referencesOf rest
end

namespace Fragment

def references (text : Fragment) : List Nat := Token.referencesOf text

@[simp] theorem references_nil : references [] = [] := by
  simp [references,Token.referencesOf]

@[simp] theorem references_cons (t : Token) (text : Fragment) :
    references (t :: text) = t.references ++ references text := by
  simp [references,Token.referencesOf]

@[simp] theorem references_append (a b : Fragment) :
    references (a ++ b) = references a ++ references b := by
  induction a with
  | nil => simp
  | cons t a ih => simp [ih]

end Fragment

@[simp] theorem Token.references_char (c : Char) : (Token.char c).references = [] := by
  simp [Token.references]

@[simp] theorem Token.references_ref (index : Nat) (content : Fragment) :
    (Token.ref index content).references = index :: content.references := by
  simp [Token.references,Fragment.references]

@[simp] theorem Fragment.references_map_char (cs : List Char) :
    references (cs.map .char) = [] := by
  induction cs with
  | nil => simp
  | cons c cs ih => simp [ih]

section Order

variable {text : Fragment}

theorem lex_of_reference {i : Nat} {content : Fragment} (h : text.shape = .reference i content) :
    Prod.Lex (· < ·) (· < ·) (content.source.length, content.weight)
      (text.source.length, text.weight) := by
  rw [Fragment.eq_text_of_shape h]
  exact Prod.Lex.right' _ (by simp [Shape.text]) (by simp [Shape.text])

theorem lex_of_part {s : Shape} {part : Fragment} (h : text.shape = s) (hp : part ∈ s.parts) :
    Prod.Lex (· < ·) (· < ·) (part.source.length, part.weight)
      (text.source.length, text.weight) := by
  have hn := @Fragment.ne_nil_of_shape_juxtaposition text
  rw [h] at hn
  rw [Fragment.eq_text_of_shape h]
  cases s <;> simp only [Shape.parts,List.mem_cons,List.not_mem_nil,or_false] at hp
  case logarithm | group | negation =>
    subst hp
    refine Prod.Lex.left _ _ ?_
    simp only [Shape.text,Fragment.source_append,Fragment.source_cons,Token.source_char,
      List.length_append,List.length_cons]
    omega
  case operation =>
    refine Prod.Lex.left _ _ ?_
    simp only [Shape.text,Fragment.source_append,Fragment.source_cons,Token.source_char,
      List.length_append,List.length_cons]
    rcases hp with rfl | rfl <;> omega
  case juxtaposition =>
    obtain ⟨hl,hr⟩ := hn rfl
    have hl := Fragment.weight_pos hl
    have hr := Fragment.weight_pos hr
    rcases hp with rfl | rfl <;>
      exact Prod.Lex.right' _ (by simp [Shape.text]) (by simpa [Shape.text])

theorem lex_of_inner {s : Shape} {inner : Fragment} (h : text.shape = s)
    (hs : s = .logarithm inner ∨ s = .group inner) (table : Table) :
    Prod.Lex (· < ·) (· < ·)
      ((collapse inner table).1.source.length, (collapse inner table).1.weight)
      (text.source.length, text.weight) := by
  rw [source_collapse,Fragment.eq_text_of_shape h]
  refine Prod.Lex.left _ _ ?_
  rcases hs with rfl | rfl <;>
    simp only [Shape.text,Fragment.source_append,Fragment.source_cons,Token.source_char,
      List.length_append,List.length_cons] <;> omega

end Order

/-- The numbers of the entries that are looked up while a text is assembled, in this order. The
right operand is not come to if the left one is no expression. -/
def lookups (text : Fragment) (table : Table) : List Nat :=
  match _h : text.shape with
  | .logarithm inner | .group inner => lookups (collapse inner table).1 (collapse inner table).2
  | .reference index content => index :: lookups content table
  | .negation operand => lookups operand table
  | .operation _ left right | .juxtaposition left right =>
    lookups left table ++
      match (assemble left table).outcome with
      | .ok _ => lookups right (assemble left table).table
      | .error _ => []
  | .integer .. | .name _ | .unknown _ => []
termination_by (text.source.length, text.weight)
decreasing_by
  · exact lex_of_inner _h (.inl rfl) table
  · exact lex_of_inner _h (.inr rfl) table
  · exact lex_of_reference _h
  all_goals exact lex_of_part _h (by simp [Shape.parts])

section Lookups

variable {text : Fragment}

theorem lookups_of_logarithm {inner : Fragment} (h : text.shape = .logarithm inner)
    (table : Table) :
    lookups text table = lookups (collapse inner table).1 (collapse inner table).2 := by
  rw [lookups]
  split <;> simp_all

theorem lookups_of_group {inner : Fragment} (h : text.shape = .group inner) (table : Table) :
    lookups text table = lookups (collapse inner table).1 (collapse inner table).2 := by
  rw [lookups]
  split <;> simp_all

theorem lookups_of_reference {index : Nat} {content : Fragment}
    (h : text.shape = .reference index content) (table : Table) :
    lookups text table = index :: lookups content table := by
  rw [lookups]
  split <;> simp_all

theorem lookups_of_negation {operand : Fragment} (h : text.shape = .negation operand)
    (table : Table) : lookups text table = lookups operand table := by
  rw [lookups]
  split <;> simp_all

theorem lookups_of_pair {left right : Fragment} {table : Table} {a : Expr}
    (h : (∃ op, text.shape = .operation op left right) ∨ text.shape = .juxtaposition left right)
    (ha : (assemble left table).outcome = .ok a) :
    lookups text table = lookups left table ++ lookups right (assemble left table).table := by
  rw [lookups]
  rcases h with ⟨op,h⟩ | h <;> split <;> simp_all

theorem lookups_of_leaf (h : text.shape.parts = []) (hr : ∀ i c, text.shape ≠ .reference i c)
    (table : Table) : lookups text table = [] := by
  rw [lookups]
  split <;> simp_all [Shape.parts]

end Lookups

namespace Reading

variable {r left : Reading} {right : Table → Reading} {op : BinaryOp} {t : Expr}

theorem ok_of_map {f : Expr → Expr} (h : (r.map f).outcome = .ok t) :
    ∃ a, r.outcome = .ok a ∧ t = f a := by
  cases hr : r.outcome with
  | error e =>
    rw [map_error hr] at h
    cases h
  | ok a =>
    rw [map,hr] at h
    cases h
    exact ⟨a,rfl,rfl⟩

theorem ok_of_join (h : (join op left right).outcome = .ok t) :
    ∃ a b, left.outcome = .ok a ∧ (right left.table).outcome = .ok b ∧
      (join op left right).table = (right left.table).table ∧ t = .binary op a b := by
  cases hl : left.outcome with
  | error e =>
    rw [join_error_left hl] at h
    cases h
  | ok a =>
    cases hr : (right left.table).outcome with
    | error e =>
      rw [join_error_right hl hr] at h
      cases h
    | ok b =>
      rw [outcome_join_of_ok hl hr] at h
      cases hc : Expr.combine op a b with
      | error e =>
        rw [hc] at h
        cases h
      | ok c =>
        rw [hc] at h
        cases h
        exact ⟨a,b,rfl,rfl,table_join_of_ok hl,(Expr.combine_eq_ok hc).1⟩

end Reading

/-- Whether an entry has been added from one state of a table to a later one. -/
def Table.added (table later : Table) (i : Nat) : Nat :=
  if table.size ≤ i ∧ i < later.size then 1 else 0

section Added

variable {table later latest : Table} {i : Nat}

theorem Table.size_le (h : table ≤ later) : table.size ≤ later.size :=
  Nat.succ_le_succ (List.IsPrefix.length_le h)

@[simp] theorem Table.added_self (table : Table) (i : Nat) : table.added table i = 0 := by
  simp only [added]
  split <;> omega

theorem Table.added_trans (h : table ≤ later) (h' : later ≤ latest) (i : Nat) :
    table.added latest i = table.added later i + later.added latest i := by
  have h := size_le h
  have h' := size_le h'
  simp only [added]
  split <;> split <;> split <;> omega

theorem Table.added_push (table : Table) (tier : Tier) (m : Fragment) (i : Nat) :
    table.added (table.push tier m) i = [table.size].count i := by
  simp only [added,size_push,List.count_singleton,beq_iff_eq]
  split <;> split <;> omega

theorem count_references_collapse (text : Fragment) (table : Table) (i : Nat) :
    (collapse text table).1.references.count i =
      text.references.count i + table.added (collapse text table).2 i := by
  fun_induction collapse text table with
  | case1 text table h => simp
  | case2 text table tier site h ih =>
    have hle := le_collapse (site.replace (.ref table.size site.matched))
      (table.push tier site.matched)
    have ht := Table.added_trans (table.le_push tier site.matched) hle i
    rw [Table.added_push] at ht
    rw [ih,ht,← (Tier.first?_cuts h).1]
    simp only [Site.replace,Site.text,Fragment.references_append,Fragment.references_cons,
      Token.references_ref,List.count_append,List.cons_append,List.count_cons,List.count_nil]
    omega

theorem added_assemble_collapse (text : Fragment) (table : Table) (i : Nat) :
    table.added (assemble (collapse text table).1 (collapse text table).2).table i =
      table.added (collapse text table).2 i +
        (collapse text table).2.added
          (assemble (collapse text table).1 (collapse text table).2).table i :=
  Table.added_trans (le_collapse text table) (le_assemble _ _) i

theorem count_lookups_pair {left right : Fragment} {table : Table} {i : Nat}
    (hl : (lookups left table).count i =
      left.references.count i + table.added (assemble left table).table i)
    (hr : (lookups right (assemble left table).table).count i = right.references.count i +
      (assemble left table).table.added (assemble right (assemble left table).table).table i) :
    (lookups left table ++ lookups right (assemble left table).table).count i =
      (left.references ++ right.references).count i +
        table.added (assemble right (assemble left table).table).table i := by
  rw [List.count_append,List.count_append,hl,hr,
    Table.added_trans (le_assemble left table) (le_assemble right _)]
  omega

/-- When an expression has been assembled, every reference that there was and every new entry
has been looked up once. -/
theorem count_lookups {text : Fragment} {table : Table} {t : Expr}
    (h : (assemble text table).outcome = .ok t) (i : Nat) :
    (lookups text table).count i =
      text.references.count i + table.added (assemble text table).table i := by
  induction text using Fragment.shape_induction generalizing table t with
  | logarithm text inner hs ih =>
    rw [assemble_of_logarithm hs] at h ⊢
    obtain ⟨a,ha,-⟩ := Reading.ok_of_map h
    rw [lookups_of_logarithm hs,ih _ (by simp) ha,count_references_collapse,
      Fragment.eq_text_of_shape hs]
    have hadd := added_assemble_collapse inner table i
    simp [Shape.text,Reading.map]
    omega
  | group text inner hs ih =>
    rw [assemble_of_group hs] at h ⊢
    rw [lookups_of_group hs,ih _ (by simp) h,count_references_collapse,
      Fragment.eq_text_of_shape hs]
    have hadd := added_assemble_collapse inner table i
    simp [Shape.text]
    omega
  | integer text negative digits hs =>
    rw [lookups_of_leaf (by rw [hs]; rfl) (by simp [hs]),assemble_of_integer hs]
    have ht := Fragment.eq_text_of_shape hs
    cases Fragment.formed_of_shape hs with
    | integer _ hn hc => cases negative <;> simp [ht,Shape.text]
  | name text letters hs =>
    rw [lookups_of_leaf (by rw [hs]; rfl) (by simp [hs]),assemble_of_name hs]
    have ht := Fragment.eq_text_of_shape hs
    cases Fragment.formed_of_shape hs with
    | name hn hc => simp [ht,Shape.text]
  | reference text index content hs ih =>
    rw [assemble_of_reference hs] at h ⊢
    rw [lookups_of_reference hs,List.count_cons,ih h,Fragment.eq_text_of_shape hs]
    simp [Shape.text,List.count_cons]
    omega
  | negation text operand hs ih =>
    rw [assemble_of_negation hs] at h ⊢
    obtain ⟨a,ha,-⟩ := Reading.ok_of_map h
    rw [lookups_of_negation hs,ih ha,Fragment.eq_text_of_shape hs]
    simp [Shape.text,Reading.map]
  | operation text op left right hs ihl ihr =>
    rw [assemble_of_operation hs] at h ⊢
    obtain ⟨a,b,ha,hb,htable,-⟩ := Reading.ok_of_join h
    rw [lookups_of_pair (.inl ⟨op,hs⟩) ha,htable,count_lookups_pair (ihl ha) (ihr hb),
      Fragment.eq_text_of_shape hs]
    simp [Shape.text]
  | juxtaposition text left right hs ihl ihr =>
    rw [assemble_of_juxtaposition hs] at h ⊢
    obtain ⟨a,b,ha,hb,htable,-⟩ := Reading.ok_of_join h
    rw [lookups_of_pair (.inr hs) ha,htable,count_lookups_pair (ihl ha) (ihr hb),
      Fragment.eq_text_of_shape hs]
    simp [Shape.text]
  | unknown text u hs =>
    rw [assemble_of_unknown hs] at h
    cases h

end Added

/-- The characters that something is set aside for: the sign of a sum, a quotient or a power, a
minus in front of an operand, and the opening of a group or a logarithm. -/
def marks (s : List Char) : Nat := s.countP fun c => c ∈ ['(', '+', '-', '/', '^']

section Marks

@[simp] theorem marks_nil : marks [] = 0 := rfl

@[simp] theorem marks_append (s s' : List Char) : marks (s ++ s') = marks s + marks s' :=
  List.countP_append

theorem marks_cons (c : Char) (s : List Char) : marks (c :: s) = marks [c] + marks s :=
  marks_append [c] s

theorem marks_of_isAlphanum {s : List Char} (h : ∀ c ∈ s, c.isAlphanum = true) : marks s = 0 := by
  refine List.countP_eq_zero.mpr fun c hc hm => ?_
  have ha := h c hc
  simp only [List.mem_cons,List.not_mem_nil,or_false,decide_eq_true_eq] at hm
  rcases hm with rfl | rfl | rfl | rfl | rfl <;> cases ha

theorem marks_symbol (op : BinaryOp) : marks [op.symbol] + (if op = .times then 1 else 0) = 1 := by
  cases op <;> rfl

section Shapes

variable {text inner left right : Fragment}

theorem marks_of_inner (h : text.shape = .logarithm inner ∨ text.shape = .group inner) :
    marks text.source = marks inner.source + 1 := by
  rcases h with h | h <;> rw [Fragment.eq_text_of_shape h] <;>
    simp [Shape.text,marks,Nat.add_comm]

theorem marks_of_integer {negative : Bool} {digits : Fragment}
    (h : text.shape = .integer negative digits) :
    marks text.source = if negative then 1 else 0 := by
  rw [Fragment.eq_text_of_shape h]
  cases Fragment.formed_of_shape h with
  | @integer _ cs hn hc =>
    have hm : marks cs = 0 := marks_of_isAlphanum fun c hm => by simp [Char.isAlphanum,hc c hm]
    cases negative with
    | false => simpa [Shape.text] using hm
    | true =>
      have hminus : marks ('-' :: cs) = 1 := by
        rw [marks_cons,hm]
        rfl
      simpa [Shape.text] using hminus

theorem marks_of_name {letters : Fragment} (h : text.shape = .name letters) :
    marks text.source = 0 := by
  rw [Fragment.eq_text_of_shape h]
  cases Fragment.formed_of_shape h with
  | @name cs hn hc =>
    have hm : marks cs = 0 := marks_of_isAlphanum fun c hm => by simp [Char.isAlphanum,hc c hm]
    simpa [Shape.text] using hm

theorem marks_of_reference {i : Nat} {content : Fragment} (h : text.shape = .reference i content) :
    marks text.source = marks content.source := by
  rw [Fragment.eq_text_of_shape h]
  simp [Shape.text]

theorem marks_of_negation {operand : Fragment} (h : text.shape = .negation operand) :
    marks text.source = 1 + marks operand.source := by
  rw [Fragment.eq_text_of_shape h]
  exact marks_cons '-' _

theorem marks_of_operation {op : BinaryOp} (h : text.shape = .operation op left right) :
    marks text.source = marks left.source + (marks [op.symbol] + marks right.source) := by
  rw [Fragment.eq_text_of_shape h,← marks_cons]
  simp [Shape.text]

theorem marks_of_juxtaposition (h : text.shape = .juxtaposition left right) :
    marks text.source = marks left.source + marks right.source := by
  rw [Fragment.eq_text_of_shape h,← marks_append]
  simp [Shape.text]

end Shapes

end Marks

namespace Shape

def isSingle : Shape → Bool
  | integer negative _ => !negative
  | name _ | reference _ _ => true
  | _ => false

end Shape

theorem Fragment.isSingle_shape_iff {a : Fragment} : a.shape.isSingle = true ↔ a.Operand := by
  constructor
  · intro h
    have ht := a.text_shape
    have hf := a.formed_shape
    generalize a.shape = s at h ht hf
    subst ht
    cases hf with
    | integer negative hn hc =>
      cases negative with
      | false => exact .number hn hc
      | true => cases h
    | name hn hc => exact .name hn hc
    | reference i content => exact .reference i content
    | _ => cases h
  · intro h
    cases h with
    | name hn hc => rw [shape_name hn hc]; rfl
    | number hn hc => rw [shape_number hn hc]; rfl
    | reference i content => rw [shape_ref]; rfl

theorem isSingle_collapse {text : Fragment} {table later : Table} {t : Expr}
    (h : (assemble (collapse text table).1 later).outcome = .ok t) :
    (collapse text table).1.shape.isSingle = true := by
  rw [Fragment.isSingle_shape_iff]
  by_contra ho
  have hs := Fragment.shape_of_nowhere (Tier.nowhere_of_first? (first?_collapse text table)) ho
  rw [assemble_of_unknown hs] at h
  cases h

/-- A text with its references in a table of matches. -/
structure Stocked (text : Fragment) (table : Table) : Prop where
  recorded : Recorded text table
  matched : table.Matched

namespace Stocked

variable {text : Fragment} {table : Table}

theorem ofString (s : String) : Stocked (.ofString s) .empty :=
  ⟨.ofString s,List.forall_mem_nil _⟩

theorem collapse (h : Stocked text table) :
    Stocked (collapse text table).1 (collapse text table).2 :=
  ⟨h.recorded.collapse,collapse_induction (fun hs hm => hm.push hs) text h.matched⟩

theorem of_part (h : Stocked text table) {s : Shape} {part : Fragment} (hs : text.shape = s)
    (hp : part ∈ s.parts) : Stocked part table :=
  ⟨h.recorded.of_part hs hp,h.matched⟩

/-- A second part when the first one has been assembled. -/
theorem of_part_after (h : Stocked text table) {s : Shape} {left right : Fragment}
    (hs : text.shape = s) (hl : left ∈ s.parts) (hr : right ∈ s.parts) :
    Stocked right (assemble left table).table :=
  ⟨h.recorded.of_part_after hs hl hr,assemble_induction (fun hs hm => hm.push hs) left h.matched⟩

/-- What is set aside is no single operand. -/
theorem of_reference (h : Stocked text table) {i : Nat} {content : Fragment}
    (hs : text.shape = .reference i content) :
    Stocked content table ∧ content.shape.isSingle = false := by
  have hl := h.recorded.lookup?_eq hs
  obtain ⟨entry,he,rfl⟩ := Table.mem_of_lookup? hl
  obtain ⟨after,hm⟩ := h.matched entry he
  refine ⟨⟨h.recorded.lookup hl,h.matched⟩,?_⟩
  rw [Bool.eq_false_iff,Ne,Fragment.isSingle_shape_iff]
  exact hm.not_operand

end Stocked

theorem length_lookups_collapse {inner : Fragment} {table : Table} {a : Expr}
    (ha : (assemble (collapse inner table).1 (collapse inner table).2).outcome = .ok a)
    (hi : (lookups (collapse inner table).1 (collapse inner table).2).length +
      (if (collapse inner table).1.shape.isSingle then 0 else 1) =
        marks (collapse inner table).1.source + a.products) :
    (lookups (collapse inner table).1 (collapse inner table).2).length =
      marks inner.source + a.products := by
  rw [isSingle_collapse ha,source_collapse] at hi
  exact hi

/-- For every mark of a text and for every product something is looked up, or the text itself has
been. -/
theorem length_lookups {text : Fragment} {table : Table} {t : Expr} (hst : Stocked text table)
    (h : (assemble text table).outcome = .ok t) :
    (lookups text table).length + (if text.shape.isSingle then 0 else 1) =
      marks text.source + t.products := by
  induction text using Fragment.shape_induction generalizing table t with
  | logarithm text inner hs ih =>
    rw [assemble_of_logarithm hs] at h
    obtain ⟨a,ha,rfl⟩ := Reading.ok_of_map h
    have hi := length_lookups_collapse ha
      (ih _ (by simp) (hst.of_part hs (by simp [Shape.parts])).collapse ha)
    rw [lookups_of_logarithm hs,marks_of_inner (.inl hs),hs,hi]
    simp only [Shape.isSingle,Expr.products,Bool.false_eq_true,if_false]
    omega
  | group text inner hs ih =>
    rw [assemble_of_group hs] at h
    have hi := length_lookups_collapse h
      (ih _ (by simp) (hst.of_part hs (by simp [Shape.parts])).collapse h)
    rw [lookups_of_group hs,marks_of_inner (.inr hs),hs,hi]
    simp only [Shape.isSingle,Bool.false_eq_true,if_false]
    omega
  | integer text negative digits hs =>
    rw [assemble_of_integer hs] at h
    rw [lookups_of_leaf (by rw [hs]; rfl) (by simp [hs]),marks_of_integer hs,hs]
    cases hv : integer? negative digits.source with
    | none =>
      rw [hv] at h
      cases h
    | some v =>
      rw [hv] at h
      cases h
      cases negative <;> rfl
  | name text letters hs =>
    rw [assemble_of_name hs] at h
    cases h
    rw [lookups_of_leaf (by rw [hs]; rfl) (by simp [hs]),marks_of_name hs,hs]
    rfl
  | reference text index content hs ih =>
    rw [assemble_of_reference hs] at h
    obtain ⟨hc,hsingle⟩ := hst.of_reference hs
    have hi := ih hc h
    rw [hsingle] at hi
    rw [lookups_of_reference hs,marks_of_reference hs,hs]
    exact hi
  | negation text operand hs ih =>
    rw [assemble_of_negation hs] at h
    obtain ⟨a,ha,rfl⟩ := Reading.ok_of_map h
    have hi := ih (hst.of_part hs (by simp [Shape.parts])) ha
    cases Fragment.formed_of_shape hs with
    | negation ho =>
      rw [Fragment.isSingle_shape_iff.mpr ho] at hi
      rw [lookups_of_negation hs,marks_of_negation hs,hs]
      simp only [Shape.isSingle,Expr.products,if_true,Bool.false_eq_true,if_false] at hi ⊢
      omega
  | operation text op left right hs ihl ihr =>
    rw [assemble_of_operation hs] at h
    obtain ⟨a,b,ha,hb,-,rfl⟩ := Reading.ok_of_join h
    have hl := ihl (hst.of_part hs (by simp [Shape.parts])) ha
    have hr := ihr (hst.of_part_after hs (by simp [Shape.parts]) (by simp [Shape.parts])) hb
    have hop := marks_symbol op
    cases Fragment.formed_of_shape hs with
    | operation _ hol hor =>
      rw [Fragment.isSingle_shape_iff.mpr hol] at hl
      rw [Fragment.isSingle_shape_iff.mpr hor] at hr
      rw [lookups_of_pair (.inl ⟨op,hs⟩) ha,marks_of_operation hs,hs,List.length_append]
      simp only [Shape.isSingle,Expr.products,if_true,Bool.false_eq_true,if_false] at hl hr ⊢
      omega
  | juxtaposition text left right hs ihl ihr =>
    rw [assemble_of_juxtaposition hs] at h
    obtain ⟨a,b,ha,hb,-,rfl⟩ := Reading.ok_of_join h
    have hl := ihl (hst.of_part hs (by simp [Shape.parts])) ha
    have hr := ihr (hst.of_part_after hs (by simp [Shape.parts]) (by simp [Shape.parts])) hb
    cases Fragment.formed_of_shape hs with
    | @juxtaposition _ x hol hx =>
      have hor : Fragment.Operand [x] := .singleton (Token.isOperand_of_second hx)
      rw [Fragment.isSingle_shape_iff.mpr hol] at hl
      rw [Fragment.isSingle_shape_iff.mpr hor] at hr
      rw [lookups_of_pair (.inr hs) ha,marks_of_juxtaposition hs,hs,List.length_append]
      simp only [Shape.isSingle,Expr.products,if_true,Bool.false_eq_true,if_false] at hl hr ⊢
      omega
  | unknown text u hs =>
    rw [assemble_of_unknown hs] at h
    cases h

/-- The numbers of the entries that are looked up while a formula is read. -/
def lookupsOf (s : String) : List Nat :=
  lookups (collapse (.ofString s) .empty).1 (collapse (.ofString s) .empty).2

section Parsed

variable {s : String} {t : Expr}

theorem read_of_parse (h : parse s = .ok t) :
    read s = assemble (collapse (.ofString s) .empty).1 (collapse (.ofString s) .empty).2 := by
  obtain ⟨ha,hp⟩ := parse_eq_ok_iff.mp h
  refine read_of_isAllowed ?_ ha
  rintro rfl
  exact absurd (parsed?_nil.symm.trans hp) nofun

theorem lookupsOf_perm (h : parse s = .ok t) :
    (lookupsOf s).Perm (List.range' 1 ((read s).table.size - 1)) := by
  rw [List.perm_iff_count]
  intro i
  have hr := read_of_parse h
  have ho : (read s).outcome = .ok t := h
  rw [hr] at ho
  have hc := count_lookups ho i
  have hadd := added_assemble_collapse (.ofString s) .empty i
  have hrefs : (Fragment.ofString s).references = [] := Fragment.references_map_char s.toList
  rw [count_references_collapse,hrefs,List.count_nil,Nat.zero_add,← hadd,← hr] at hc
  have hsize : 1 + ((read s).table.size - 1) = (read s).table.size :=
    Nat.add_sub_cancel' (Nat.succ_pos _)
  rw [lookupsOf,hc,List.count_range_1',hsize]
  rfl

theorem length_lookupsOf (h : parse s = .ok t) :
    (lookupsOf s).length = marks s.toList + t.products := by
  have ho : (read s).outcome = .ok t := h
  rw [read_of_parse h] at ho
  have hl := length_lookups (Stocked.ofString s).collapse ho
  rw [isSingle_collapse ho,source_collapse,Fragment.source_ofString] at hl
  exact hl

end Parsed

/-- The size of the table is one more than the number of marks in the formula and of products in
its expression, and this is what is noted. Every entry is looked up just once. -/
theorem table_size_of_parse {s : String} {t : Expr} (h : parse s = .ok t) :
    (read s).table.size =
        1 + s.toList.countP (fun c => c ∈ ['(', '+', '-', '/', '^']) + t.products ∧
      (lookupsOf s).Perm (List.range' 1 ((read s).table.size - 1)) ∧
      Journal.ofInput s = [.parsed s t (read s).table.size] := by
  have hl := length_lookupsOf h
  have hp := lookupsOf_perm h
  refine ⟨?_,hp,?_⟩
  · have hlen := hp.length_eq
    rw [List.length_range',hl] at hlen
    change _ = 1 + marks s.toList + t.products
    have hpos : 0 < (read s).table.size := Nat.succ_pos _
    omega
  · have ho : (read s).outcome = .ok t := h
    simp only [Journal.ofInput,tidy_of_parse h,ho]

theorem table_size_of_parse_product :
    parse "-2x(3-ln(y))^2" = .ok (.binary .times (.const (-2)) (.binary .times (.var "x")
        (.binary .power (.binary .minus (.const 3) (.ln (.var "y"))) (.const 2)))) ∧
      (read "-2x(3-ln(y))^2").table.size = 8 := by
  have h : parse "-2x(3-ln(y))^2" = .ok (.binary .times (.const (-2)) (.binary .times (.var "x")
      (.binary .power (.binary .minus (.const 3) (.ln (.var "y"))) (.const 2)))) := by cbv
  refine ⟨h,?_⟩
  rw [(table_size_of_parse h).1]
  cbv

end Formula
end Fluxion
