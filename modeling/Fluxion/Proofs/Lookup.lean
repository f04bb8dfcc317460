import Fluxion.Proofs.Form

/-! References and the table. What a reference keeps is what the table has under its number,
and entries refer to older entries only. Collapsing and assembling add entries at the end
and keep this, so a part can be looked up wherever there is a reference to it. -/
namespace Fluxion.Formula

namespace Table

/-- The part that has been set aside under a number. Number 0 is the whole formula, to
which nothing refers. -/
def lookup? (table : Table) : Nat → Option Fragment
  | 0 => none
  | i + 1 => table.entries[i]?.map Entry.fragment

/-- Every reference of a text is to an entry and keeps what the entry holds. -/
def Resolves (table : Table) (text : Fragment) : Prop :=
  ∀ i content, .ref i content ∈ text → table.lookup? i = some content

/-- Every entry refers to older entries only. -/
def Ordered (table : Table) : Prop :=
  ∀ i entry, table.entries[i]? = some entry → Resolves ⟨table.entries.take i⟩ entry.fragment

/-- A later state of a table has all its entries and maybe more. -/
instance : LE Table := ⟨fun table later => table.entries <+: later.entries⟩

variable {table later : Table} {text a b : Fragment}

theorem le_refl (table : Table) : table ≤ table := List.prefix_refl table.entries

theorem le_trans {latest : Table} (h : table ≤ later) (h' : later ≤ latest) : table ≤ latest :=
  List.IsPrefix.trans h h'

theorem le_push (table : Table) (tier : Tier) (m : Fragment) : table ≤ table.push tier m :=
  List.prefix_append ..

theorem lookup?_of_le (h : table ≤ later) {i : Nat} {content : Fragment}
    (hl : table.lookup? i = some content) : later.lookup? i = some content := by
  cases i with
  | zero => cases hl
  | succ i =>
    obtain ⟨entry,he,rfl⟩ := Option.map_eq_some_iff.mp hl
    refine Option.map_eq_some_iff.mpr ⟨entry,?_,rfl⟩
    obtain ⟨new,hn⟩ : table.entries <+: later.entries := h
    obtain ⟨hi,-⟩ := List.getElem?_eq_some_iff.mp he
    rw [← hn,List.getElem?_append_left hi,he]

theorem mem_of_le (h : table ≤ later) {entry : Entry} (he : entry ∈ table.entries) :
    entry ∈ later.entries :=
  List.IsPrefix.subset h he

theorem mem_of_lookup? {i : Nat} (h : table.lookup? i = some text) :
    ∃ entry ∈ table.entries, entry.fragment = text := by
  cases i with
  | zero => cases h
  | succ i =>
    obtain ⟨entry,he,rfl⟩ := Option.map_eq_some_iff.mp h
    exact ⟨entry,List.mem_of_getElem? he,rfl⟩

theorem lookup?_push (table : Table) (tier : Tier) (m : Fragment) :
    (table.push tier m).lookup? table.size = some m := by
  simp [lookup?,push,size]

theorem resolves_chars (table : Table) (cs : List Char) : table.Resolves (cs.map .char) := by
  intro i content h
  obtain ⟨c,-,hc⟩ := List.mem_map.mp h
  cases hc

theorem Resolves.mono (h : table.Resolves text) (hl : table ≤ later) : later.Resolves text :=
  fun i content hm => lookup?_of_le hl (h i content hm)

theorem Resolves.subset (h : table.Resolves text) (hs : a ⊆ text) : table.Resolves a :=
  fun i content hm => h i content (hs hm)

theorem ordered_empty : Ordered empty := by
  intro i entry h
  cases h

theorem Ordered.push (h : table.Ordered) (ht : table.Resolves text) (tier : Tier) :
    (table.push tier text).Ordered := by
  intro i entry he
  rcases Nat.lt_or_ge i table.entries.length with hi | hi
  · rw [Table.push,List.getElem?_append_left hi] at he
    rw [Table.push,List.take_append_of_le_length hi.le]
    exact h i entry he
  · obtain ⟨rfl,rfl⟩ : i = table.entries.length ∧ ⟨tier,text⟩ = entry := by
      rw [Table.push,List.getElem?_append_right hi,List.getElem?_singleton] at he
      obtain ⟨hz,he⟩ := Option.ite_none_right_eq_some.mp he
      exact ⟨by omega,Option.some.inj he⟩
    rw [Table.push,List.take_left]
    exact ht

theorem Ordered.resolves (h : table.Ordered) {i : Nat} {content : Fragment}
    (hl : table.lookup? i = some content) : table.Resolves content := by
  cases i with
  | zero => cases hl
  | succ i =>
    obtain ⟨entry,he,rfl⟩ := Option.map_eq_some_iff.mp hl
    exact (h i entry he).mono (List.take_prefix i table.entries)

end Table

namespace Shape

def parts : Shape → List Fragment
  | logarithm inner | group inner => [inner]
  | negation operand => [operand]
  | operation _ left right | juxtaposition left right => [left, right]
  | integer _ _ | name _ | reference _ _ | unknown _ => []

theorem subset_of_mem_parts {s : Shape} {part : Fragment} (h : part ∈ s.parts) :
    part ⊆ s.text := by
  intro t ht
  cases s <;> simp only [parts,List.mem_cons,List.not_mem_nil,or_false] at h
  case logarithm | group | negation =>
    subst h
    simp [text,ht]
  case operation | juxtaposition => rcases h with rfl | rfl <;> simp [text,ht]

end Shape

/-- A text and a table in which all parts of the text can be looked up, and their parts in
their turn. -/
structure Recorded (text : Fragment) (table : Table) : Prop where
  resolves : table.Resolves text
  ordered : table.Ordered

namespace Recorded

variable {text : Fragment} {table : Table}

theorem ofString (s : String) : Recorded (.ofString s) .empty :=
  ⟨Table.resolves_chars .empty s.toList,Table.ordered_empty⟩

theorem subset {part : Fragment} (h : Recorded text table) (hs : part ⊆ text) :
    Recorded part table :=
  ⟨h.resolves.subset hs,h.ordered⟩

theorem of_part {part : Fragment} (h : Recorded text table) {s : Shape} (hs : text.shape = s)
    (hp : part ∈ s.parts) : Recorded part table :=
  h.subset (by rw [Fragment.eq_text_of_shape hs]; exact Shape.subset_of_mem_parts hp)

theorem lookup?_eq (h : Recorded text table) {i : Nat} {content : Fragment}
    (hs : text.shape = .reference i content) : table.lookup? i = some content :=
  h.resolves i content (by rw [Fragment.eq_text_of_shape hs]; exact List.mem_singleton_self _)

theorem lookup (h : Recorded text table) {i : Nat} {content : Fragment}
    (hl : table.lookup? i = some content) : Recorded content table :=
  ⟨h.ordered.resolves hl,h.ordered⟩

/-- Setting a match aside. -/
theorem replace {tier : Tier} {site : Site} (h : Recorded site.text table) :
    Recorded (site.replace (.ref table.size site.matched)) (table.push tier site.matched) := by
  have hm : table.Resolves site.matched := h.resolves.subset (by simp [Site.text])
  refine ⟨fun i content hc => ?_,h.ordered.push hm tier⟩
  have hle := table.le_push tier site.matched
  rcases List.mem_append.mp hc with hb | hc
  · exact Table.lookup?_of_le hle (h.resolves i content (by simp [Site.text,hb]))
  · rcases List.mem_cons.mp hc with hr | ha
    · cases hr
      exact table.lookup?_push tier site.matched
    · exact Table.lookup?_of_le hle (h.resolves i content (by simp [Site.text,ha]))

end Recorded

theorem le_collapse (text : Fragment) (table : Table) : table ≤ (collapse text table).2 := by
  fun_induction collapse text table with
  | case1 text table h => exact table.le_refl
  | case2 text table tier site h ih => exact Table.le_trans (table.le_push _ _) ih

theorem Recorded.collapse {text : Fragment} {table : Table} (h : Recorded text table) :
    Recorded (collapse text table).1 (collapse text table).2 := by
  fun_induction Formula.collapse text table with
  | case1 text table hf => exact h
  | case2 text table tier site hf ih =>
    obtain ⟨rfl,-⟩ := Tier.first?_cuts hf
    exact ih h.replace

namespace Reading

theorem table_join (op : BinaryOp) (left : Reading) (right : Table → Reading) :
    (join op left right).table = left.table ∨
      (join op left right).table = (right left.table).table := by
  obtain ⟨o,table⟩ := left
  cases o with
  | error e => exact .inl rfl
  | ok a => exact .inr rfl

theorem table_join_of {P : Table → Prop} {op : BinaryOp} {left : Reading} {right : Table → Reading}
    (hl : P left.table) (hr : P (right left.table).table) : P (join op left right).table := by
  rcases table_join op left right with ht | ht
  · rw [ht]
    exact hl
  · rw [ht]
    exact hr

theorem table_join_of_ok {op : BinaryOp} {left : Reading} {right : Table → Reading} {a : Expr}
    (h : left.outcome = .ok a) : (join op left right).table = (right left.table).table := by
  obtain ⟨o,table⟩ := left
  cases h
  rfl

theorem join_congr {op : BinaryOp} {left : Reading} {right right' : Table → Reading}
    (h : ∀ a, left.outcome = .ok a → right left.table = right' left.table) :
    join op left right = join op left right' := by
  obtain ⟨o,table⟩ := left
  cases o with
  | error e => rfl
  | ok a => simp only [join,h a rfl]

end Reading

/-- A table that has grown and still refers backwards only. -/
structure Table.Grown (table later : Table) : Prop where
  le : table ≤ later
  ordered : later.Ordered

namespace Table.Grown

variable {table later latest : Table}

theorem trans (h : Grown table later) (h' : Grown later latest) : Grown table latest :=
  ⟨Table.le_trans h.le h'.le,h'.ordered⟩

theorem recorded (h : Grown table later) {text : Fragment} (hr : Recorded text table) :
    Recorded text later :=
  ⟨hr.resolves.mono h.le,h.ordered⟩

theorem join {left : Reading} (h : Grown table left.table) {right : Table → Reading}
    (hr : Grown left.table (right left.table).table) (op : BinaryOp) :
    Grown table (Reading.join op left right).table :=
  Reading.table_join_of h (h.trans hr)

end Table.Grown

theorem Recorded.grown_self {text : Fragment} {table : Table} (h : Recorded text table) :
    table.Grown table :=
  ⟨table.le_refl,h.ordered⟩

theorem Recorded.grown_collapse {text : Fragment} {table : Table} (h : Recorded text table) :
    table.Grown (Formula.collapse text table).2 :=
  ⟨le_collapse text table,h.collapse.ordered⟩

theorem Recorded.grown_assemble {text : Fragment} {table : Table} (h : Recorded text table) :
    table.Grown (assemble text table).table := by
  -- The table differs from case to case: a right operand is met with what the left one has added.
  induction text using Fragment.shape_induction generalizing table with
  | logarithm text inner hs ih =>
    have hi : Recorded inner table := h.of_part hs (by simp [Shape.parts])
    rw [assemble_of_logarithm hs]
    exact hi.grown_collapse.trans (ih _ (by simp) hi.collapse)
  | group text inner hs ih =>
    have hi : Recorded inner table := h.of_part hs (by simp [Shape.parts])
    rw [assemble_of_group hs]
    exact hi.grown_collapse.trans (ih _ (by simp) hi.collapse)
  | integer text negative digits hs =>
    rw [assemble_of_integer hs]
    exact h.grown_self
  | name text letters hs =>
    rw [assemble_of_name hs]
    exact h.grown_self
  | reference text i content hs ih =>
    rw [assemble_of_reference hs]
    exact ih (h.lookup (h.lookup?_eq hs))
  | negation text operand hs ih =>
    rw [assemble_of_negation hs]
    exact ih (h.of_part hs (by simp [Shape.parts]))
  | operation text op left right hs ihl ihr =>
    have hl := ihl (h.of_part hs (by simp [Shape.parts]))
    have hr := hl.recorded (h.of_part hs (by simp [Shape.parts] : right ∈ _))
    rw [assemble_of_operation hs]
    exact hl.join (ihr hr) op
  | juxtaposition text left right hs ihl ihr =>
    have hl := ihl (h.of_part hs (by simp [Shape.parts]))
    have hr := hl.recorded (h.of_part hs (by simp [Shape.parts] : right ∈ _))
    rw [assemble_of_juxtaposition hs]
    exact hl.join (ihr hr) .times
  | unknown text u hs =>
    rw [assemble_of_unknown hs]
    exact h.grown_self

theorem Recorded.of_part_after {text left right : Fragment} {table : Table} {s : Shape}
    (h : Recorded text table) (hs : text.shape = s) (hl : left ∈ s.parts) (hr : right ∈ s.parts) :
    Recorded right (assemble left table).table :=
  (h.of_part hs hl).grown_assemble.recorded (h.of_part hs hr)

end Fluxion.Formula
