import Fluxion.Proofs.Capacity
import Fluxion.Proofs.Inline.Rules

/-! Building in place. Of a text whose references are all in the table, building looks up the parts
that the references keep, and no access of it fails. So reading in place comes to what reading
comes to, with the same parts set aside. -/
namespace Fluxion.Formula.Inline

namespace Run

variable {α β : Type}

/-- From some limit on a run comes to a value. -/
def Eventually (f : Nat → Run α) (a : α) : Prop := ∃ n, ∀ limit, n < limit → f limit = pure a

namespace Eventually

variable {f : Nat → Run α} {a : α} {g : Nat → α → Run β} {b : β}

theorem value (a : α) : Eventually (fun _ => pure a) a := ⟨0,fun _ _ => rfl⟩

theorem of_succ (h : Eventually (fun limit => f (limit + 1)) a) : Eventually f a := by
  obtain ⟨n,hn⟩ := h
  refine ⟨n + 1,fun limit hl => ?_⟩
  obtain ⟨limit,rfl⟩ := Nat.exists_eq_add_of_lt hl
  exact hn _ (by omega)

theorem access {x : Except Fault α} (hx : x = .ok a) (h : Eventually (fun limit => g limit a) b) :
    Eventually (fun limit => liftM x >>= g limit) b := by
  obtain ⟨n,hn⟩ := h
  exact ⟨n,fun limit hl => (bind_of_ok hx _).trans (hn limit hl)⟩

theorem bind (hf : Eventually f a) (hg : Eventually (fun limit => g limit a) b) :
    Eventually (fun limit => f limit >>= g limit) b := by
  obtain ⟨n,hn⟩ := hf
  obtain ⟨m,hm⟩ := hg
  exact ⟨n + m,fun limit hl => (bind_of_pure (hn limit (by omega)) _).trans (hm limit (by omega))⟩

end Eventually

end Run

/-- A text that can be built. -/
structure Ready (text : Fragment) (table : Table) : Prop where
  stocked : Stocked text table
  allowed : text.Allowed
  plain : text.Plain

namespace Ready

variable {text : Fragment} {table : Table} {s : Shape}

theorem collapse (h : Stocked text table) (ha : text.Allowed) :
    Ready (collapse text table).1 (collapse text table).2 where
  stocked := h.collapse
  allowed := by
    rw [Fragment.Allowed,source_collapse]
    exact ha
  plain := Fragment.plain_of_nowhere (Tier.nowhere_of_first? (first?_collapse text table))

theorem allowed_of_part (h : Ready text table) (hs : text.shape = s) {part : Fragment}
    (hp : part ∈ s.parts) : part.Allowed := by
  have ha := h.allowed
  rw [Fragment.eq_text_of_shape hs] at ha
  cases s <;> simp only [Shape.parts,List.mem_cons,List.not_mem_nil,or_false] at hp
  case logarithm | group | negation =>
    subst hp
    simp [Shape.text] at ha
    simp [ha]
  case operation | juxtaposition =>
    rcases hp with rfl | rfl <;> simp [Shape.text] at ha <;> simp [ha]

theorem inner (h : Ready text table) (hs : text.shape = s) {part : Fragment}
    (hp : part ∈ s.parts) : Ready (Formula.collapse part table).1 (Formula.collapse part table).2 :=
  collapse (h.stocked.of_part hs hp) (h.allowed_of_part hs hp)

theorem content (h : Ready text table) {i : Nat} {content : Fragment}
    (hs : text.shape = .reference i content) : Ready content table where
  stocked := (h.stocked.of_reference hs).1
  allowed := by
    have ha := h.allowed
    rw [Fragment.eq_text_of_shape hs] at ha
    exact (Fragment.allowed_ref.mp ha).1
  plain := by
    obtain ⟨entry,he,rfl⟩ := Table.mem_of_lookup? (h.stocked.recorded.lookup?_eq hs)
    obtain ⟨after,hm⟩ := h.stocked.matched entry he
    exact Fragment.plain_match hm

theorem operand (h : Ready text table) (hs : text.shape = s) {part : Fragment}
    (hp : part ∈ s.parts) (ho : part.Operand) : Ready part table :=
  ⟨h.stocked.of_part hs hp,h.allowed_of_part hs hp,ho.plain⟩

theorem second (h : Ready text table) (hs : text.shape = s) {left right : Fragment}
    (hl : left ∈ s.parts) (hr : right ∈ s.parts) (ho : right.Operand) :
    Ready right (assemble left table).table :=
  ⟨h.stocked.of_part_after hs hl hr,h.allowed_of_part hs hr,ho.plain⟩

end Ready

section Parts

variable {text : Fragment} {table : Table}

theorem slice_front {a c : Fragment} (ht : text = a ++ c) :
    slice text.shown 0 (code a).length = .ok a.shown :=
  slice_shown (a := []) ht rfl rfl

theorem slice_back {a b : Fragment} {start : Nat} (ht : text = a ++ b)
    (hstart : start = (code a).length) :
    slice text.shown start (code text).length = .ok b.shown :=
  slice_shown (c := []) (by rw [ht,List.append_nil]) hstart (by rw [ht])

theorem slice_inner {a b : Fragment} {start : Nat} (ht : text = a ++ b ++ [.char ')'])
    (hstart : start = (code a).length) :
    slice text.shown start ((code text).length - 1) = .ok b.shown := by
  have hc : (code [.char ')']).length = 1 := rfl
  refine slice_shown ht hstart ?_
  rw [ht,code_append _ [.char ')'],List.length_append,hc,Nat.add_sub_cancel]

theorem slice_right {op : BinaryOp} {left right : Fragment}
    (hs : text.shape = .operation op left right) :
    slice text.shown ((code left).length + 1) (code text).length = .ok right.shown := by
  have ht : text = left ++ [.char op.symbol] ++ right := by
    rw [Fragment.eq_text_of_shape hs]
    simp [Shape.text]
  have hc : (code [.char op.symbol]).length = 1 := by cases op <;> rfl
  refine slice_back ht ?_
  rw [code_append,List.length_append,hc]

theorem shown_map_char (cs : List Char) : Fragment.shown (cs.map .char) = cs := by
  simp [Fragment.shown,List.flatMap_map,Token.shown]

theorem lookup_shown (h : Recorded text table) {i : Nat} {content : Fragment}
    (hs : text.shape = .reference i content) (formula : List Char) :
    lookup text.shown (stored formula table) = .ok content.shown := by
  have hl : table.lookup? i = some content := h.lookup?_eq hs
  have ht : text.shown = ['['] ++ Decimal.ofNat i ++ [']'] := by
    rw [Fragment.eq_text_of_shape hs]
    simp [Shape.text,Token.shown]
  have hslice : slice text.shown 1 ((Text.encode text.shown).length - 1) = .ok (Decimal.ofNat i) := by
    have hcut := slice_append ['['] (Decimal.ofNat i) [']']
    have hc : (Text.encode [']']).length = 1 := rfl
    rw [ht,Text.encode_append _ [']'],List.length_append,hc,Nat.add_sub_cancel]
    exact hcut
  rw [lookup,hslice]
  cases i with
  | zero => cases hl
  | succ k =>
    obtain ⟨entry,he,rfl⟩ := Option.map_eq_some_iff.mp hl
    have hget : (stored formula table)[k + 1]? = some entry.fragment.shown := by
      simp [stored,he]
    simp only [bind,Except.bind,Decimal.toNat_ofNat,hget]
    rfl

theorem integer_shown {negative : Bool} {digits : Fragment}
    (hs : text.shape = .integer negative digits) : integer text.shown =
      (integer? negative digits.source).elim (.error (.invalidInteger text.render))
        fun v => .ok (.const v) := by
  have ht := Fragment.eq_text_of_shape hs
  cases Fragment.formed_of_shape hs with
  | @integer _ cs hn hc =>
    have hr : text.render = String.ofList text.shown := rfl
    rw [Fragment.source_map_char,hr]
    cases negative with
    | true =>
      have hm : text.shown = '-' :: cs := by
        rw [ht]
        exact congrArg ('-' :: ·) (shown_map_char cs)
      rw [hm]
      rfl
    | false =>
      have hm : text.shown = cs := by
        rw [ht]
        exact shown_map_char cs
      rw [hm,integer]
      rintro ds rfl
      cases hc '-' (by simp)

theorem name_shown {letters : Fragment} (hs : text.shape = .name letters) :
    String.ofList text.shown = String.ofList letters.source := by
  have ht := Fragment.eq_text_of_shape hs
  cases Fragment.formed_of_shape hs with
  | @name cs hn hc =>
    rw [Fragment.source_map_char,ht]
    exact congrArg String.ofList (shown_map_char cs)

theorem left_shown {left : Fragment} (h : left.Operand) :
    (left.shown.reverse.dropWhile (· == '*')).reverse = left.shown := by
  refine List.rdropWhile_eq_self_iff.mpr fun hn he => ?_
  have hm := List.getLast_mem hn
  have hstar := eq_of_beq he
  cases h with
  | @name cs _ hc | @number cs _ hc =>
    rw [hstar,shown_map_char] at hm
    cases hc _ hm
  | reference i content => simp [Token.shown] at hstar

end Parts

section Build

variable {text : Fragment} {table : Table} {s : Shape}

theorem Ready.rule_eq (h : Ready text table) (hs : text.shape = s) :
    rule (Text.encode text.shown) = .ok (ruleOf s) := hs ▸ rule_code h.allowed h.plain

theorem eventually_reduce (h : text.Allowed) (formula : List Char) (table : Table) :
    Run.Eventually (fun limit => reduce limit text.shown (stored formula table))
      ((collapse text table).1.shown, stored formula (collapse text table).2) :=
  ⟨text.length,fun _ hl => reduce_shown h formula table hl⟩

/-- Building a written text in place comes to what assembling the text comes to. -/
def InStep (formula : List Char) (text : Fragment) (table : Table) : Prop :=
  Run.Eventually (fun limit => build limit text.shown (stored formula table))
    ((assemble text table).outcome, stored formula (assemble text table).table)

/-- The right operand is come to if the left one is an expression, and with the table as it is by
then. Otherwise the error of the left one is that of both. -/
theorem eventually_join {left right : Fragment} {op : BinaryOp} {formula : List Char}
    {f : Nat → Run (Except ParseError Expr × Store)}
    {g : Nat → Except ParseError Expr × Store → Run (Except ParseError Expr × Store)}
    (hl : Run.Eventually f
      ((assemble left table).outcome, stored formula (assemble left table).table))
    (hr : InStep formula right (assemble left table).table)
    (herror : ∀ limit e store, g limit (.error e, store) = pure (.error e, store))
    (hok : ∀ limit a store, g limit (.ok a, store) =
      build limit right.shown store >>= fun r =>
        pure (r.1.bind fun b => (Expr.combine op a b).mapError .construction, r.2)) :
    Run.Eventually (fun limit => f limit >>= g limit)
      ((Reading.join op (assemble left table) (assemble right)).outcome,
        stored formula (Reading.join op (assemble left table) (assemble right)).table) := by
  refine .bind hl ?_
  rw [InStep] at hr
  revert hr
  cases assemble left table with
  | mk outcome after =>
    intro hr
    cases outcome with
    | error e =>
      simp only [herror]
      exact .value _
    | ok a =>
      simp only [hok]
      exact .bind hr (.value _)

/-- Building in place is assembling, as soon as the limit is high enough. -/
theorem build_shown (h : Ready text table) (formula : List Char) :
    ∃ n, ∀ limit, n < limit → build limit text.shown (stored formula table) =
      pure ((assemble text table).outcome, stored formula (assemble text table).table) := by
  change InStep formula text table
  induction text using Fragment.shape_induction generalizing table with
  | logarithm text inner hs ih =>
    have hp : inner ∈ (Shape.logarithm inner).parts := by simp [Shape.parts]
    have ht : text = [.char 'l', .char 'n', .char '('] ++ inner ++ [.char ')'] :=
      Fragment.eq_text_of_shape hs
    rw [InStep,assemble_of_logarithm hs]
    refine .of_succ ?_
    simp only [build]
    refine .access (h.rule_eq hs) (.access (slice_inner ht rfl) ?_)
    refine .bind (eventually_reduce (h.allowed_of_part hs hp) formula table) ?_
    exact .bind (ih _ (by simp) (h.inner hs hp)) (.value _)
  | group text inner hs ih =>
    have hp : inner ∈ (Shape.group inner).parts := by simp [Shape.parts]
    have ht : text = [.char '('] ++ inner ++ [.char ')'] := Fragment.eq_text_of_shape hs
    rw [InStep,assemble_of_group hs]
    refine .of_succ ?_
    simp only [build]
    refine .access (h.rule_eq hs) (.access (slice_inner ht rfl) ?_)
    refine .bind (eventually_reduce (h.allowed_of_part hs hp) formula table) ?_
    exact ih _ (by simp) (h.inner hs hp)
  | integer text negative digits hs =>
    rw [InStep,assemble_of_integer hs,← integer_shown hs]
    refine .of_succ ?_
    simp only [build]
    exact .access (h.rule_eq hs) (.value _)
  | name text letters hs =>
    rw [InStep,assemble_of_name hs,← name_shown hs]
    refine .of_succ ?_
    simp only [build]
    exact .access (h.rule_eq hs) (.value _)
  | reference text i content hs ih =>
    rw [InStep,assemble_of_reference hs]
    refine .of_succ ?_
    simp only [build]
    refine .access (h.rule_eq hs) (.access (lookup_shown h.stocked.recorded hs formula) ?_)
    exact ih (h.content hs)
  | negation text operand hs ih =>
    cases Fragment.formed_of_shape hs with
    | negation ho =>
      have hp : operand ∈ (Shape.negation operand).parts := by simp [Shape.parts]
      have ht : text = [.char '-'] ++ operand := Fragment.eq_text_of_shape hs
      rw [InStep,assemble_of_negation hs]
      refine .of_succ ?_
      simp only [build]
      refine .access (h.rule_eq hs) (.access (slice_back ht rfl) ?_)
      exact .bind (ih (h.operand hs hp ho)) (.value _)
  | operation text op left right hs ihl ihr =>
    cases Fragment.formed_of_shape hs with
    | operation _ hol hor =>
      have hpl : left ∈ (Shape.operation op left right).parts := by simp [Shape.parts]
      have hpr : right ∈ (Shape.operation op left right).parts := by simp [Shape.parts]
      rw [InStep,assemble_of_operation hs]
      refine .of_succ ?_
      simp only [build]
      refine .access (h.rule_eq hs) (.access (slice_front (Fragment.eq_text_of_shape hs)) ?_)
      refine eventually_join (ihl (h.operand hs hpl hol)) (ihr (h.second hs hpl hpr hor))
        (fun limit e store => rfl) fun limit a store => ?_
      exact Run.bind_of_ok (slice_right hs) _
  | juxtaposition text left right hs ihl ihr =>
    cases Fragment.formed_of_shape hs with
    | @juxtaposition _ t hol ht =>
      have hor : Fragment.Operand [t] := .singleton (Token.isOperand_of_second ht)
      have hpl : left ∈ (Shape.juxtaposition left [t]).parts := by simp [Shape.parts]
      have hpr : [t] ∈ (Shape.juxtaposition left [t]).parts := by simp [Shape.parts]
      have hl := ihl (h.operand hs hpl hol)
      rw [InStep,← left_shown hol] at hl
      rw [InStep,assemble_of_juxtaposition hs]
      refine .of_succ ?_
      simp only [build]
      refine .access (h.rule_eq hs) (.access (slice_front (Fragment.eq_text_of_shape hs)) ?_)
      refine eventually_join hl (ihr (h.second hs hpl hpr hor))
        (fun limit e store => rfl) fun limit a store => ?_
      exact Run.bind_of_ok (slice_back (Fragment.eq_text_of_shape hs) rfl) _
  | unknown text u hs =>
    rw [InStep,assemble_of_unknown hs]
    refine .of_succ ?_
    simp only [build]
    exact .access (h.rule_eq hs) (.value _)

end Build

/-- Reading a formula in place comes to an end, from some limit on, and without any fault: no
access is out of range or inside a character, and what is looked up is a part that has been set
aside by then, never the whole formula. It comes to what reading comes to, with the same parts in
its table. The numbers of the references stay below the length of the formula. -/
theorem read_without_fault (s : String) :
    (∃ n, ∀ limit, n < limit → (Inline.read limit s).run =
      some (.ok ((Formula.read s).outcome, stored s.toList (Formula.read s).table))) ∧
    (Formula.read s).table.size ≤ max 1 s.toList.length := by
  refine ⟨?_,size_read_le s⟩
  by_cases hn : s = ""
  · subst hn
    exact ⟨0,fun limit _ => rfl⟩
  have hl : s.toList.isEmpty = false := by simpa using hn
  cases hf : firstInvalid? 0 s.toList with
  | some e =>
    have he : s.isEmpty = false := by simpa using hn
    refine ⟨0,fun limit _ => ?_⟩
    simp only [Inline.read,hl,hf,Formula.read,he]
    rfl
  | none =>
    have ha : Fragment.Allowed (.ofString s) := fun c hc =>
      firstInvalid?_eq_none_iff.mp hf c (by simpa using hc)
    have hshown : (Fragment.ofString s).shown = s.toList := shown_map_char s.toList
    obtain ⟨n,hb⟩ := build_shown (Ready.collapse (.ofString s) ha) s.toList
    refine ⟨(Fragment.ofString s).length + n,fun limit hlimit => ?_⟩
    have hred : reduce limit _ _ = _ := reduce_shown ha s.toList .empty (by omega)
    rw [hshown] at hred
    rw [Inline.read,hl,hf,read_of_isAllowed hn (firstInvalid?_eq_none_iff.mp hf)]
    refine congrArg ExceptT.run ((Run.bind_of_pure hred _).trans ?_)
    exact hb limit (by omega)

end Fluxion.Formula.Inline
