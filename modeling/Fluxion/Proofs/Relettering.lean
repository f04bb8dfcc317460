import Fluxion.Proofs.Answers
import Fluxion.Proofs.Reductions
import Fluxion.Proofs.Uniformity

/-! Formulas with other letters. If a renaming keeps the calls of the logarithm, a formula is read
in the same way after it: the same parts are set aside from the same places, and the expression is
the one with other names, or the error quotes other letters. Neither the derivative nor the value
of an expression looks at the names, so exercises and verdicts stay what they are. -/
namespace Fluxion

open Formula

namespace Renaming

variable (r : Renaming)

section Places

@[simp] theorem utf8Size_char (c : Char) : (r.char c).utf8Size = c.utf8Size := by
  have hs : ∀ d : Char, d.isAlpha = true → d.utf8Size = 1 := by
    intro d hd
    have hlt := Inline.toNat_lt_of_isAllowed (isAllowed_of_isAlpha hd)
    rw [Char.utf8Size_eq_one_iff,UInt32.le_iff_toNat_le]
    exact Nat.le_of_lt_succ hlt
  cases h : c.isAlpha with
  | false => rw [r.other h]
  | true => rw [hs c h,hs _ (r.isAlpha h)]

theorem length_encode_chars (s : List Char) :
    (Text.encode (r.chars s)).length = (Text.encode s).length := by
  induction s with
  | nil => rfl
  | cons c s ih => simp [ih]

theorem length_code_fragment (text : Fragment) :
    (Inline.code (r.fragment text)).length = (Inline.code text).length := by
  rw [Inline.code,Fragment.shown,flatMap_shown_fragment,length_encode_chars]
  rfl

theorem span_site (s : Site) : Inline.span (r.site s) = Inline.span s := by
  rw [Inline.span,site,← fragment_append,length_code_fragment,length_code_fragment]
  rfl

@[simp] theorem isAllowed_char (c : Char) : isAllowed (r.char c) = isAllowed c := by
  cases h : c.isAlpha with
  | false => rw [r.other h]
  | true => rw [isAllowed_of_isAlpha h,isAllowed_of_isAlpha (r.isAlpha h)]

/-- A character that is not allowed is no letter. -/
theorem firstInvalid?_chars (offset : Nat) (s : List Char) :
    firstInvalid? offset (r.chars s) = firstInvalid? offset s := by
  induction s generalizing offset with
  | nil => rfl
  | cons c s ih =>
    simp only [chars_cons,firstInvalid?,isAllowed_char,utf8Size_char,ih]
    split
    · rfl
    · rename_i hc
      rw [r.other (Bool.eq_false_iff.mpr (mt isAllowed_of_isAlpha hc))]

end Places

section Renamed

def expr : Expr → Expr
  | .const v => .const v
  | .var name => .var (r.text name)
  | .neg a => .neg (expr a)
  | .binary op a b => .binary op (expr a) (expr b)
  | .ln a => .ln (expr a)

/-- Only the text that is no expression can have letters in it. -/
def error : ParseError → ParseError
  | .invalidExpression part => .invalidExpression (r.text part)
  | e => e

def outcome : Except ParseError Expr → Except ParseError Expr
  | .error e => .error (r.error e)
  | .ok e => .ok (r.expr e)

def reading (x : Reading) : Reading := ⟨r.outcome x.outcome, r.table x.table⟩

def reduction (x : Reduction) : Reduction := { x with fragment := r.fragment x.fragment }

theorem combine_expr (op : BinaryOp) (a b : Expr) :
    Expr.combine op (r.expr a) (r.expr b) = (Expr.combine op a b).map r.expr := by
  have hz : r.expr b = .const 0 ↔ b = .const 0 := by
    cases b <;> simp [expr]
  simp only [Expr.combine,hz]
  split <;> rfl

theorem map_reading (f : Expr → Expr) (hf : ∀ e, f (r.expr e) = r.expr (f e)) (x : Reading) :
    (r.reading x).map f = r.reading (x.map f) := by
  obtain ⟨o,table⟩ := x
  cases o with
  | error e => rfl
  | ok e =>
    rw [reading,Reading.map]
    simp only [outcome,Except.map,hf]
    rfl

theorem join_reading (op : BinaryOp) (left : Reading) {right right' : Table → Reading}
    (h : right' (r.table left.table) = r.reading (right left.table)) :
    Reading.join op (r.reading left) right' = r.reading (Reading.join op left right) := by
  obtain ⟨o,table⟩ := left
  cases o with
  | error e => rfl
  | ok a =>
    simp only [reading,outcome,Reading.join] at h ⊢
    rw [h]
    cases (right table).outcome with
    | error e => rfl
    | ok b =>
      simp only [Except.bind,combine_expr]
      cases Expr.combine op a b <;> rfl

@[simp] theorem isOk_outcome (x : Except ParseError Expr) : (r.outcome x).isOk = x.isOk := by
  cases x <;> rfl

end Renamed

end Renaming

namespace Formula

variable {r : Renaming} {text : Fragment}

theorem Shape.isInfix_of_mem_parts {s : Shape} {part : Fragment} (h : part ∈ s.parts) :
    part <:+: s.text := by
  cases s <;> simp only [parts,List.mem_cons,List.not_mem_nil,or_false] at h
  case logarithm inner =>
    subst h
    exact ⟨[.char 'l', .char 'n', .char '('],[.char ')'],rfl⟩
  case group inner =>
    subst h
    exact ⟨[.char '('],[.char ')'],rfl⟩
  case negation operand =>
    subst h
    exact (List.suffix_cons _ _).isInfix
  case operation op left right =>
    rcases h with rfl | rfl
    · exact (List.prefix_append _ _).isInfix
    · exact ⟨left ++ [.char op.symbol],[],by simp [text]⟩
  case juxtaposition left right =>
    rcases h with rfl | rfl
    · exact (List.prefix_append _ _).isInfix
    · exact (List.suffix_append _ _).isInfix

namespace Fragment

theorem keepsCalls_part {s : Shape} {part : Fragment} (h : r.KeepsCalls text.source)
    (hs : text.shape = s) (hp : part ∈ s.parts) : r.KeepsCalls part.source := by
  rw [eq_text_of_shape hs] at h
  exact h.of_part (Shape.isInfix_of_mem_parts hp)

theorem keepsCalls_content {i : Nat} {content : Fragment} (h : r.KeepsCalls text.source)
    (hs : text.shape = .reference i content) : r.KeepsCalls content.source := by
  rw [eq_text_of_shape hs] at h
  simpa [Shape.text] using h

/-- An integer has no letters. -/
theorem fragment_of_shape_integer {negative : Bool} {digits : Fragment}
    (hs : text.shape = .integer negative digits) : r.fragment text = text := by
  rw [eq_text_of_shape hs]
  cases formed_of_shape hs with
  | @integer _ cs hn hc =>
    have hd : r.fragment (cs.map .char) = cs.map .char := by
      rw [r.fragment_map_char,r.chars_eq_self fun c hm => not_isAlpha_of_isDigit (hc c hm)]
    cases negative <;> simp [Shape.text,hd]

end Fragment

theorem reductions_renamed (h : r.KeepsCalls text.source) (table : Table) :
    reductions (r.fragment text) (r.table table) = (reductions text table).map r.reduction := by
  fun_induction reductions text table with
  | case1 text table hf =>
    have hr := Tier.first?_renamed h
    rw [hf] at hr
    exact reductions_of_none hr _
  | case2 text table tier s hf ih =>
    have hr := Tier.first?_renamed h
    rw [hf] at hr
    rw [← Tier.source_replace hf table.size] at h
    have hc := ih h
    rw [← r.replace_site,r.token_ref,r.table_push] at hc
    rw [reductions_of_some hr,Renaming.size_table,Renaming.span_site]
    exact congrArg (List.cons _) hc

/-- A text with other letters is assembled to the same expression with other names, or there is the
same error, and the same parts have been set aside by then. -/
theorem assemble_renamed (h : r.KeepsCalls text.source) (table : Table) :
    assemble (r.fragment text) (r.table table) = r.reading (assemble text table) := by
  induction text using Fragment.shape_induction generalizing table with
  | logarithm text inner hs ih =>
    have hi : r.KeepsCalls inner.source := Fragment.keepsCalls_part h hs (by simp [Shape.parts])
    rw [assemble_of_logarithm (Fragment.shape_renamed h hs),assemble_of_logarithm hs,
      collapse_renamed hi,ih _ (by simp) (by rwa [source_collapse])]
    exact r.map_reading .ln (fun _ => rfl) _
  | group text inner hs ih =>
    have hi : r.KeepsCalls inner.source := Fragment.keepsCalls_part h hs (by simp [Shape.parts])
    rw [assemble_of_group (Fragment.shape_renamed h hs),assemble_of_group hs,collapse_renamed hi]
    exact ih _ (by simp) (by rwa [source_collapse]) _
  | integer text negative digits hs =>
    rw [Fragment.fragment_of_shape_integer hs,assemble_of_integer hs,assemble_of_integer hs]
    cases integer? negative digits.source <;> rfl
  | name text letters hs =>
    rw [assemble_of_name (Fragment.shape_renamed h hs),assemble_of_name hs,r.source_fragment]
    simp [Renaming.reading,Renaming.outcome,Renaming.expr,Renaming.text]
  | reference text i content hs ih =>
    rw [assemble_of_reference (Fragment.shape_renamed h hs),assemble_of_reference hs]
    exact ih (Fragment.keepsCalls_content h hs) table
  | negation text operand hs ih =>
    have ho : r.KeepsCalls operand.source := Fragment.keepsCalls_part h hs (by simp [Shape.parts])
    rw [assemble_of_negation (Fragment.shape_renamed h hs),assemble_of_negation hs,ih ho]
    exact r.map_reading .neg (fun _ => rfl) _
  | operation text op left right hs ihl ihr =>
    have hl : r.KeepsCalls left.source := Fragment.keepsCalls_part h hs (by simp [Shape.parts])
    have hr : r.KeepsCalls right.source := Fragment.keepsCalls_part h hs (by simp [Shape.parts])
    rw [assemble_of_operation (Fragment.shape_renamed h hs),assemble_of_operation hs,ihl hl]
    exact r.join_reading op _ (ihr hr _)
  | juxtaposition text left right hs ihl ihr =>
    have hl : r.KeepsCalls left.source := Fragment.keepsCalls_part h hs (by simp [Shape.parts])
    have hr : r.KeepsCalls right.source := Fragment.keepsCalls_part h hs (by simp [Shape.parts])
    rw [assemble_of_juxtaposition (Fragment.shape_renamed h hs),assemble_of_juxtaposition hs,ihl hl]
    exact r.join_reading .times _ (ihr hr _)
  | unknown text u hs =>
    rw [assemble_of_unknown (Fragment.shape_renamed h hs),assemble_of_unknown hs,r.render_fragment]
    rfl

/-- A text with other letters is assembled with the same reductions. -/
def SameReductions (r : Renaming) (text : Fragment) : Prop :=
  r.KeepsCalls text.source → ∀ table, reductionsWithin (r.fragment text) (r.table table) =
    (reductionsWithin text table).map r.reduction

namespace SameReductions

theorem of_inner {inner : Fragment}
    (hs : text.shape = .logarithm inner ∨ text.shape = .group inner)
    (hi : ∀ part : Fragment, part.source.length ≤ inner.source.length → SameReductions r part) :
    SameReductions r text := by
  intro h table
  have hk : r.KeepsCalls inner.source := by
    rcases hs with hs | hs <;> exact Fragment.keepsCalls_part h hs (by simp [Shape.parts])
  have hr : (r.fragment text).shape = .logarithm (r.fragment inner) ∨
      (r.fragment text).shape = .group (r.fragment inner) :=
    hs.imp (Fragment.shape_renamed h) (Fragment.shape_renamed h)
  have hw := hi (collapse inner table).1 (by simp) (by rwa [source_collapse])
    (collapse inner table).2
  rw [reductionsWithin_of_inner hr,reductionsWithin_of_inner hs,collapse_renamed hk,
    reductions_renamed hk,hw,List.map_append]

theorem of_pair {left right : Fragment}
    (hs : (∃ op, text.shape = .operation op left right) ∨ text.shape = .juxtaposition left right)
    (hl : SameReductions r left) (hr : SameReductions r right) : SameReductions r text := by
  intro h table
  have hk : r.KeepsCalls left.source ∧ r.KeepsCalls right.source := by
    rcases hs with ⟨op,hs⟩ | hs <;>
      exact ⟨Fragment.keepsCalls_part h hs (by simp [Shape.parts]),
        Fragment.keepsCalls_part h hs (by simp [Shape.parts])⟩
  have hs' : (∃ op, (r.fragment text).shape =
      .operation op (r.fragment left) (r.fragment right)) ∨
      (r.fragment text).shape = .juxtaposition (r.fragment left) (r.fragment right) := by
    rcases hs with ⟨op,hs⟩ | hs
    · exact .inl ⟨op,Fragment.shape_renamed h hs⟩
    · exact .inr (Fragment.shape_renamed h hs)
  rw [reductionsWithin_of_pair hs',reductionsWithin_of_pair hs,hl hk.1,assemble_renamed hk.1]
  simp only [Renaming.reading,Renaming.isOk_outcome]
  split
  · rw [hr hk.2,List.map_append]
  · rw [List.append_nil,List.append_nil]

theorem of_leaf (hp : text.shape.parts = []) (hr : ∀ i c, text.shape ≠ .reference i c) :
    SameReductions r text := by
  intro h table
  have hs := Fragment.shape_renamed h rfl
  rw [reductionsWithin_of_leaf hp hr,reductionsWithin_of_leaf]
  · rfl
  · rw [hs]
    cases hq : text.shape <;> simp_all [Shape.parts,Renaming.shape]
  · rw [hs]
    cases hq : text.shape <;> simp_all [Renaming.shape]

end SameReductions

theorem reductionsWithin_renamed (text : Fragment) : SameReductions r text := by
  induction text using Fragment.shape_induction with
  | logarithm text inner hs ih => exact .of_inner (.inl hs) ih
  | group text inner hs ih => exact .of_inner (.inr hs) ih
  | integer text negative digits hs => exact .of_leaf (by simp [hs,Shape.parts]) (by simp [hs])
  | name text letters hs => exact .of_leaf (by simp [hs,Shape.parts]) (by simp [hs])
  | reference text i content hs ih =>
    intro h table
    rw [reductionsWithin_of_reference (Fragment.shape_renamed h hs),
      reductionsWithin_of_reference hs]
    exact ih (Fragment.keepsCalls_content h hs) table
  | negation text operand hs ih =>
    intro h table
    rw [reductionsWithin_of_negation (Fragment.shape_renamed h hs),reductionsWithin_of_negation hs]
    exact ih (Fragment.keepsCalls_part h hs (by simp [Shape.parts])) table
  | operation text op left right hs ihl ihr => exact .of_pair (.inl ⟨op,hs⟩) ihl ihr
  | juxtaposition text left right hs ihl ihr => exact .of_pair (.inr hs) ihl ihr
  | unknown text u hs => exact .of_leaf (by simp [hs,Shape.parts]) (by simp [hs])

section Read

variable {s : String}

theorem ofString_text (r : Renaming) (s : String) :
    Fragment.ofString (r.text s) = r.fragment (.ofString s) := by
  rw [Fragment.ofString,Renaming.text,String.toList_ofList,Fragment.ofString,
    r.fragment_map_char]

theorem isEmpty_text (r : Renaming) (s : String) : (r.text s).isEmpty = s.isEmpty := by
  rw [Bool.eq_iff_iff,String.isEmpty_iff,String.isEmpty_iff,← String.toList_eq_nil_iff,
    ← String.toList_eq_nil_iff,Renaming.text,String.toList_ofList,Renaming.chars,
    List.map_eq_nil_iff]

theorem firstInvalid?_text (r : Renaming) (s : String) :
    firstInvalid? 0 (r.text s).toList = firstInvalid? 0 s.toList := by
  rw [Renaming.text,String.toList_ofList,r.firstInvalid?_chars]

theorem read_renamed (h : r.KeepsCalls s.toList) : read (r.text s) = r.reading (read s) := by
  have hk : r.KeepsCalls (Fragment.ofString s).source := by simpa using h
  rw [read,read,isEmpty_text,firstInvalid?_text]
  split
  · rfl
  · cases firstInvalid? 0 s.toList with
    | some x => rfl
    | none =>
      simp only [ofString_text]
      rw [← r.table_empty,collapse_renamed hk]
      exact assemble_renamed (by rwa [source_collapse]) _

theorem reductionsOf_renamed (h : r.KeepsCalls s.toList) :
    reductionsOf (r.text s) = (reductionsOf s).map r.reduction := by
  have hk : r.KeepsCalls (Fragment.ofString s).source := by simpa using h
  rw [reductionsOf,reductionsOf,isEmpty_text,firstInvalid?_text]
  split
  · rfl
  · have hc := collapse_renamed hk .empty
    have hw := reductionsWithin_renamed (r := r) (collapse (.ofString s) .empty).1
      (by rwa [source_collapse]) (collapse (.ofString s) .empty).2
    simp only [ofString_text]
    rw [r.table_empty] at hc
    rw [hc,hw,List.map_append,← reductions_renamed hk,r.table_empty]

theorem parse_renamed (h : r.KeepsCalls s.toList) :
    parse (r.text s) = r.outcome (parse s) := by
  rw [parse,read_renamed h]
  rfl

end Read

end Formula

end Fluxion
