import Fluxion.Proofs.Renaming

/-! Collapsing and cutting up treat letters uniformly. The first match is at the same place of a
text whatever its letters are called, so the same parts are set aside in the same order, and a
text has the shape that it has with other letters. -/
namespace Fluxion

open Formula

section Parts

variable {r : Renaming} {a b text : Fragment}

theorem Formula.Fragment.isInfix_source (h : a <:+: b) : a.source <:+: b.source := by
  obtain ⟨u,v,rfl⟩ := h
  exact ⟨Fragment.source u,Fragment.source v,by simp⟩

theorem Renaming.KeepsCalls.of_part (h : r.KeepsCalls b.source) (hi : a <:+: b) :
    r.KeepsCalls a.source :=
  h.of_isInfix (Fragment.isInfix_source hi)

end Parts

namespace Renaming

variable (r : Renaming)

def site (s : Site) : Site := ⟨r.fragment s.before, r.fragment s.matched, r.fragment s.after⟩

def entry (e : Entry) : Entry := ⟨e.tier, r.fragment e.fragment⟩

def table (table : Table) : Table := ⟨table.entries.map r.entry⟩

@[simp] theorem size_table (table : Table) : (r.table table).size = table.size := by
  simp [Renaming.table,Table.size]

@[simp] theorem table_empty : r.table .empty = .empty := rfl

@[simp] theorem table_push (table : Table) (tier : Tier) (part : Fragment) :
    r.table (table.push tier part) = (r.table table).push tier (r.fragment part) := by
  simp [Renaming.table,Table.push,entry]

@[simp] theorem replace_site (s : Site) (t : Token) :
    (r.site s).replace (r.token t) = r.fragment (s.replace t) := by
  simp [Site.replace,site]

end Renaming

section Matches

variable {r : Renaming} {text : Fragment}

namespace Formula.Tier

theorem pattern_renamed (tier : Tier) (h : r.KeepsCalls text.source) :
    tier.pattern (r.fragment text) = (tier.pattern text).map (Pattern.renamed r) := by
  cases tier with
  | logarithm => exact Pattern.logarithm_renamed h
  | group => exact Pattern.group_uniform r text
  | negation => exact Pattern.negation_uniform r text
  | power => exact Pattern.power_uniform r text
  | product => exact Pattern.product_uniform r text
  | coefficient => exact Pattern.coefficient_uniform r text
  | sum => exact Pattern.sum_uniform r text

theorem allowedAfter_renamed (tier : Tier) (previous : Option Token) :
    tier.allowedAfter (previous.map r.token) = tier.allowedAfter previous := by
  cases previous with
  | none => rfl
  | some t => cases tier <;> simp [allowedAfter]

theorem match?_renamed (tier : Tier) (previous : Option Token) (h : r.KeepsCalls text.source) :
    tier.match? (previous.map r.token) (r.fragment text) =
      (tier.match? previous text).map (Pattern.renamed r) := by
  rw [match?,match?,allowedAfter_renamed,pattern_renamed tier h]
  split <;> rfl

theorem leftmost?_renamed (tier : Tier) (previous : Option Token)
    (h : r.KeepsCalls text.source) :
    tier.leftmost? (previous.map r.token) (r.fragment text) =
      (tier.leftmost? previous text).map r.site := by
  induction text generalizing previous with
  | nil => rfl
  | cons t text ih =>
    have hm := match?_renamed tier previous h
    have hs := ih (some t) (h.of_part (List.suffix_cons t text).isInfix)
    rw [Renaming.fragment_cons] at hm ⊢
    rw [leftmost?,leftmost?,hm]
    rw [Option.map_some] at hs
    cases tier.match? previous (t :: text) with
    | some x => rfl
    | none =>
      simp only [Option.map_none,hs]
      cases tier.leftmost? (some t) text <;> rfl

theorem first?_renamed (h : r.KeepsCalls text.source) :
    first? (r.fragment text) = (first? text).map (Prod.map id r.site) := by
  unfold first?
  induction all with
  | nil => rfl
  | cons tier tiers ih =>
    have hs := leftmost?_renamed tier none h
    rw [Option.map_none] at hs
    rw [List.findSome?_cons,List.findSome?_cons,hs]
    cases tier.leftmost? none text with
    | some s => rfl
    | none => exact ih

/-- What takes the place of a match is written out as the match was. -/
theorem source_replace {tier : Tier} {s : Site} (h : first? text = some (tier, s)) (i : Nat) :
    (s.replace (.ref i s.matched)).source = text.source := by
  rw [← (first?_cuts h).1]
  simp [Site.replace,Site.text]

end Formula.Tier

/-- The same parts are set aside. -/
theorem Formula.collapse_renamed (h : r.KeepsCalls text.source) (table : Table) :
    collapse (r.fragment text) (r.table table) =
      (r.fragment (collapse text table).1, r.table (collapse text table).2) := by
  fun_induction collapse text table with
  | case1 text table hf =>
    have hr := Tier.first?_renamed h
    rw [hf] at hr
    rw [collapse_of_none hr]
  | case2 text table tier s hf ih =>
    have hr := Tier.first?_renamed h
    rw [hf] at hr
    rw [← Tier.source_replace hf table.size] at h
    have hc := ih h
    rw [← r.replace_site,r.token_ref,r.table_push] at hc
    rw [collapse_of_some hr]
    simpa [Renaming.site] using hc

end Matches

namespace Renaming

theorem ofSymbol?_of_isAlpha {c : Char} (h : c.isAlpha = true) : BinaryOp.ofSymbol? c = none := by
  refine Option.eq_none_iff_forall_ne_some.mpr fun op hop => ?_
  rw [← BinaryOp.symbol_of_ofSymbol? hop] at h
  cases op <;> cases h

theorem ofSymbol?_char (r : Renaming) (c : Char) :
    BinaryOp.ofSymbol? (r.char c) = BinaryOp.ofSymbol? c := by
  cases h : c.isAlpha with
  | false => rw [r.other h]
  | true => rw [ofSymbol?_of_isAlpha h,ofSymbol?_of_isAlpha (r.isAlpha h)]

/-- The shape of a text with other letters. -/
def shape (r : Renaming) : Shape → Shape
  | .logarithm inner => .logarithm (r.fragment inner)
  | .group inner => .group (r.fragment inner)
  | .integer negative digits => .integer negative (r.fragment digits)
  | .name letters => .name (r.fragment letters)
  | .reference index content => .reference index (r.fragment content)
  | .negation operand => .negation (r.fragment operand)
  | .operation op left right => .operation op (r.fragment left) (r.fragment right)
  | .juxtaposition left right => .juxtaposition (r.fragment left) (r.fragment right)
  | .unknown text => .unknown (r.fragment text)

end Renaming

namespace Formula.Shape

variable (r : Renaming) (text : Fragment)

theorem group?_renamed : group? (r.fragment text) = (group? text).map r.shape := by
  rw [group?,group?,Pattern.group?_uniform r text]
  cases Pattern.group? text with
  | none => rfl
  | some x =>
    obtain ⟨inner,after⟩ := x
    cases after <;> rfl

theorem logarithm?_chars (a b : Char) (text : Fragment) :
    logarithm? (.char a :: .char b :: text) = if a = 'l' ∧ b = 'n' then
      (Pattern.group? text).bind fun x => if x.2.isEmpty then some (logarithm x.1) else none
    else none := by
  split
  · rename_i h
    obtain ⟨rfl,rfl⟩ := h
    rw [logarithm?]
    cases Pattern.group? text with
    | none => rfl
    | some x =>
      obtain ⟨inner,after⟩ := x
      cases after <;> rfl
  · simp_all [logarithm?]

variable {r text} in
theorem logarithm?_renamed (h : r.KeepsCalls text.source) :
    logarithm? (r.fragment text) = (logarithm? text).map r.shape := by
  cases text with
  | nil => rfl
  | cons t text =>
    cases t with
    | ref i content => simp [logarithm?]
    | char a =>
      cases text with
      | nil => simp [logarithm?]
      | cons u text =>
        cases u with
        | ref i content => simp [logarithm?]
        | char b =>
          simp only [Renaming.fragment_cons,Renaming.token_char,logarithm?_chars,
            Pattern.group?_uniform r text]
          cases hg : Pattern.group? text with
          | none => simp
          | some x =>
            simp only [← h a b (Pattern.isInfix_call hg)]
            obtain ⟨inner,after⟩ := x
            split
            · cases after <;> rfl
            · rfl

/-- Digits stay digits, and other operands do not become digits. -/
theorem operand_or_digits (negative : Bool) (a : Fragment) (f : Fragment → Shape)
    (hf : r.shape (f a) = f (r.fragment a)) :
    (if (r.fragment a).all Token.isDigit then integer negative (r.fragment a)
      else f (r.fragment a)) =
      r.shape (if a.all Token.isDigit then integer negative a else f a) := by
  rw [r.all_fragment a r.isDigit_token]
  split
  · rfl
  · exact hf.symm

theorem operand?_renamed : operand? (r.fragment text) = (operand? text).map r.shape := by
  simp only [operand?,Pattern.operand_uniform r text]
  cases Pattern.operand text with
  | none => rfl
  | some x =>
    obtain ⟨a,after⟩ := x
    cases after with
    | cons u after => simp [Pattern.renamed]
    | nil =>
      have ha := congrArg some (operand_or_digits r false a name rfl)
      cases a with
      | nil => exact ha
      | cons t a =>
        cases t with
        | char c => simpa [Pattern.renamed] using ha
        | ref i content =>
          cases a with
          | nil => simp [Pattern.renamed,Renaming.shape]
          | cons t a => simpa [Pattern.renamed] using ha

theorem negation?_renamed : negation? (r.fragment text) = (negation? text).map r.shape := by
  cases text with
  | nil => rfl
  | cons t text =>
    cases t with
    | ref i content => simp [negation?]
    | char c =>
      by_cases hc : c = '-'
      · subst hc
        simp only [Renaming.fragment_cons,Renaming.token_char,Renaming.char_minus,negation?,
          Pattern.operand_uniform r text]
        cases Pattern.operand text with
        | none => rfl
        | some x =>
          obtain ⟨a,after⟩ := x
          cases after with
          | cons u after => rfl
          | nil => exact congrArg some (operand_or_digits r true a negation rfl)
      · simp [negation?,hc,r.char_eq_iff (c := c) (d := '-') rfl]

theorem operation?_renamed : operation? (r.fragment text) = (operation? text).map r.shape := by
  simp only [operation?,Pattern.operand_uniform r text]
  cases Pattern.operand text with
  | none => rfl
  | some x =>
    obtain ⟨left,after⟩ := x
    cases after with
    | nil => rfl
    | cons t text =>
      cases t with
      | ref i content => simp [Pattern.renamed]
      | char c =>
        simp only [Option.map_some,Pattern.renamed,Renaming.fragment_cons,Renaming.token_char,
          r.ofSymbol?_char c,Pattern.operand_uniform r text]
        cases BinaryOp.ofSymbol? c with
        | none => cases Pattern.operand text <;> rfl
        | some op =>
          cases Pattern.operand text with
          | none => rfl
          | some x =>
            obtain ⟨right,after⟩ := x
            cases after <;> rfl

theorem juxtaposition?_renamed :
    juxtaposition? (r.fragment text) = (juxtaposition? text).map r.shape := by
  have hd := fun a => r.all_fragment a r.isDigit_token
  simp only [juxtaposition?,Pattern.operand_uniform r text]
  cases Pattern.operand text with
  | none => rfl
  | some x =>
    obtain ⟨left,after⟩ := x
    cases after with
    | nil => rfl
    | cons t after =>
      cases after with
      | cons u after => rfl
      | nil =>
        simp only [Option.map_some,Pattern.renamed,Renaming.fragment_cons,Renaming.fragment_nil,
          Renaming.length_fragment,hd,Renaming.isReference_token,Renaming.isLetter_token]
        split <;> rfl

end Formula.Shape

theorem Formula.Fragment.shape_renamed {r : Renaming} {text : Fragment} {s : Shape}
    (h : r.KeepsCalls text.source) (hs : text.shape = s) : (r.fragment text).shape = r.shape s := by
  subst hs
  simp only [shape,Shape.logarithm?_renamed h,Shape.group?_renamed,Shape.operand?_renamed,
    Shape.negation?_renamed,Shape.operation?_renamed,Shape.juxtaposition?_renamed,← Option.map_or]
  generalize Option.or _ (Shape.juxtaposition? text) = x
  cases x <;> rfl

end Fluxion
