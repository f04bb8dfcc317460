import Fluxion.Proofs.Match
import Fluxion.Proofs.Outcome

/-! What matches are assembled to. The form of a match decides its shape, and so the
expression that it stands for follows from those of its operands. -/
namespace Fluxion.Formula

namespace Shape

variable {a b : Fragment}

theorem logarithm?_of_flat (h : a.Flat) : logarithm? a = none := by
  cases hl : logarithm? a with
  | none => rfl
  | some s =>
    have ht := text_of_logarithm? hl
    unfold logarithm? at hl
    split at hl
    · split at hl
      · cases hl
        have := h (.char '(') (by rw [← ht]; simp [text])
        simp [Token.isParenthesis] at this
      · cases hl
    · cases hl

theorem group?_of_flat (h : a.Flat) : group? a = none := by
  cases hg : group? a with
  | none => rfl
  | some s =>
    have ht := text_of_group? hg
    unfold group? at hg
    split at hg
    · cases hg
      have := h (.char '(') (by rw [← ht]; simp [text])
      simp [Token.isParenthesis] at this
    · cases hg

end Shape

theorem Token.not_isParenthesis_of_isOperand {t : Token} (h : t.isOperand = true) :
    t.isParenthesis = false := by
  cases t with
  | ref i a => rfl
  | char c =>
    by_cases hp : c = '(' ∨ c = ')'
    · rcases hp with rfl | rfl <;> simp [isOperand,isLetter,isDigit,isReference] at h
    · simpa [isParenthesis] using hp

namespace Fragment

variable {a b : Fragment}

theorem flat_of_isOperand (h : ∀ t ∈ a, t.isOperand = true) : a.Flat := fun t ht =>
  Token.not_isParenthesis_of_isOperand (h t ht)

theorem Operand.flat (h : a.Operand) : a.Flat := flat_of_isOperand h.isOperand

theorem Operand.flat_concat (h : a.Operand) {t : Token}
    (ht : t.isReference = true ∨ t.isLetter = true) : Flat (a ++ [t]) :=
  flat_of_isOperand (List.forall_mem_append.mpr
    ⟨h.isOperand,List.forall_mem_singleton.mpr (Token.isOperand_of_second ht)⟩)

theorem Operand.ends_nil (a : Fragment) : a.Ends [] := by
  intro x _ t ht
  cases ht

theorem operand_self (h : a.Operand) : Pattern.operand a = some (a, []) :=
  Pattern.operand_eq_some_iff.mpr ⟨by simp,h,Operand.ends_nil a⟩

@[simp] theorem source_map_char (cs : List Char) : source (cs.map .char) = cs := by
  induction cs with
  | nil => rfl
  | cons c cs ih => simp [ih]

theorem all_isDigit_of_number {cs : List Char} (h : ∀ c ∈ cs, c.isDigit = true) :
    (cs.map Token.char).all Token.isDigit = true := by
  simpa [Token.isDigit] using h

theorem all_isDigit_of_name {cs : List Char} (hn : cs ≠ []) (h : ∀ c ∈ cs, c.isAlpha = true) :
    (cs.map Token.char).all Token.isDigit = false := by
  obtain ⟨c,hc⟩ := List.exists_mem_of_ne_nil cs hn
  simpa [Token.isDigit] using ⟨c,hc,not_isDigit_of_isAlpha (h c hc)⟩

section Shapes

variable {text : Fragment}

theorem shape_of_operand? (hf : text.Flat) {s : Shape} (h : Shape.operand? text = some s) :
    text.shape = s := by
  simp [shape,Shape.logarithm?_of_flat hf,Shape.group?_of_flat hf,h]

theorem shape_of_negation? (hf : text.Flat) (ho : Shape.operand? text = none) {s : Shape}
    (h : Shape.negation? text = some s) : text.shape = s := by
  simp [shape,Shape.logarithm?_of_flat hf,Shape.group?_of_flat hf,ho,h]

theorem shape_of_operation? (hf : text.Flat) (ho : Shape.operand? text = none)
    (hn : Shape.negation? text = none) {s : Shape} (h : Shape.operation? text = some s) :
    text.shape = s := by
  simp [shape,Shape.logarithm?_of_flat hf,Shape.group?_of_flat hf,ho,hn,h]

theorem shape_of_juxtaposition? (hf : text.Flat) (ho : Shape.operand? text = none)
    (hn : Shape.negation? text = none) (hp : Shape.operation? text = none) {s : Shape}
    (h : Shape.juxtaposition? text = some s) : text.shape = s := by
  simp [shape,Shape.logarithm?_of_flat hf,Shape.group?_of_flat hf,ho,hn,hp,h]

end Shapes

theorem operand?_chars {cs : List Char} (h : Operand (cs.map .char)) :
    Shape.operand? (cs.map .char) = some (if (cs.map Token.char).all Token.isDigit then
      .integer false (cs.map .char) else .name (cs.map .char)) := by
  have hs := operand_self h
  cases cs with
  | nil => exact absurd rfl h.ne_nil
  | cons c cs =>
    simp only [List.map_cons] at hs ⊢
    simp only [Shape.operand?,hs]

theorem shape_name {cs : List Char} (hn : cs ≠ []) (hc : ∀ c ∈ cs, c.isAlpha = true) :
    shape (cs.map .char) = .name (cs.map .char) := by
  have ho := Operand.name hn hc
  have hs := operand?_chars ho
  rw [all_isDigit_of_name hn hc] at hs
  exact shape_of_operand? ho.flat hs

theorem shape_number {cs : List Char} (hn : cs ≠ []) (hc : ∀ c ∈ cs, c.isDigit = true) :
    shape (cs.map .char) = .integer false (cs.map .char) := by
  have ho := Operand.number hn hc
  have hs := operand?_chars ho
  rw [all_isDigit_of_number hc] at hs
  exact shape_of_operand? ho.flat hs

theorem shape_ref (i : Nat) (content : Fragment) :
    shape [.ref i content] = .reference i content := by
  have ho := Operand.reference i content
  have hs : Shape.operand? [.ref i content] = some (.reference i content) := by
    simp only [Shape.operand?,operand_self ho]
  exact shape_of_operand? ho.flat hs

theorem assembled?_name {cs : List Char} (hn : cs ≠ []) (hc : ∀ c ∈ cs, c.isAlpha = true) :
    assembled? (cs.map .char) = some (.var (String.ofList cs)) := by
  rw [assembled?_of_name (shape_name hn hc),source_map_char]

theorem assembled?_number {cs : List Char} (hn : cs ≠ []) (hc : ∀ c ∈ cs, c.isDigit = true) :
    assembled? (cs.map .char) = (integer? false cs).map .const := by
  rw [assembled?_of_integer (shape_number hn hc),source_map_char]

theorem assembled?_ref (i : Nat) (content : Fragment) :
    assembled? [.ref i content] = content.assembled? :=
  assembled?_of_reference (shape_ref i content)

theorem flat_cons {t : Token} (h : t.isParenthesis = false) (ha : a.Flat) : Flat (t :: a) := by
  simpa [Flat] using ⟨h,ha⟩

theorem operand?_minus (a : Fragment) : Shape.operand? (.char '-' :: a) = none := by
  have hs : Pattern.operand (.char '-' :: a) = none := by
    rw [Pattern.operand_eq_none_iff]
    simp [Token.isOperand,Token.isLetter,Token.isDigit,Token.isReference]
  simp only [Shape.operand?,hs]

/-- A minus in front of digits belongs to the constant. -/
theorem shape_minus_operand (h : a.Operand) : shape (.char '-' :: a) =
    if a.all Token.isDigit = true then .integer true a else .negation a := by
  have hs : Shape.negation? (.char '-' :: a) =
      some (if a.all Token.isDigit = true then .integer true a else .negation a) := by
    simp only [Shape.negation?,operand_self h]
  exact shape_of_negation? (flat_cons rfl h.flat) (operand?_minus a) hs

theorem shape_minus_number {cs : List Char} (hn : cs ≠ []) (hc : ∀ c ∈ cs, c.isDigit = true) :
    shape (.char '-' :: cs.map .char) = .integer true (cs.map .char) := by
  rw [shape_minus_operand (.number hn hc),if_pos (all_isDigit_of_number hc)]

theorem shape_minus (h : a.Operand) (hn : a.all Token.isDigit = false) :
    shape (.char '-' :: a) = .negation a := by
  rw [shape_minus_operand h,if_neg (by simp [hn])]

theorem assembled?_minus_number {cs : List Char} (hn : cs ≠ [])
    (hc : ∀ c ∈ cs, c.isDigit = true) :
    assembled? (.char '-' :: cs.map .char) = (integer? true cs).map .const := by
  rw [assembled?_of_integer (shape_minus_number hn hc),source_map_char]

theorem assembled?_minus (h : a.Operand) (hn : a.all Token.isDigit = false) :
    assembled? (.char '-' :: a) = a.assembled?.map .neg :=
  assembled?_of_negation (shape_minus h hn)

/-- A text in which an operand is followed by something else is no single operand, and
has no minus in front. -/
theorem not_operand_of_cut {text rest : Fragment} (h : Pattern.operand text = some (a, rest))
    (hr : rest ≠ []) : Shape.operand? text = none ∧ Shape.negation? text = none := by
  constructor
  · simp only [Shape.operand?,h]
    split <;> simp_all
  · obtain ⟨rfl,ho,-⟩ := Pattern.operand_eq_some_iff.mp h
    cases a with
    | nil => exact absurd rfl ho.ne_nil
    | cons t a =>
      have ht := ho.isOperand t (by simp)
      unfold Shape.negation?
      split
      · rename_i rest' he
        cases he
        cases ht
      · rfl

theorem shape_operation (op : BinaryOp) (ha : a.Operand) (hb : b.Operand) :
    shape (a ++ .char op.symbol :: b) = .operation op a b := by
  have hs : Pattern.operand (a ++ .char op.symbol :: b) = some (a, .char op.symbol :: b) :=
    Tier.operand_sign ha (by cases op <;> rfl) b
  obtain ⟨ho,hn⟩ := not_operand_of_cut hs (by simp)
  have hp : Shape.operation? (a ++ .char op.symbol :: b) = some (.operation op a b) := by
    simp [Shape.operation?,hs,operand_self hb]
  have hf : Flat (a ++ .char op.symbol :: b) := by
    intro t ht
    rcases List.mem_append.mp ht with ht | ht
    · exact ha.flat t ht
    · exact flat_cons (by cases op <;> rfl) hb.flat t ht
  exact shape_of_operation? hf ho hn hp

theorem assembled?_operation (op : BinaryOp) (ha : a.Operand) (hb : b.Operand) :
    assembled? (a ++ .char op.symbol :: b) = Expr.join? op a.assembled? b.assembled? :=
  assembled?_of_operation (shape_operation op ha hb)

/-- An operand and a token behind it are a product only if the operand is a factor. -/
theorem shape_concat (ha : a.Operand) {t : Token} (ht : t.isReference = true ∨ t.isLetter = true)
    (he : a.Ends [t]) : shape (a ++ [t]) =
      if a.length = 1 ∨ a.all Token.isDigit = true then .juxtaposition a [t]
      else .unknown (a ++ [t]) := by
  have hs : Pattern.operand (a ++ [t]) = some (a, [t]) :=
    Pattern.operand_eq_some_iff.mpr ⟨rfl,ha,he⟩
  obtain ⟨ho,hn⟩ := not_operand_of_cut hs (by simp)
  have hp : Shape.operation? (a ++ [t]) = none := by
    simp only [Shape.operation?,hs]
    split
    · rename_i c rest h
      cases h
      cases BinaryOp.ofSymbol? c <;> rfl
    · rfl
  have hf : Flat (a ++ [t]) := ha.flat_concat ht
  have hj : Shape.juxtaposition? (a ++ [t]) =
      if a.length = 1 ∨ a.all Token.isDigit = true then some (.juxtaposition a [t]) else none := by
    simp only [Shape.juxtaposition?,hs,ht,and_true]
  by_cases hl : a.length = 1 ∨ a.all Token.isDigit = true
  · rw [if_pos hl] at hj ⊢
    exact shape_of_juxtaposition? hf ho hn hp hj
  · rw [if_neg hl] at hj ⊢
    simp [shape,Shape.logarithm?_of_flat hf,Shape.group?_of_flat hf,ho,hn,hp,hj]

theorem shape_juxtaposition (ha : a.Operand) (hl : a.length = 1 ∨ a.all Token.isDigit = true)
    {t : Token} (ht : t.isReference = true ∨ t.isLetter = true) (he : a.Ends [t]) :
    shape (a ++ [t]) = .juxtaposition a [t] := by
  rw [shape_concat ha ht he,if_pos hl]

theorem assembled?_juxtaposition (ha : a.Operand) (hl : a.length = 1 ∨ a.all Token.isDigit = true)
    {t : Token} (ht : t.isReference = true ∨ t.isLetter = true) (he : a.Ends [t]) :
    assembled? (a ++ [t]) = Expr.join? .times a.assembled? (assembled? [t]) :=
  assembled?_of_juxtaposition (shape_juxtaposition ha hl ht he)

theorem shape_group {inner : Fragment} (h : inner.Flat) :
    shape (.char '(' :: inner ++ [.char ')']) = .group inner := by
  have hg : Shape.group? (.char '(' :: inner ++ [.char ')']) = some (.group inner) := by
    simp only [Shape.group?,Pattern.group?_flat h []]
  have hl : Shape.logarithm? (.char '(' :: inner ++ [.char ')']) = none := by
    simp [Shape.logarithm?]
  simp only [shape,hl,hg]
  rfl

theorem shape_logarithm {inner : Fragment} (h : inner.Flat) :
    shape (.char 'l' :: .char 'n' :: .char '(' :: inner ++ [.char ')']) = .logarithm inner := by
  have hl : Shape.logarithm? (.char 'l' :: .char 'n' :: .char '(' :: inner ++ [.char ')']) =
      some (.logarithm inner) := by
    have hg := Pattern.group?_flat h []
    rw [List.cons_append] at hg
    simp only [List.cons_append,Shape.logarithm?,hg]
  simp only [shape,hl]
  rfl

theorem assembled?_group {inner : Fragment} (h : inner.Flat) :
    assembled? (.char '(' :: inner ++ [.char ')']) = inner.parsed? :=
  assembled?_of_group (shape_group h)

theorem assembled?_logarithm {inner : Fragment} (h : inner.Flat) :
    assembled? (.char 'l' :: .char 'n' :: .char '(' :: inner ++ [.char ')']) =
      inner.parsed?.map .ln :=
  assembled?_of_logarithm (shape_logarithm h)

end Fragment

/-- What the parts of a shape are. -/
inductive Shape.Formed : Shape → Prop
  | logarithm (inner : Fragment) : Formed (.logarithm inner)
  | group (inner : Fragment) : Formed (.group inner)
  | integer (negative : Bool) {cs : List Char} (hn : cs ≠ []) (hc : ∀ c ∈ cs, c.isDigit = true) :
    Formed (.integer negative (cs.map .char))
  | name {cs : List Char} (hn : cs ≠ []) (hc : ∀ c ∈ cs, c.isAlpha = true) :
    Formed (.name (cs.map .char))
  | reference (i : Nat) (content : Fragment) : Formed (.reference i content)
  | negation {a : Fragment} (ha : a.Operand) : Formed (.negation a)
  | operation (op : BinaryOp) {a b : Fragment} (ha : a.Operand) (hb : b.Operand) :
    Formed (.operation op a b)
  | juxtaposition {a : Fragment} {t : Token} (ha : a.Operand)
    (ht : t.isReference = true ∨ t.isLetter = true) : Formed (.juxtaposition a [t])
  | unknown (text : Fragment) : Formed (.unknown text)

namespace Shape

variable {text : Fragment} {s : Shape}

theorem formed_operand? (h : operand? text = some s) : s.Formed := by
  unfold operand? at h
  split at h
  · cases h
    exact .reference _ _
  · rename_i a hr ho
    cases h
    obtain ⟨-,ha,-⟩ := Pattern.operand_eq_some_iff.mp ho
    cases ha with
    | name hn hc =>
      rw [Fragment.all_isDigit_of_name hn hc]
      exact .name hn hc
    | number hn hc =>
      rw [Fragment.all_isDigit_of_number hc]
      exact .integer false hn hc
    | reference i content => exact absurd rfl (hr i content)
  · cases h

theorem formed_negation? (h : negation? text = some s) : s.Formed := by
  unfold negation? at h
  split at h
  · split at h
    · rename_i a ho
      cases h
      obtain ⟨-,ha,-⟩ := Pattern.operand_eq_some_iff.mp ho
      cases ha with
      | name hn hc =>
        rw [Fragment.all_isDigit_of_name hn hc]
        exact .negation (.name hn hc)
      | number hn hc =>
        rw [Fragment.all_isDigit_of_number hc]
        exact .integer true hn hc
      | reference i content => exact .negation (.reference i content)
    · cases h
  · cases h

theorem formed_operation? (h : operation? text = some s) : s.Formed := by
  unfold operation? at h
  split at h
  · rename_i left c rest hl
    split at h
    · rename_i op right hs hr
      cases h
      obtain ⟨-,ha,-⟩ := Pattern.operand_eq_some_iff.mp hl
      obtain ⟨-,hb,-⟩ := Pattern.operand_eq_some_iff.mp hr
      exact .operation op ha hb
    · cases h
  · cases h

theorem formed_juxtaposition? (h : juxtaposition? text = some s) : s.Formed := by
  unfold juxtaposition? at h
  split at h
  · rename_i left t hl
    split at h
    · rename_i ht
      cases h
      obtain ⟨-,ha,-⟩ := Pattern.operand_eq_some_iff.mp hl
      exact .juxtaposition ha ht.2
    · cases h
  · cases h

end Shape

theorem Fragment.formed_shape (text : Fragment) : text.shape.Formed := by
  rcases text.shape_cases with h | h | h | h | h | h | h
  · unfold Shape.logarithm? at h
    split at h
    · split at h
      · rw [← Option.some.inj h]
        exact .logarithm _
      · cases h
    · cases h
  · unfold Shape.group? at h
    split at h
    · rw [← Option.some.inj h]
      exact .group _
    · cases h
  · exact Shape.formed_operand? h
  · exact Shape.formed_negation? h
  · exact Shape.formed_operation? h
  · exact Shape.formed_juxtaposition? h
  · rw [h]
    exact .unknown text

section OfShape

variable {text : Fragment} {s : Shape}

theorem Fragment.eq_text_of_shape (h : text.shape = s) : text = s.text := h ▸ text.text_shape.symm

theorem Fragment.formed_of_shape (h : text.shape = s) : s.Formed := h ▸ text.formed_shape

end OfShape

section Whole

variable {tier : Tier} {a m after : Fragment}

theorem Pattern.negation_self (ha : a.Operand) :
    negation (.char '-' :: a) = some (.char '-' :: a, []) := by
  simp only [negation,Fragment.operand_self ha]

/-- What has matched in a text is matched as a whole when it is taken out of it. -/
theorem Tier.Match.match?_self (h : tier.Match m after) : tier.match? none m = some (m, []) := by
  have hm : tier.match? none m = tier.pattern m := by
    cases tier <;> rfl
  rw [hm]
  cases h with
  | @logarithm inner hi =>
    have hg : Pattern.group (.char '(' :: inner ++ [.char ')']) =
        some (.char '(' :: inner ++ [.char ')'], []) := by
      rw [Pattern.group,Pattern.group?_flat hi]
      rfl
    have hl : ((Pattern.sign ['l']).seq (Pattern.sign ['n']))
        (.char 'l' :: .char 'n' :: .char '(' :: inner ++ [.char ')']) =
          some ([.char 'l', .char 'n'], .char '(' :: inner ++ [.char ')']) := rfl
    exact Pattern.seq_of_some hl hg
  | group hi =>
    rw [pattern,Pattern.group,Pattern.group?_flat hi]
    rfl
  | negation ha he hp => exact Pattern.negation_self ha
  | cut hn ha w => exact Pattern.negation_self (ha.of_concat hn)
  | operation op ha hb he => exact pattern_operation op ha (Fragment.operand_self hb)
  | @reference a ha i content =>
    have hl : Pattern.operand (a ++ [.ref i content]) = some (a, [.ref i content]) :=
      Pattern.operand_eq_some_iff.mpr ⟨rfl,ha,a.ends_ref i content []⟩
    exact Pattern.seq_of_some hl rfl
  | @coefficient a x ha hn hx =>
    have hl : Pattern.letter [x] = some ([x], []) := by simp [Pattern.letter,Pattern.single,hx]
    exact Pattern.seq_of_some (coefficient_factor ha hn hx []) hl

end Whole

end Fluxion.Formula
