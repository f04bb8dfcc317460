import Fluxion.Proofs.Composition

/-! Runs of letters and digits. A tier has no match in a text without its signs, so the signs say
what is set aside next, and a run behind a number or a reference is used up letter by letter. -/
namespace Fluxion.Formula

namespace Pattern

variable {a rest : Fragment} {cs : List Char}

theorem sign_eq_none_of_head (hs : ∀ c ∈ cs, rest.head? ≠ some (.char c)) :
    sign cs rest = none := by
  cases hr : sign cs rest with
  | none => rfl
  | some r =>
    obtain ⟨m,after⟩ := r
    obtain ⟨c,hc,rfl,-⟩ := sign_eq_some hr
    exact absurd rfl (hs c hc)

theorem operation_eq_none (ha : a.Operand) (he : a.Ends rest)
    (hs : ∀ c ∈ cs, rest.head? ≠ some (.char c)) :
    ((operand.seq (sign cs)).seq operand) (a ++ rest) = none := by
  simp [seq,operand_eq_some_iff.mpr ⟨rfl,ha,he⟩,sign_eq_none_of_head hs]

theorem product_eq_none (ha : a.Operand) (he : a.Ends rest)
    (hs : ∀ c ∈ ['*', '/'], rest.head? ≠ some (.char c))
    (hr : ∀ t ∈ rest.head?, t.isReference = false) : product (a ++ rest) = none := by
  have href : reference rest = none := by
    cases rest with
    | nil => rfl
    | cons t rest => simp [reference,single,hr t rfl]
  simp [product,seq,orElse,operand_eq_some_iff.mpr ⟨rfl,ha,he⟩,sign_eq_none_of_head hs,href]

end Pattern

/-- Operands, with no signs between them but some. -/
def Fragment.Signed (signs : List Char) (text : Fragment) : Prop :=
  ∀ t ∈ text, t.isOperand = true ∨ ∃ c ∈ signs, t = .char c

namespace Fragment

variable {signs : List Char} {a b : Fragment}

theorem Operand.signed (h : a.Operand) (signs : List Char) : a.Signed signs :=
  fun t ht => .inl (h.isOperand t ht)

theorem not_isReference_of_mem_chars {cs : List Char} {t : Token} (h : t ∈ cs.map .char) :
    t.isReference = false := by
  obtain ⟨c,-,rfl⟩ := List.mem_map.mp h
  rfl

theorem not_isLetter_of_mem_digits {ds : List Char} (hd : ∀ c ∈ ds, c.isDigit = true) :
    ∀ t ∈ ds.map Token.char, t.isLetter = false := by
  intro t ht
  obtain ⟨d,hm,rfl⟩ := List.mem_map.mp ht
  exact Token.not_isLetter_of_isDigit (t := .char d) (hd d hm)

theorem Operand.not_isReference_of_mem_tail (h : a.Operand) {t : Token} (ht : t ∈ a.tail) :
    t.isReference = false := by
  cases h with
  | name hn hc => exact not_isReference_of_mem_chars (List.mem_of_mem_tail ht)
  | number hn hc => exact not_isReference_of_mem_chars (List.mem_of_mem_tail ht)
  | reference i content => cases ht

theorem signed_append : Signed signs (a ++ b) ↔ a.Signed signs ∧ b.Signed signs :=
  List.forall_mem_append

theorem Signed.cons {c : Char} (h : a.Signed signs) (hc : c ∈ signs) :
    Signed signs (.char c :: a) :=
  List.forall_mem_cons.mpr ⟨.inr ⟨c,hc,rfl⟩,h⟩

theorem Signed.not_mem {c : Char} (h : a.Signed signs) (ho : (Token.char c).isOperand = false)
    (hc : c ∉ signs) : .char c ∉ a := by
  intro hm
  rcases h _ hm with hm | ⟨d,hd,he⟩
  · rw [ho] at hm
    cases hm
  · cases he
    exact hc hd

theorem reference_ends (i : Nat) (content rest : Fragment) : Ends [.ref i content] rest := by
  intro x hx t _
  cases hx
  rfl

/-- An operand has no match in it. -/
theorem parsed?_operand (h : a.Operand) : a.parsed? = a.assembled? := by
  obtain ⟨f,hf⟩ := h.reads
  have hw : f.isWhole .explicit = true := by cases f <;> rfl
  refine parsed?_of_scan? (scan?_eq_some.mpr ⟨_,hf.run .explicit [],?_⟩)
  simp only [Scan.finish,settle_nil,hw,if_true,hf.value]

/-- Two operands with a sign between them. -/
theorem parsed?_operation (op : BinaryOp) (ha : a.Operand) (hb : b.Operand) :
    parsed? (a ++ .char op.symbol :: b) = Expr.join? op a.assembled? b.assembled? := by
  obtain ⟨f,hf⟩ := ha.reads
  obtain ⟨g,hg⟩ := hb.reads
  have hrun : follow (Scan.step .explicit) .init (a ++ .char op.symbol :: b) =
      some ⟨[.operation op f.value?], some g⟩ := by
    have hop : Scan.next .explicit [] f (.char op.symbol) =
        some ⟨[.operation op f.value?], none⟩ := by
      rw [Scan.next_sign]
      cases f <;> simp [Scan.operate,Factor.isWhole]
    rw [follow_append,Scan.init,hf.run,Option.bind_some,follow_cons,Scan.step_some,hop,
      Option.bind_some,hg.run]
  refine parsed?_of_scan? (scan?_eq_some.mpr ⟨_,hrun,?_⟩)
  rw [← hf.value,← hg.value]
  cases op <;> cases g <;> rfl

end Fragment

namespace Tier

variable {tier : Tier} {text before m after : Fragment} {previous : Option Token}

/-- The signs without which a tier does not match, except between factors. -/
def signs : Tier → List Char
  | logarithm | group => ['(']
  | negation => ['-']
  | power => ['^']
  | product => ['*', '/']
  | coefficient => []
  | sum => ['+', '-']

theorem Match.sign_mem (h : tier.Match m after) :
    (∃ c ∈ tier.signs, .char c ∈ m) ∨
      (tier = .product ∧ ∃ a i content, a ≠ [] ∧ m = a ++ [.ref i content]) ∨
      tier = .coefficient ∧ ∃ a x, a ≠ [] ∧ x.isLetter = true ∧ m = a ++ [x] := by
  cases h with
  | logarithm hi => exact .inl ⟨'(',by decide,by simp⟩
  | group hi => exact .inl ⟨'(',by decide,by simp⟩
  | negation ha => exact .inl ⟨'-',by decide,by simp⟩
  | cut hn ha => exact .inl ⟨'-',by decide,by simp⟩
  | operation op ha hb => exact .inl ⟨op.symbol,by cases op <;> decide,by simp⟩
  | reference ha i content => exact .inr (.inl ⟨rfl,_,i,content,ha.ne_nil,rfl⟩)
  | coefficient ha hn hx => exact .inr (.inr ⟨rfl,_,_,ha.ne_nil,hx,rfl⟩)

theorem nowhere_of_match (h : ∀ u m after, text = u ++ (m ++ after) → ¬tier.Match m after) :
    tier.Nowhere text := by
  intro u v ht
  cases hm : tier.match? u.getLast? v with
  | none => rfl
  | some r =>
    obtain ⟨m,after⟩ := r
    obtain ⟨rfl,-⟩ := tier.match?_cuts _ _ _ _ hm
    unfold match? at hm
    split at hm
    · exact absurd (match_of_pattern hm) (h u m after ht)
    · cases hm

theorem not_isOperand_of_mem_signs {c : Char} (h : c ∈ tier.signs) :
    (Token.char c).isOperand = false := by
  cases tier with
  | product | sum => rcases List.mem_pair.mp h with rfl | rfl <;> rfl
  | coefficient => cases h
  | _ =>
    rw [List.mem_singleton.mp h]
    rfl

theorem nowhere_of_signed {signs : List Char} (h : text.Signed signs)
    (hs : ∀ c ∈ tier.signs, c ∉ signs)
    (hr : tier = product → ∀ t ∈ text.tail, t.isReference = false)
    (hl : tier = coefficient → ∀ t ∈ text.tail, t.isLetter = false) : tier.Nowhere text := by
  have last : ∀ {u a : Fragment} {x : Token} {after : Fragment}, a ≠ [] →
      x ∈ (u ++ ((a ++ [x]) ++ after)).tail := by
    intro u a x after ha
    obtain ⟨t,a,rfl⟩ := List.exists_cons_of_ne_nil ha
    cases u <;> simp
  refine nowhere_of_match fun u m after ht hm => ?_
  rcases hm.sign_mem with ⟨c,hc,hmem⟩ | ⟨hp,a,i,content,ha,rfl⟩ | ⟨hp,a,x,ha,hx,rfl⟩
  · exact h.not_mem (not_isOperand_of_mem_signs hc) (hs c hc) (by simp [ht,hmem])
  · cases hr hp (.ref i content) (by rw [ht]; exact last ha)
  · rw [hl hp x (by rw [ht]; exact last ha)] at hx
    cases hx

theorem nowhere_logarithm_of_tail (h : .char '(' ∉ text.tail) : logarithm.Nowhere text := by
  refine nowhere_of_match fun u m after ht hm => ?_
  generalize he : Tier.logarithm = tier at hm
  cases hm with
  | logarithm hi =>
    refine h ?_
    rw [ht]
    cases u <;> simp
  | operation op => cases op <;> cases he
  | _ => cases he

/-- Nothing binds more tightly than powers and products where there are no signs for it. -/
theorem nowhere_above {signs : List Char} (h : text.Signed signs)
    (hs : ∀ higher ∈ tier.above, ∀ c ∈ higher.signs, c ∉ signs)
    (hp : product ∉ tier.above) (hc : coefficient ∉ tier.above) :
    ∀ higher ∈ tier.above, higher.Nowhere text := fun higher hh =>
  nowhere_of_signed h (hs higher hh) (fun he => absurd (he ▸ hh) hp)
    fun he => absurd (he ▸ hh) hc

section Place

variable {rest : Fragment}

theorem leftmost?_of_match
    (hm : tier.match? (before.getLast?.or previous) rest = some (m, after))
    (hl : ∀ u v, before = u ++ v → v ≠ [] →
      tier.match? (u.getLast?.or previous) (v ++ rest) = none) :
    tier.leftmost? previous (before ++ rest) = some ⟨before, m, after⟩ := by
  induction before generalizing previous with
  | nil =>
    cases rest with
    | nil => cases (match?_nil tier _).symm.trans hm
    | cons t rest =>
      have hm : tier.match? previous (t :: rest) = some (m, after) := hm
      rw [List.nil_append,leftmost?_cons,hm]
      rfl
  | cons t before ih =>
    have hn : tier.match? previous (t :: (before ++ rest)) = none :=
      hl [] (t :: before) rfl (by simp)
    have hs : tier.leftmost? (some t) (before ++ rest) = some ⟨before, m, after⟩ := by
      refine ih (by rwa [← getLast?_cons_or]) fun u v hb hv => ?_
      rw [← getLast?_cons_or]
      exact hl (t :: u) v (by rw [hb,List.cons_append]) hv
    rw [List.cons_append,leftmost?_cons,hn,hs]
    rfl

theorem first?_of_match (hm : tier.match? before.getLast? rest = some (m, after))
    (hl : ∀ u v, before = u ++ v → v ≠ [] → tier.match? u.getLast? (v ++ rest) = none)
    (ha : ∀ higher ∈ tier.above, higher.Nowhere (before ++ rest)) :
    first? (before ++ rest) = some (tier, ⟨before, m, after⟩) :=
  first?_eq_some_iff.mpr ⟨leftmost?_of_match (by simpa using hm) (by simpa using hl),ha⟩

theorem first?_of_start (hm : tier.match? none text = some (m, after))
    (ha : ∀ higher ∈ tier.above, higher.Nowhere text) :
    first? text = some (tier, ⟨[], m, after⟩) := by
  have hl : ∀ u v : Fragment, [] = u ++ v → v ≠ [] → tier.match? u.getLast? (v ++ text) = none :=
    fun u v hu hv => absurd (List.append_eq_nil_iff.mp hu.symm).2 hv
  exact first?_of_match hm hl ha

end Place

end Tier

end Fluxion.Formula
