import Fluxion.Proofs.Stage

/-! What every text that is read looks like. Operators have their operands, parentheses are
closed, and digits right behind a letter or a group are never the end of a group or of the
text. Nothing that is set aside hides an offence against this. -/
namespace Fluxion.Formula

/-- What the text in front of a place ends with. Digits are stray where they follow a
letter, a reference or a group. -/
inductive Place
  | operator | factor | number | stray
  deriving DecidableEq

namespace Place

def isComplete : Place → Bool
  | factor | number => true
  | operator | stray => false

def digit : Place → Place
  | operator | number => number
  | factor | stray => stray

@[simp] theorem digit_digit (p : Place) : p.digit.digit = p.digit := by
  cases p <;> rfl

def next (p : Place) : Token → Option Place
  | .ref _ _ => some factor
  | .char c =>
    if c.isAlpha then some factor
    else if c.isDigit then some p.digit
    else if c = '(' ∨ c = '-' then some operator
    else if c = ')' then if p.isComplete then some factor else none
    else if p = operator then none
    else (BinaryOp.ofSymbol? c).map fun _ => operator

/-- What the first place allows, the second one allows as well. -/
def Le (p q : Place) : Prop :=
  p = q ∨ p = stray ∧ q ≠ operator ∨ p = factor ∧ q = number

theorem Le.refl (p : Place) : Le p p := .inl rfl

theorem le_of_isComplete {p : Place} (h : p.isComplete = true) : Le factor p := by
  cases p with
  | operator => cases h
  | factor => exact .refl _
  | number => exact .inr (.inr ⟨rfl,rfl⟩)
  | stray => cases h

theorem Le.isComplete {p q : Place} (h : Le p q) (hp : p.isComplete = true) :
    q.isComplete = true := by
  rcases h with rfl | ⟨rfl,-⟩ | ⟨-,rfl⟩
  · exact hp
  · cases hp
  · rfl

theorem Le.digit {p q : Place} (h : Le p q) : Le p.digit q.digit := by
  rcases h with rfl | ⟨rfl,hq⟩ | ⟨rfl,rfl⟩
  · exact .refl _
  · cases q with
    | operator => exact absurd rfl hq
    | number => exact .inr (.inl ⟨rfl,by decide⟩)
    | _ => exact .refl _
  · exact .inr (.inl ⟨rfl,by decide⟩)

theorem Le.eq_operator_iff {p q : Place} (h : Le p q) : p = operator ↔ q = operator := by
  rcases h with rfl | ⟨rfl,hq⟩ | ⟨rfl,rfl⟩
  · rfl
  · simp [hq]
  · decide

theorem Le.next {p q p' : Place} (h : Le p q) {t : Token} (hp : p.next t = some p') :
    ∃ q', q.next t = some q' ∧ Le p' q' := by
  cases t with
  | ref i a => exact ⟨p',hp,.refl p'⟩
  | char c =>
    simp only [Place.next] at hp ⊢
    split at hp
    · exact ⟨p',by simp_all,.refl p'⟩
    · split at hp
      · cases hp
        exact ⟨q.digit,by simp_all,h.digit⟩
      · split at hp
        · exact ⟨p',by simp_all,.refl p'⟩
        · split at hp
          · split at hp
            · rename_i hc
              exact ⟨p',by simp_all [h.isComplete hc],.refl p'⟩
            · cases hp
          · split at hp
            · cases hp
            · rename_i hc
              rw [h.eq_operator_iff] at hc
              exact ⟨p',by simp_all,.refl p'⟩

theorem Le.run {p q p' : Place} (h : Le p q) {text : Fragment}
    (hp : follow Place.next p text = some p') :
    ∃ q', follow Place.next q text = some q' ∧ Le p' q' := by
  induction text generalizing p q with
  | nil =>
    cases hp
    exact ⟨q,rfl,h⟩
  | cons t text ih =>
    obtain ⟨r,hr,hp⟩ := Option.bind_eq_some_iff.mp hp
    obtain ⟨r',hr',hl⟩ := h.next hr
    obtain ⟨q',hq,hl⟩ := ih hl hp
    exact ⟨q',by rw [follow_cons,hr',Option.bind_some,hq],hl⟩

theorem next_letter {t : Token} (h : t.isLetter = true) (p : Place) : p.next t = some factor := by
  cases t with
  | ref i a => cases h
  | char c =>
    have h : c.isAlpha = true := h
    simp [next,h]

theorem next_digit {t : Token} (h : t.isDigit = true) (p : Place) : p.next t = some p.digit := by
  have hl := Token.not_isLetter_of_isDigit h
  cases t with
  | ref i a => cases h
  | char c =>
    have h : c.isDigit = true := h
    have hl : c.isAlpha = false := hl
    simp [next,h,hl]

theorem next_symbol (op : BinaryOp) {p : Place} (h : p ≠ operator) :
    p.next (.char op.symbol) = some operator := by
  cases op <;> simp [next,BinaryOp.symbol,BinaryOp.ofSymbol?,h]

theorem run_letters {cs : List Char} (hn : cs ≠ []) (h : ∀ c ∈ cs, c.isAlpha = true) (p : Place) :
    follow next p (cs.map .char) = some factor :=
  follow_chars_of_start (fun _ => factor) (fun _ hc => next_letter hc p)
    (fun _ _ hc => next_letter hc factor) hn h

theorem run_digits {cs : List Char} (hn : cs ≠ []) (h : ∀ c ∈ cs, c.isDigit = true) (p : Place) :
    follow next p (cs.map .char) = some p.digit := by
  refine follow_chars_of_start (fun _ => p.digit) (fun _ hc => next_digit hc p)
    (fun _ _ hc => ?_) hn h
  rw [next_digit hc,digit_digit]

/-- An operand may stand anywhere, and where one is needed it is complete. -/
theorem run_operand {a : Fragment} (h : a.Operand) (p : Place) :
    ∃ q, follow next p a = some q ∧ q ≠ operator ∧ (p = operator → q.isComplete = true) := by
  cases h with
  | name hn hc => exact ⟨factor,run_letters hn hc p,by decide,fun _ => rfl⟩
  | number hn hc =>
    refine ⟨p.digit,run_digits hn hc p,?_,?_⟩
    · cases p <;> decide
    · rintro rfl
      rfl
  | reference i content => exact ⟨factor,rfl,by decide,fun _ => rfl⟩

end Place

/-- How many groups are open behind a token, with `depth` of them open in front. -/
def Token.depth? (depth : Nat) : Token → Option Nat
  | .char '(' => some (depth + 1)
  | .char ')' => if depth = 0 then none else some (depth - 1)
  | _ => some depth

def Fragment.depth? (depth : Nat) (text : Fragment) : Option Nat := follow Token.depth? depth text

namespace Fragment

theorem depth?_append (depth : Nat) (a b : Fragment) :
    depth? depth (a ++ b) = (depth? depth a).bind fun d => depth? d b := follow_append ..

theorem depth?_cons (depth : Nat) (t : Token) (rest : Fragment) :
    depth? depth (t :: rest) = match t with
      | .char '(' => depth? (depth + 1) rest
      | .char ')' => if depth = 0 then none else depth? (depth - 1) rest
      | _ => depth? depth rest := by
  rw [depth?,follow_cons,Token.depth?.eq_def]
  split
  · rfl
  · split <;> rfl
  · rfl

theorem depth?_flat {a : Fragment} (h : a.Flat) (depth : Nat) : depth? depth a = some depth := by
  induction a with
  | nil => rfl
  | cons t a ih =>
    have ht := h t (by simp)
    rw [depth?_cons]
    split
    · cases ht
    · cases ht
    · exact ih fun u hu => h u (by simp [hu])

theorem depth?_add {a : Fragment} {depth d : Nat} (h : depth? depth a = some d) (k : Nat) :
    depth? (depth + k) a = some (d + k) := by
  induction a generalizing depth with
  | nil =>
    cases h
    rfl
  | cons t a ih =>
    rw [depth?_cons] at h ⊢
    split
    · rw [Nat.add_right_comm]
      exact ih h
    · rename_i hz
      simp only at h
      split at h
      · cases h
      · rename_i hd
        rw [if_neg (by omega),Nat.sub_add_comm (Nat.one_le_iff_ne_zero.mpr hd)]
        exact ih h
    · split at h
      · simp_all
      · simp_all
      · exact ih h

/-- What a text that is read looks like from outside. -/
structure Sound (text : Fragment) : Prop where
  place : ∃ p, follow Place.next Place.operator text = some p ∧ p.isComplete = true
  depth : depth? 0 text = some 0
  parts (i : Nat) (content : Fragment) (h : .ref i content ∈ text) : content.assembled? ≠ none

/-- A part that may stand wherever a reference may. -/
structure Whole (a : Fragment) : Prop where
  place (p : Place) : ∃ q, follow Place.next p a = some q ∧ q.isComplete = true
  depth (d : Nat) : depth? d a = some d
  parts (i : Nat) (content : Fragment) (h : .ref i content ∈ a) : content.assembled? ≠ none

theorem parts_of_chars (cs : List Char) (i : Nat) (content : Fragment)
    (h : .ref i content ∈ cs.map Token.char) : content.assembled? ≠ none := by
  obtain ⟨c,-,hc⟩ := List.mem_map.mp h
  cases hc

theorem Operand.parts {a : Fragment} (h : a.Operand) (ha : a.assembled? ≠ none) (i : Nat)
    (content : Fragment) (hm : .ref i content ∈ a) : content.assembled? ≠ none := by
  cases h with
  | name hn hc => exact parts_of_chars _ i content hm
  | number hn hc => exact parts_of_chars _ i content hm
  | reference j c =>
    cases List.mem_singleton.mp hm
    rwa [assembled?_ref] at ha

section Whole

variable {a b inner : Fragment}

theorem whole_negation (ha : a.Operand)
    (hp : ∀ (i : Nat) (content : Fragment), .ref i content ∈ a → content.assembled? ≠ none) :
    Whole (.char '-' :: a) where
  place p := by
    obtain ⟨q,hq,-,hc⟩ := Place.run_operand ha .operator
    refine ⟨q,?_,hc rfl⟩
    rw [follow_cons,show p.next (.char '-') = some .operator by cases p <;> rfl]
    exact hq
  depth d := depth?_flat (flat_cons rfl ha.flat) d
  parts i content hm := hp i content (by simpa using hm)

theorem whole_operation (op : BinaryOp) (ha : a.Operand) (hb : b.Operand)
    (hpa : a.assembled? ≠ none) (hpb : b.assembled? ≠ none) :
    Whole (a ++ .char op.symbol :: b) where
  place p := by
    obtain ⟨q,hq,hn,-⟩ := Place.run_operand ha p
    obtain ⟨q',hq',-,hc⟩ := Place.run_operand hb .operator
    refine ⟨q',?_,hc rfl⟩
    rw [follow_append,hq,Option.bind_some,follow_cons,Place.next_symbol op hn]
    exact hq'
  depth d := by
    refine depth?_flat (fun t ht => ?_) d
    rcases List.mem_append.mp ht with ht | ht
    · exact ha.flat t ht
    · exact flat_cons (by cases op <;> rfl) hb.flat t ht
  parts i content hm := by
    rcases List.mem_append.mp hm with hm | hm
    · exact ha.parts hpa i content hm
    · rcases List.mem_cons.mp hm with hm | hm
      · cases hm
      · exact hb.parts hpb i content hm

theorem whole_juxtaposition {t : Token} (ha : a.Operand)
    (ht : t.isReference = true ∨ t.isLetter = true) (hpa : a.assembled? ≠ none)
    (hpt : assembled? [t] ≠ none) : Whole (a ++ [t]) where
  place p := by
    obtain ⟨q,hq,-,-⟩ := Place.run_operand ha p
    refine ⟨.factor,?_,rfl⟩
    rw [follow_append,hq,Option.bind_some,follow_cons]
    rcases ht with ht | ht
    · cases t with
      | char c => cases ht
      | ref i content => rfl
    · rw [Place.next_letter ht]
      rfl
  depth d := depth?_flat (ha.flat_concat ht) d
  parts i content hm := by
    rcases List.mem_append.mp hm with hm | hm
    · exact ha.parts hpa i content hm
    · rw [← List.mem_singleton.mp hm,assembled?_ref] at hpt
      exact hpt

theorem whole_group (h : inner.Sound) : Whole (.char '(' :: inner ++ [.char ')']) where
  place p := by
    obtain ⟨q,hq,hc⟩ := h.place
    refine ⟨.factor,?_,rfl⟩
    rw [List.cons_append,follow_cons,show p.next (.char '(') = some .operator by cases p <;> rfl,
      Option.bind_some,follow_append,hq,Option.bind_some,follow_cons]
    cases q <;> first | rfl | cases hc
  depth d := by
    have hi := depth?_add h.depth (d + 1)
    rw [Nat.zero_add] at hi
    rw [List.cons_append,depth?_cons,depth?_append,hi]
    rfl
  parts i content hm := h.parts i content (by simpa using hm)

theorem whole_logarithm (h : inner.Sound) :
    Whole (.char 'l' :: .char 'n' :: .char '(' :: inner ++ [.char ')']) where
  place _ := (whole_group h).place .factor
  depth d := (whole_group h).depth d
  parts i content hm := h.parts i content (by simpa using hm)

end Whole

theorem join?_ne_none {op : BinaryOp} {x y : Option Expr} (h : Expr.join? op x y ≠ none) :
    x ≠ none ∧ y ≠ none := by
  cases x with
  | none => exact absurd rfl h
  | some a =>
    cases y with
    | none => exact absurd rfl h
    | some b => exact ⟨by simp,by simp⟩

/-- What is assembled to an expression is an operand or whole, provided that the insides
of groups are sound. -/
theorem operand_or_whole {a : Fragment} (h : a.assembled? ≠ none)
    (ih : ∀ inner : Fragment, inner.length < a.length → inner.parsed? ≠ none → inner.Sound) :
    a.Operand ∨ a.Whole := by
  have hf := a.formed_shape
  have ht := a.text_shape
  generalize hs : a.shape = s at hf ht
  subst ht
  cases hf with
  | logarithm inner =>
    rw [assembled?_of_logarithm hs,ne_eq,Option.map_eq_none_iff] at h
    have hl : inner.length < (Shape.logarithm inner).text.length := by
      simp only [Shape.text,List.cons_append,List.length_cons,List.length_append]
      omega
    exact .inr (whole_logarithm (ih inner hl h))
  | group inner =>
    rw [assembled?_of_group hs] at h
    have hl : inner.length < (Shape.group inner).text.length := by
      simp only [Shape.text,List.cons_append,List.length_cons,List.length_append]
      omega
    exact .inr (whole_group (ih inner hl h))
  | @integer negative cs hn hc =>
    cases negative with
    | false => exact .inl (.number hn hc)
    | true => exact .inr (whole_negation (.number hn hc) (parts_of_chars cs))
  | name hn hc => exact .inl (.name hn hc)
  | reference i content => exact .inl (.reference i content)
  | @negation b hb =>
    rw [assembled?_of_negation hs,ne_eq,Option.map_eq_none_iff] at h
    exact .inr (whole_negation hb (hb.parts h))
  | operation op hl hr =>
    rw [assembled?_of_operation hs] at h
    exact .inr (whole_operation op hl hr (join?_ne_none h).1 (join?_ne_none h).2)
  | juxtaposition hl hr =>
    rw [assembled?_of_juxtaposition hs] at h
    exact .inr (whole_juxtaposition hl hr (join?_ne_none h).1 (join?_ne_none h).2)
  | unknown u => exact absurd (assembled?_of_unknown hs) h

theorem Operand.sound {a : Fragment} (ha : a.Operand) (h : a.assembled? ≠ none) : a.Sound where
  place := by
    obtain ⟨q,hq,-,hc⟩ := Place.run_operand ha .operator
    exact ⟨q,hq,hc rfl⟩
  depth := depth?_flat ha.flat 0
  parts := ha.parts h

theorem Whole.sound {a : Fragment} (h : a.Whole) : a.Sound :=
  ⟨h.place .operator,h.depth 0,h.parts⟩

theorem Sound.write_out {u a w : Fragment} {i : Nat} (h : Sound (u ++ .ref i a :: w))
    (ha : a.Whole) : Sound (u ++ (a ++ w)) where
  place := by
    obtain ⟨p,hp,hc⟩ := h.place
    rw [follow_append] at hp
    obtain ⟨q,hu,hp⟩ := Option.bind_eq_some_iff.mp hp
    obtain ⟨r,hr,hrc⟩ := ha.place q
    have hw : follow Place.next Place.factor w = some p := hp
    obtain ⟨p',hp',hl⟩ := (Place.le_of_isComplete hrc).run hw
    refine ⟨p',?_,hl.isComplete hc⟩
    rw [follow_append,hu,Option.bind_some,follow_append,hr,Option.bind_some,hp']
  depth := by
    have hd := h.depth
    rw [depth?_append] at hd ⊢
    obtain ⟨d,hu,hd⟩ := Option.bind_eq_some_iff.mp hd
    rw [hu,Option.bind_some,depth?_append,ha.depth]
    exact hd
  parts j c hm := by
    rcases List.mem_append.mp hm with hm | hm
    · exact h.parts j c (by simp [hm])
    · rcases List.mem_append.mp hm with hm | hm
      · exact ha.parts j c hm
      · exact h.parts j c (by simp [hm])

end Fragment

theorem Fragment.Operand.eq_of_mem {a : Fragment} (h : a.Operand) {i : Nat} {content : Fragment}
    (hm : .ref i content ∈ a) : a = [.ref i content] := by
  cases h with
  | name hn hc | number hn hc =>
    obtain ⟨c,-,he⟩ := List.mem_map.mp hm
    cases he
  | reference j c => rw [List.mem_singleton.mp hm]

/-- No match is an operand already. -/
theorem Tier.Match.not_operand {tier : Tier} {m after : Fragment} (h : tier.Match m after) :
    ¬m.Operand := by
  intro hm
  have ho := hm.isOperand
  cases h with
  | logarithm hf w => cases ho (.char '(') (by simp)
  | group hf w => cases ho (.char '(') (by simp)
  | negation ha he hp => cases ho (.char '-') (by simp)
  | cut hn ha w => cases ho (.char '-') (by simp)
  | operation op ha hb he =>
    have hs := ho (.char op.symbol) (by simp)
    rw [Scan.not_isOperand_symbol] at hs
    cases hs
  | @reference a ha i content w =>
    have he := hm.eq_of_mem (List.mem_append_right a (List.mem_singleton_self (Token.ref i content)))
    exact ha.ne_nil (by simpa using he)
  | @coefficient a x ha hn hx w =>
    obtain ⟨t,ht⟩ := List.exists_mem_of_ne_nil a ha.ne_nil
    have hl := hm.isLetter_of_mem (by simp) hx t (by simp [ht])
    rw [hn t ht] at hl
    cases hl

/-- What is read to an expression is sound. -/
theorem sound_of_parsed? {text : Fragment} (h : text.parsed? ≠ none) : text.Sound := by
  induction hn : text.length using Nat.strongRecOn generalizing text with
  | ind n ih =>
    have hi : ∀ a : Fragment, a.length ≤ text.length → ∀ inner : Fragment,
        inner.length < a.length → inner.parsed? ≠ none → inner.Sound := fun a ha inner hl hp =>
      ih _ (by omega) hp rfl
    cases hfirst : Tier.first? text with
    | none =>
      rw [Fragment.parsed?_of_none hfirst] at h
      rcases Fragment.operand_or_whole h (hi text (le_refl _)) with ho | hw
      · exact ho.sound h
      · exact hw.sound
    | some r =>
      obtain ⟨tier,site⟩ := r
      have hs := Tier.first_of_first? hfirst
      have hlen := congrArg List.length hs.cut
      rw [Fragment.parsed?_of_some hfirst 0] at h
      have hr : (site.replace (.ref 0 site.matched)).Sound :=
        ih _ (hn ▸ Tier.length_replace_lt hfirst _) h rfl
      have hm := hr.parts 0 site.matched (by simp [Site.replace])
      rw [hs.cut]
      refine hr.write_out ((Fragment.operand_or_whole hm (hi site.matched ?_)).resolve_left
        hs.match.not_operand)
      simp at hlen
      omega

end Fluxion.Formula
