import Fluxion.Proofs.Recognition

/-! What is read is accepted. In a text without matches there is a single operand, and a text
is accepted if it is with a reference in the place of a match. -/
namespace Fluxion.Formula

namespace Fragment

theorem le_of_depth? {a : Fragment} {d e : Nat} (h : depth? d a = some e) (hc : .char ')' ∉ a) :
    d ≤ e := by
  induction a generalizing d with
  | nil =>
    cases h
    exact le_refl _
  | cons t a ih =>
    have hc' : .char ')' ∉ a := fun hm => hc (by simp [hm])
    rw [depth?_cons] at h
    split at h
    · exact Nat.le_of_succ_le (ih h hc')
    · simp at hc
    · exact ih h hc'

theorem flat_of_depth? {text : Fragment} (h : depth? 0 text = some 0)
    (hn : Tier.group.Nowhere text) : text.Flat := by
  have hc : .char ')' ∉ text := by
    intro hc
    obtain ⟨u,w,rfl,hu⟩ := List.eq_append_cons_of_mem hc
    rw [depth?_append,depth?_flat (flat_iff.mpr ⟨hn.not_mem_open rfl,hu⟩)] at h
    cases h
  refine flat_iff.mpr ⟨fun ho => ?_,hc⟩
  obtain ⟨u,w,rfl,hu⟩ := List.eq_append_cons_of_mem ho
  rw [depth?_append,depth?_flat (flat_iff.mpr ⟨hu,by simp_all⟩)] at h
  have h : depth? 1 w = some 0 := h
  exact absurd (le_of_depth? h (by simp_all)) (by decide)

end Fragment

/-- A match neither opens nor closes a group. -/
theorem Tier.Match.depth? {tier : Tier} {m after : Fragment} (h : tier.Match m after) (d : Nat) :
    Fragment.depth? d m = some d := by
  have inside : ∀ {inner : Fragment}, inner.Flat →
      Fragment.depth? d (.char '(' :: inner ++ [.char ')']) = some d := by
    intro inner hi
    rw [List.cons_append,Fragment.depth?_cons,Fragment.depth?_append,Fragment.depth?_flat hi]
    rfl
  have flat : ∀ {a b : Fragment}, a.Flat → b.Flat → Fragment.depth? d (a ++ b) = some d := by
    intro a b ha hb
    rw [Fragment.depth?_append,Fragment.depth?_flat ha]
    exact Fragment.depth?_flat hb d
  cases h with
  | logarithm hi => exact inside hi
  | group hi => exact inside hi
  | negation ha => exact Fragment.depth?_flat (Fragment.flat_cons rfl ha.flat) d
  | cut hn ha =>
    exact Fragment.depth?_flat (Fragment.flat_cons rfl fun t ht => ha.flat t (by simp [ht])) d
  | operation op ha hb => exact flat ha.flat (Fragment.flat_cons (by cases op <;> rfl) hb.flat)
  | reference ha => exact flat ha.flat (Fragment.flat_cons rfl (List.forall_mem_nil _))
  | coefficient ha hn hx =>
    exact flat ha.flat (Fragment.flat_cons (Token.not_isParenthesis_of_isOperand
      (by simp [Token.isOperand,hx])) (List.forall_mem_nil _))

namespace Spot

variable {text : Fragment} {q : Spot}

theorem isDigit_of_nowhere (hf : text.Flat) (hn : ∀ tier : Tier, tier.Nowhere text)
    {u a w : Fragment} {t : Token} (ht : text = u ++ (a ++ t :: w)) (ha : a.Operand)
    (he : a.Ends (t :: w)) (hq : q.isExpected = false) (h : q.accepts (t :: w) = true) :
    t.isDigit = true := by
  obtain ⟨r,hr,h⟩ := accepts_cons_eq_true h
  rcases next_eq_some hr (hf t (by simp [ht])) with ⟨hx,-⟩ | ⟨c,rfl,hc,-⟩ | ⟨hx,-⟩ | ⟨-,hx,-⟩ |
    ⟨op,rfl,hop⟩
  · rw [not_isReference_of_nowhere (hn .product) ht ha] at hx
    cases hx
  · have hl : (Token.char c).isLetter = true := hc
    rw [not_isLetter_of_nowhere (hn .coefficient) ht ha he] at hl
    cases hl
  · exact hx
  · rw [hq] at hx
    cases hx
  · exfalso
    have hfront : ∃ front, r = operand front := by
      rw [sign,hq] at hop
      split at hop
      · cases hop
      · split at hop
        · exact ⟨_,(Option.some.inj hop).symm⟩
        · split at hop
          · cases hop
          · exact ⟨_,(Option.some.inj hop).symm⟩
    obtain ⟨front,rfl⟩ := hfront
    obtain ⟨t,w,rfl,hto⟩ := operand_of_accepts hf (hn .negation) (hn .power)
      (u := u ++ a ++ [.char op.symbol]) (w := w) (by simp [ht])
      (by cases op <;> simp [BinaryOp.symbol,Token.isOperator]) h
    exact Tier.operation_ne_none op ha hto w ((hn op.tier).operation (u := u) ht)

theorem digit_of_behind {a : Fragment} {x : Token} {rest : Fragment}
    (hq : (operand .nothing).Behind a q) (he : a.Ends (x :: rest)) (hx : x.isDigit = true) :
    q.digit = none ∨ q.digit = some (stray .free) := by
  cases hq with
  | @name cs letters hn hc hl =>
    rw [hl.resolve_right fun hs => by cases hs]
    simp only [digit,front]
    split
    · exact .inr rfl
    · exact .inl rfl
  | @number cs _ hn hc hs hq =>
    rw [he.not_isDigit hn hc x rfl] at hx
    cases hx
  | reference i content => exact .inr rfl

/-- A text that is accepted and has no match is a single operand. -/
theorem operand_of_nowhere (hf : text.Flat) (hn : ∀ tier : Tier, tier.Nowhere text)
    (h : (operand .nothing).accepts text = true) : text.Operand := by
  obtain ⟨t,w,rfl,ho⟩ := operand_of_accepts hf (hn .negation) (hn .power) (u := [])
    (List.nil_append text).symm (by simp) h
  obtain ⟨a,rest,ha⟩ := Pattern.exists_operand ho w
  obtain ⟨hta,hao,hae⟩ := Pattern.operand_eq_some_iff.mp ha
  cases rest with
  | nil => rwa [hta,List.append_nil]
  | cons x rest =>
    exfalso
    obtain ⟨q,hr,hq⟩ := run_operand (s := operand .nothing) rfl hao
    rw [hta,accepts_append,hr,Option.any_some] at h
    have hx := isDigit_of_nowhere hf hn (u := []) hta hao hae hq.isExpected h
    have hxo : x.isOperand = true := by simp [Token.isOperand,hx]
    obtain ⟨ds,rest',hds⟩ := Pattern.exists_operand hxo rest
    obtain ⟨htd,hdo,hde⟩ := Pattern.operand_eq_some_iff.mp hds
    have hstray := digit_of_behind hq hae hx
    rw [htd] at h
    cases hdo with
    | @name cs hn hc =>
      obtain ⟨c,cs,rfl⟩ := List.exists_cons_of_ne_nil hn
      obtain ⟨rfl,-⟩ := List.cons_eq_cons.mp htd
      have hl : (Token.char c).isLetter = true := hc c (by simp)
      rw [Token.not_isDigit_of_isLetter hl] at hx
      cases hx
    | reference i content =>
      obtain ⟨rfl,-⟩ := List.cons_eq_cons.mp htd
      cases hx
    | @number cs hne hc =>
      rw [accepts_append,run_digits hne hc] at h
      rcases hstray with hs | hs
      · rw [hs] at h
        cases h
      · rw [hs,Option.any_some] at h
        cases rest' with
        | nil => cases h
        | cons y rest' =>
          have hy := isDigit_of_nowhere hf hn (u := a) (by rw [hta,htd]) (.number hne hc) hde rfl h
          rw [hde.not_isDigit hne hc y rfl] at hy
          cases hy

end Spot

namespace Fragment

variable {text a : Fragment}

theorem Operand.accepts (h : text.Operand) : (Spot.operand .nothing).accepts text = true := by
  obtain ⟨q,hr,hq⟩ := Spot.run_operand (s := .operand .nothing) rfl h
  rw [Spot.accepts,hr,Option.any_some]
  cases hq with
  | number hn hc hs hq =>
    cases hs
    rfl
  | _ => rfl

theorem operand_concat_of_nowhere {t : Token} (hn : ∀ tier : Tier, tier.Nowhere (a ++ [t]))
    (ha : a.Operand) (ht : t.isReference = true ∨ t.isLetter = true) : Operand (a ++ [t]) := by
  rcases ht with ht | ht
  · cases t with
    | char c => cases ht
    | ref i content => exact absurd (hn .product [] _ rfl) (Tier.reference_ne_none ha i content [])
  · cases t with
    | ref i content => cases ht
    | char c =>
      cases ha with
      | @name cs hne hc =>
        have hcs : ∀ d ∈ cs ++ [c], d.isAlpha = true := by
          simpa [or_imp,forall_and] using ⟨hc,ht⟩
        simpa using @Operand.name (cs ++ [c]) (by simp) hcs
      | @number cs hne hc =>
        have hnl : ∀ t ∈ cs.map Token.char, t.isLetter = false := fun t hm =>
          Token.not_isLetter_of_isDigit (List.all_eq_true.mp (all_isDigit_of_number hc) t hm)
        exact absurd (hn .coefficient [] _ rfl)
          (Tier.coefficient_ne_none (.number hne hc) hnl ht [])
      | reference i content =>
        exact absurd (hn .coefficient [] _ rfl) (Tier.coefficient_ne_none (.reference i content)
          (List.forall_mem_singleton.mpr rfl) ht [])

theorem shape_of_nowhere (hn : ∀ tier : Tier, tier.Nowhere text) (ho : ¬text.Operand) :
    text.shape = .unknown text := by
  have minus : ∀ {a : Fragment}, a.Operand → ¬Tier.negation.Nowhere (.char '-' :: a) := by
    intro a ha hn
    exact hn.not_minus (u := []) (w := []) (by simp) ha (by simp) (by simp)
  have hform := text.formed_shape
  have ht := text.text_shape
  generalize text.shape = s at hform ht
  subst ht
  cases hform with
  | logarithm inner =>
    exact absurd (by simp) ((hn .group).not_mem_open
      (u := .char 'l' :: .char 'n' :: .char '(' :: inner) rfl)
  | group inner => exact absurd (by simp) ((hn .group).not_mem_open (u := .char '(' :: inner) rfl)
  | @integer negative cs hne hc =>
    cases negative with
    | false => exact absurd (.number hne hc) ho
    | true => exact absurd (hn .negation) (minus (.number hne hc))
  | name hne hc => exact absurd (.name hne hc) ho
  | reference i content => exact absurd (.reference i content) ho
  | negation ha => exact absurd (hn .negation) (minus ha)
  | @operation op a b ha hb =>
    obtain ⟨t,b,rfl⟩ := List.exists_cons_of_ne_nil hb.ne_nil
    exact absurd ((hn op.tier).operation (u := []) rfl)
      (Tier.operation_ne_none op ha (hb.isOperand t (by simp)) b)
  | juxtaposition ha ht => exact absurd (operand_concat_of_nowhere hn ha ht) ho
  | unknown u => rfl

theorem operand_of_parsed? (h : text.parsed? ≠ none) (hfirst : Tier.first? text = none) :
    text.Operand := by
  by_contra ho
  rw [parsed?_of_none hfirst] at h
  exact h (assembled?_of_unknown (shape_of_nowhere (Tier.nowhere_of_first? hfirst) ho))

theorem Operand.isFactor (h : a.Operand) (hn : ∀ t ∈ a, t.isLetter = false) :
    a.length = 1 ∨ a.all Token.isDigit = true := by
  cases h with
  | name hne hc => exact absurd hn (has_letter hne hc)
  | number hne hc => exact .inr (all_isDigit_of_number hc)
  | reference i content => exact .inl rfl

/-- What a match asks for by itself: it has a shape, and what it encloses is accepted. -/
def isReadable (m : Fragment) : Bool :=
  match m.shape with
  | .logarithm inner | .group inner => (Spot.operand .nothing).accepts inner
  | .unknown _ => false
  | _ => true

section Readable

variable {m inner a b : Fragment}

theorem isReadable_logarithm (h : inner.Flat) :
    isReadable (.char 'l' :: .char 'n' :: .char '(' :: inner ++ [.char ')']) =
      (Spot.operand .nothing).accepts inner := by
  rw [isReadable,shape_logarithm h]

theorem isReadable_group (h : inner.Flat) :
    isReadable (.char '(' :: inner ++ [.char ')']) = (Spot.operand .nothing).accepts inner := by
  rw [isReadable,shape_group h]

theorem isReadable_minus (h : a.Operand) : isReadable (.char '-' :: a) = true := by
  rw [isReadable,shape_minus_operand h]
  cases a.all Token.isDigit <;> rfl

theorem isReadable_operation (op : BinaryOp) (ha : a.Operand) (hb : b.Operand) :
    isReadable (a ++ .char op.symbol :: b) = true := by
  rw [isReadable,shape_operation op ha hb]

theorem isReadable_concat (ha : a.Operand) {t : Token}
    (ht : t.isReference = true ∨ t.isLetter = true) (he : a.Ends [t]) :
    isReadable (a ++ [t]) = decide (a.length = 1 ∨ a.all Token.isDigit = true) := by
  rw [isReadable,shape_concat ha ht he]
  by_cases hl : a.length = 1 ∨ a.all Token.isDigit = true
  · rw [if_pos hl,decide_eq_true hl]
  · rw [if_neg hl,decide_eq_false hl]

theorem isReadable_of_assembled? (h : m.assembled? ≠ none)
    (ih : ∀ inner : Fragment, inner.length < m.length → inner.parsed? ≠ none →
      (Spot.operand .nothing).accepts inner = true) : m.isReadable = true := by
  have hl := congrArg List.length m.text_shape
  rw [isReadable]
  cases hs : m.shape with
  | logarithm inner =>
    rw [assembled?_of_logarithm hs,ne_eq,Option.map_eq_none_iff] at h
    rw [hs,Shape.text,List.length_append,List.length_cons,List.length_cons,List.length_cons] at hl
    exact ih inner (by omega) h
  | group inner =>
    rw [assembled?_of_group hs] at h
    rw [hs,Shape.text,List.length_append,List.length_cons] at hl
    exact ih inner (by omega) h
  | unknown u => exact absurd (assembled?_of_unknown hs) h
  | _ => rfl

end Readable

end Fragment

namespace Tier.First

variable {text : Fragment} {tier : Tier} {site : Site}

/-- The first match in a text decides with what follows from a reference in its place. -/
theorem accepts_eq (hs : First text tier site) (hd : Fragment.depth? 0 text = some 0) (i : Nat)
    (content : Fragment) : (Spot.operand .nothing).accepts text =
      (site.matched.isReadable &&
        (Spot.operand .nothing).accepts (site.replace (.ref i content))) := by
  obtain ⟨before,matched,after⟩ := site
  have hcut : text = before ++ (matched ++ after) := hs.cut
  have hflat : Tier.group ∈ tier.above → text.Flat := fun hg =>
    Fragment.flat_of_depth? hd (hs.above _ hg)
  have hacc : (Spot.operand .nothing).accepts text =
      (follow Spot.next (.operand .nothing) before).any (Spot.accepts · (matched ++ after)) := by
    rw [hcut,Spot.accepts_append]
  rw [hacc,Site.replace,Spot.accepts_append]
  cases hr : follow Spot.next (.operand .nothing) before with
  | none => exact (Bool.and_false _).symm
  | some s =>
    rw [Option.any_some,Option.any_some]
    have hsit : Tier.group ∈ tier.above → Spot.Situation before s := fun hg =>
      Spot.situation_of_run hr fun t ht => hflat hg t (by simp [hcut,ht])
    have hmatch : tier.Match matched after := hs.match
    cases hmatch with
    | @logarithm inner hi =>
      rw [Fragment.isReadable_logarithm hi,List.append_assoc]
      exact Spot.accepts_logarithm s inner after i content
    | @group inner hi =>
      rw [Fragment.isReadable_group hi,List.append_assoc]
      exact Spot.accepts_group (hs.beforeCall_eq_self hi hr) inner after i content
    | negation ha he hp =>
      obtain ⟨front,rfl⟩ := hs.exists_operand (hsit (by decide))
      rw [Fragment.isReadable_minus ha,Bool.true_and]
      exact Spot.accepts_negation ha he front i content
    | cut hn ha w =>
      obtain ⟨front,rfl⟩ := hs.exists_operand (hsit (by decide))
      rw [Fragment.isReadable_minus (ha.of_concat hn),Bool.true_and]
      exact Spot.accepts_cut ha front i content
    | operation op ha hb he =>
      have hg : Tier.group ∈ op.tier.above := by cases op <;> decide
      rw [Fragment.isReadable_operation op ha hb,Bool.true_and,List.append_assoc]
      exact hs.accepts_operation (hflat hg) (hsit hg) ha hb he i content
    | @reference a ha j c =>
      rw [Fragment.isReadable_concat ha (.inl rfl) (a.ends_ref j c []),List.append_assoc]
      exact hs.accepts_reference (hsit (by decide)) ha i content
    | @coefficient a x ha hn hx =>
      rw [Fragment.isReadable_concat ha (.inr hx) (Fragment.ends_letter hn hx []),
        decide_eq_true (ha.isFactor hn),Bool.true_and,List.append_assoc]
      exact hs.accepts_coefficient (hflat (by decide)) (hsit (by decide)) ha hn hx i content

theorem depth?_replace (hs : First text tier site) (d i : Nat) (content : Fragment) :
    Fragment.depth? d (site.replace (.ref i content)) = Fragment.depth? d text := by
  rw [hs.cut,Site.replace,Fragment.depth?_append,Fragment.depth?_append]
  congr 1
  funext e
  rw [Fragment.depth?_append,hs.match.depth?]
  rfl

end Tier.First

namespace Fragment

variable {text : Fragment}

theorem accepts_of_parsed? (h : text.parsed? ≠ none) :
    (Spot.operand .nothing).accepts text = true := by
  induction hlen : text.length using Nat.strongRecOn generalizing text with
  | ind n ih =>
    cases hfirst : Tier.first? text with
    | none => exact (operand_of_parsed? h hfirst).accepts
    | some r =>
      obtain ⟨tier,site⟩ := r
      have hs := Tier.first_of_first? hfirst
      have hdepth := (sound_of_parsed? h).depth
      rw [parsed?_of_some hfirst 0] at h
      have hm : site.matched.assembled? ≠ none :=
        (sound_of_parsed? h).parts 0 site.matched (by simp [Site.replace])
      have hl := congrArg List.length hs.cut
      rw [List.length_append,List.length_append] at hl
      rw [hs.accepts_eq hdepth 0 site.matched,Bool.and_eq_true_iff]
      refine ⟨isReadable_of_assembled? hm fun inner hi hp => ih inner.length (by omega) hp rfl,?_⟩
      exact ih _ (hlen ▸ Tier.length_replace_lt hfirst _) h rfl

end Fragment

end Fluxion.Formula
