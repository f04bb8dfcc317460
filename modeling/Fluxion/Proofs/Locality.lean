import Fluxion.Proofs.Language

/-! Matches in a text that is the first part of a longer one. Where no match reaches over the
place at which two texts meet, the first match is that of the first text, or else that of the
second one. -/
namespace Fluxion.Formula

namespace Site

def extend (s : Site) (w : Fragment) : Site := { s with after := s.after ++ w }

def shift (s : Site) (u : Fragment) : Site := { s with before := u ++ s.before }

@[simp] theorem replace_extend (s : Site) (w : Fragment) (t : Token) :
    (s.extend w).replace t = s.replace t ++ w := by
  simp [extend,replace]

@[simp] theorem replace_shift (s : Site) (u : Fragment) (t : Token) :
    (s.shift u).replace t = u ++ s.replace t := by
  simp [shift,replace]

@[simp] theorem matched_extend (s : Site) (w : Fragment) : (s.extend w).matched = s.matched := rfl

@[simp] theorem matched_shift (s : Site) (u : Fragment) : (s.shift u).matched = s.matched := rfl

end Site

namespace Pattern

variable {a b : Fragment} {p q : Pattern}

def extend (b : Fragment) (r : Fragment × Fragment) : Fragment × Fragment := (r.1, r.2 ++ b)

/-- From no place of the first text the pattern sees the second one. -/
def Apart (p : Pattern) (a b : Fragment) : Prop :=
  ∀ u w, a = u ++ w → p (w ++ b) = (p w).map (extend b)

theorem single_cons_append (c : Token → Bool) (t : Token) (w b : Fragment) :
    single c (t :: (w ++ b)) = (single c (t :: w)).map (extend b) := by
  simp only [single]
  split <;> rfl

theorem single_apart {c : Token → Bool} (h : ∀ t ∈ b.head?, c t = false) :
    (single c).Apart a b := by
  rintro u (_ | ⟨t,w⟩) -
  · cases b with
    | nil => rfl
    | cons x b => simp [single,h x rfl]
  · exact single_cons_append c t w b

theorem run_apart {c : Token → Bool} (h : ∀ t ∈ b.head?, c t = false) : (run c).Apart a b := by
  intro u w _
  cases hr : run c w with
  | none =>
    rw [run_eq_none_iff] at hr
    refine run_eq_none_iff.mpr fun t ht => ?_
    cases w with
    | nil => exact h t ht
    | cons x w => exact hr t ht
  | some r =>
    obtain ⟨m,rest⟩ := r
    obtain ⟨rfl,hn,hm,hrest⟩ := run_eq_some_iff.mp hr
    refine run_eq_some_iff.mpr ⟨by simp,hn,hm,fun t ht => ?_⟩
    cases rest with
    | nil => exact h t ht
    | cons x rest => exact hrest t ht

theorem orElse_apart (hp : p.Apart a b) (hq : q.Apart a b) : (p.orElse q).Apart a b := by
  intro u w hw
  simp only [orElse,hp u w hw,hq u w hw]
  cases p w <;> rfl

theorem seq_apart {n : Nat} (hc : p.Cuts n) (hp : p.Apart a b) (hq : q.Apart a b) :
    (p.seq q).Apart a b := by
  intro u w hw
  simp only [seq,hp u w hw]
  cases hr : p w with
  | none => rfl
  | some r =>
    obtain ⟨m,rest⟩ := r
    obtain ⟨rfl,-⟩ := hc _ _ _ hr
    simp only [Option.map_some,extend,hq (u ++ m) rest (by simp [hw])]
    cases q rest <;> simp [extend]

theorem sign_apart {cs : List Char} (h : ∀ c ∈ cs, b.head? ≠ some (.char c)) :
    (sign cs).Apart a b := by
  refine single_apart fun t ht => ?_
  cases t with
  | char c => simpa using fun hc => h c hc ht
  | ref i content => rfl

theorem operand_apart (h : ∀ t ∈ b.head?, t.isOperand = false) : operand.Apart a b := by
  simp only [Token.isOperand,Bool.or_eq_false_iff] at h
  exact orElse_apart (run_apart fun t ht => (h t ht).1.1)
    (orElse_apart (run_apart fun t ht => (h t ht).1.2) (single_apart fun t ht => (h t ht).2))

theorem not_flat_of_depth? {u w : Fragment} (h : Fragment.depth? 0 (u ++ .char '(' :: w) = some 0) :
    ¬w.Flat := by
  intro hf
  rw [Fragment.depth?_append] at h
  obtain ⟨d,-,h⟩ := Option.bind_eq_some_iff.mp h
  rw [Fragment.depth?_cons,Fragment.depth?_flat hf] at h
  cases h

theorem exists_parenthesis {w : Fragment} (h : ¬w.Flat) :
    ∃ inner rest : Fragment, inner.Flat ∧
      (w = inner ++ .char '(' :: rest ∨ w = inner ++ .char ')' :: rest) := by
  induction w with
  | nil => exact absurd (List.forall_mem_nil _) h
  | cons t w ih =>
    cases ht : t.isParenthesis with
    | true =>
      refine ⟨[],w,List.forall_mem_nil _,?_⟩
      cases t with
      | ref i content => cases ht
      | char c => simpa [Token.isParenthesis] using ht
    | false =>
      obtain ⟨inner,rest,hi,hw⟩ := ih fun hw => h (Fragment.flat_cons ht hw)
      refine ⟨t :: inner,rest,Fragment.flat_cons ht hi,?_⟩
      rcases hw with rfl | rfl
      · exact .inl rfl
      · exact .inr rfl

theorem group?_open {inner : Fragment} (h : inner.Flat) (rest : Fragment) :
    group? (.char '(' :: (inner ++ .char '(' :: rest)) = none := by
  cases hg : group? (.char '(' :: (inner ++ .char '(' :: rest)) with
  | none => rfl
  | some r =>
    obtain ⟨inner',after⟩ := r
    obtain ⟨he,hi⟩ := group?_eq_some hg
    rw [List.cons_append,List.cons_inj_right] at he
    have ht := congrArg (List.find? Token.isParenthesis) he
    have hn : ∀ {a : Fragment}, a.Flat → a.find? Token.isParenthesis = none := fun ha =>
      List.find?_eq_none.mpr fun t ht => by simp [ha t ht]
    simp [List.find?_append,hn h,hn hi,Token.isParenthesis] at ht

theorem group?_apart (h : Fragment.depth? 0 a = some 0) (hb : b.head? ≠ some (.char '('))
    {u w : Fragment} (hw : a = u ++ w) : group? (w ++ b) = (group? w).map (extend b) := by
  rcases w with _ | ⟨t,w⟩
  · unfold group?
    split
    · rename_i he
      rw [List.nil_append] at he
      simp [he] at hb
    · rfl
  · by_cases ht : t = .char '('
    · subst ht
      obtain ⟨inner,rest,hi,rfl | rfl⟩ := exists_parenthesis (not_flat_of_depth? (hw ▸ h))
      · have ho := group?_open hi (rest ++ b)
        rw [List.cons_append,List.append_assoc,List.cons_append,ho,group?_open hi rest]
        rfl
      · have hc := group?_flat hi (rest ++ b)
        have hc' := group?_flat hi rest
        rw [List.cons_append] at hc hc'
        rw [List.cons_append,List.append_assoc,List.cons_append,hc,hc']
        rfl
    · unfold group?
      split <;> simp_all

theorem group_apart (h : Fragment.depth? 0 a = some 0) (hb : b.head? ≠ some (.char '(')) :
    group.Apart a b := by
  intro u w hw
  simp only [group,group?_apart h hb hw]
  cases group? w <;> rfl

theorem logarithm_apart (h : Fragment.depth? 0 a = some 0)
    (ho : ∀ t ∈ b.head?, t.isOperand = false) (hb : b.head? ≠ some (.char '(')) :
    logarithm.Apart a b := by
  have letter : ∀ c : Char, c.isAlpha = true → (sign [c]).Apart a b := by
    refine fun c hc => sign_apart fun d hd he => ?_
    rw [List.mem_singleton.mp hd] at he
    have := ho _ he
    rw [Token.isOperand_char,hc] at this
    cases this
  exact seq_apart (seq_cuts (single_cuts _) (single_cuts _))
    (seq_apart (single_cuts _) (letter 'l' rfl) (letter 'n' rfl)) (group_apart h hb)

theorem operation_apart {cs : List Char} (ho : ∀ t ∈ b.head?, t.isOperand = false)
    (hs : ∀ c ∈ cs, b.head? ≠ some (.char c)) :
    ((operand.seq (sign cs)).seq operand).Apart a b :=
  seq_apart (seq_cuts operand_cuts (single_cuts _))
    (seq_apart operand_cuts (operand_apart ho) (sign_apart hs)) (operand_apart ho)

theorem product_apart (ho : ∀ t ∈ b.head?, t.isOperand = false)
    (hs : ∀ c ∈ ['*', '/'], b.head? ≠ some (.char c)) : product.Apart a b := by
  have hr : reference.Apart a b := single_apart fun t ht => by
    have := ho t ht
    simp only [Token.isOperand,Bool.or_eq_false_iff] at this
    exact this.2
  exact seq_apart operand_cuts (operand_apart ho)
    (orElse_apart (seq_apart (single_cuts _) (sign_apart hs) (operand_apart ho)) hr)

theorem coefficient_apart (ho : ∀ t ∈ b.head?, t.isOperand = false) : coefficient.Apart a b := by
  simp only [Token.isOperand,Bool.or_eq_false_iff] at ho
  exact seq_apart (orElse_cuts (run_cuts _) (single_cuts _))
    (orElse_apart (run_apart fun t ht => (ho t ht).1.2) (single_apart fun t ht => (ho t ht).2))
    (single_apart fun t ht => (ho t ht).1.1)

theorem negation_of_operand {w x after : Fragment} (h : operand w = some (x, after))
    (hp : after.head? ≠ some (.char '^')) :
    negation (.char '-' :: w) = some (.char '-' :: x, after) := by
  simp only [negation,h]
  split <;> simp_all

theorem negation_of_power {w x after : Fragment} (h : operand w = some (x, .char '^' :: after)) :
    negation (.char '-' :: w) =
      if x.dropLast = [] then none
      else some (.char '-' :: x.dropLast, w.drop x.dropLast.length) := by
  simp only [negation,h]

theorem negation_apart (ho : ∀ t ∈ b.head?, t.isOperand = false)
    (hp : b.head? ≠ some (.char '^')) {u w : Fragment} (hw : a = u ++ w) (hn : w ≠ []) :
    negation (w ++ b) = (negation w).map (extend b) := by
  obtain ⟨t,w,rfl⟩ := List.exists_cons_of_ne_nil hn
  by_cases ht : t = .char '-'
  · subst ht
    have hr := operand_apart (a := a) ho (u ++ [.char '-']) w (by simp [hw])
    cases ha : operand w with
    | none => simp only [List.cons_append,negation,hr,ha,Option.map_none]
    | some r =>
      obtain ⟨x,after⟩ := r
      obtain ⟨rfl,-,-⟩ := operand_eq_some_iff.mp ha
      rw [ha] at hr
      rcases after with _ | ⟨c,after⟩
      · rw [List.cons_append,negation_of_operand hr hp,negation_of_operand ha (by simp)]
        rfl
      · by_cases hc : c = .char '^'
        · subst hc
          rw [List.cons_append,negation_of_power hr,negation_of_power ha,
            List.drop_append_of_le_length (by simp; omega)]
          split <;> rfl
        · rw [List.cons_append,negation_of_operand hr (by simpa using hc),
            negation_of_operand ha (by simpa using hc)]
          rfl
  · unfold negation
    split <;> simp_all

end Pattern

namespace Tier

variable {tier : Tier} {a b : Fragment}

/-- No match that begins in the first text sees the second one. -/
def Apart (tier : Tier) (a b : Fragment) : Prop :=
  ∀ u w, a = u ++ w → w ≠ [] → tier.pattern (w ++ b) = (tier.pattern w).map (Pattern.extend b)

theorem leftmost?_cons (tier : Tier) (previous : Option Token) (t : Token) (rest : Fragment) :
    tier.leftmost? previous (t :: rest) =
      ((tier.match? previous (t :: rest)).map fun r => ⟨[], r.1, r.2⟩).or
        ((tier.leftmost? (some t) rest).map (·.shift [t])) := by
  rw [leftmost?]
  cases tier.match? previous (t :: rest) <;> rfl

/-- The first match is in the first text, if there is one, and otherwise in the second. -/
theorem leftmost?_append (h : tier.Apart a b) (previous : Option Token) :
    tier.leftmost? previous (a ++ b) =
      ((tier.leftmost? previous a).map (·.extend b)).or
        ((tier.leftmost? (a.getLast?.or previous) b).map (·.shift a)) := by
  induction a generalizing previous with
  | nil =>
    simp [leftmost?, Site.shift]
  | cons t a ih =>
    have hi : tier.Apart a b := fun u w hw => h (t :: u) w (by simp [hw])
    have hm : tier.match? previous (t :: a ++ b) =
        (tier.match? previous (t :: a)).map (Pattern.extend b) := by
      simp only [match?,h [] (t :: a) rfl (by simp)]
      split <;> rfl
    rw [getLast?_cons_or,List.cons_append,leftmost?_cons,leftmost?_cons,ih hi]
    rw [List.cons_append] at hm
    rw [hm]
    cases tier.match? previous (t :: a) with
    | some r => rfl
    | none =>
      cases tier.leftmost? (some t) a with
      | some s => rfl
      | none => cases tier.leftmost? (a.getLast?.or (some t)) b <;> rfl

theorem leftmost?_congr {p q : Option Token} (h : tier.allowedAfter p = tier.allowedAfter q)
    (text : Fragment) : tier.leftmost? p text = tier.leftmost? q text := by
  cases text with
  | nil => rfl
  | cons t text => simp only [leftmost?,match?,h]

theorem leftmost?_eq_none_iff {text : Fragment} :
    tier.leftmost? none text = none ↔ tier.Nowhere text := by
  constructor
  · intro h u v huv
    simpa using leftmost?_eq_none h u v huv
  · intro h
    cases hs : tier.leftmost? none text with
    | none => rfl
    | some s =>
      have hm := (leftmost?_eq_some hs).1
      have ht := (leftmost?_cuts hs).1
      rw [Site.text,List.append_assoc] at ht
      rw [Option.or_none,h _ _ ht.symm] at hm
      cases hm

/-- The next match is the first one of the highest tier that has any. -/
theorem first?_eq_some_iff {text : Fragment} {s : Site} :
    first? text = some (tier, s) ↔
      tier.leftmost? none text = some s ∧ ∀ higher ∈ tier.above, higher.Nowhere text := by
  constructor
  · intro h
    exact ⟨leftmost?_of_first? h,(first_of_first? h).above⟩
  · rintro ⟨hs,ha⟩
    obtain ⟨below,hb⟩ : ∃ below, all = tier.above ++ tier :: below := by
      cases tier <;> exact ⟨_,rfl⟩
    refine List.findSome?_eq_some_iff.mpr ⟨tier.above,tier,below,hb,by rw [hs]; rfl,?_⟩
    intro higher hh
    rw [leftmost?_eq_none_iff.mpr (ha higher hh)]
    rfl

theorem first?_eq_none_iff {text : Fragment} :
    first? text = none ↔ ∀ tier : Tier, tier.Nowhere text := by
  refine ⟨nowhere_of_first?,fun h => List.findSome?_eq_none_iff.mpr fun tier _ => ?_⟩
  rw [leftmost?_eq_none_iff.mpr (h tier)]
  rfl

end Tier

theorem parsed?_reference (i : Nat) (x : Fragment) : Fragment.parsed? [.ref i x] = x.assembled? :=
  (Fragment.parsed?_of_none rfl).trans (Fragment.assembled?_ref i x)

end Fluxion.Formula
