import Fluxion.Proofs.Grammar
import Fluxion.Proofs.Locality
import Mathlib

/-! Sums are read term by term. The signs between the terms are the last thing that is set
aside, so a text and a term behind it are worked on apart from each other, and when the term has
become a single operand the text is still read as it would be alone. -/
namespace Fluxion.Formula

namespace Token

/-- Whether a token is a plus, or a minus that is not the sign of its operand. -/
def addsAfter (previous : Option Token) : Token → Bool
  | char '+' => true
  | char '-' => !Tier.negation.allowedAfter previous
  | _ => false

def depthAfter (depth : Nat) : Token → Nat
  | char '(' => depth + 1
  | char ')' => depth - 1
  | _ => depth

end Token

namespace Fragment

/-- Whether every plus and every minus between operands stands in parentheses, `previous` being
the token in front of the text and `depth` the number of groups that are open there. -/
def isTerm (previous : Option Token) (depth : Nat) : Fragment → Bool
  | [] => true
  | t :: rest =>
    (0 < depth || !t.addsAfter previous) && isTerm (some t) (t.depthAfter depth) rest

variable {a b : Fragment} {previous : Option Token} {depth : Nat}

theorem depth?_of_cons {t : Token} {d : Nat} (h : depth? depth (t :: a) = some d) :
    depth? (t.depthAfter depth) a = some d := by
  cases t with
  | ref i content => exact h
  | char c =>
    by_cases ho : c = '('
    · subst ho
      exact h
    · by_cases hc : c = ')'
      · subst hc
        cases depth with
        | zero => cases h
        | succ depth => exact h
      · have hs : depth? depth (.char c :: a) = depth? depth a := by simp [depth?_cons,ho,hc]
        have hd : (Token.char c).depthAfter depth = depth := by simp [Token.depthAfter,ho,hc]
        rw [hd,← hs]
        exact h

theorem isTerm_append {d : Nat} (h : depth? depth a = some d) :
    isTerm previous depth (a ++ b) =
      (isTerm previous depth a && isTerm (a.getLast?.or previous) d b) := by
  induction a generalizing previous depth with
  | nil =>
    cases h
    rfl
  | cons t a ih =>
    rw [Tier.getLast?_cons_or,List.cons_append,isTerm,isTerm,ih (depth?_of_cons h),Bool.and_assoc]

theorem isTerm_congr {p q : Option Token}
    (h : Tier.negation.allowedAfter p = Tier.negation.allowedAfter q) (a : Fragment) :
    isTerm p depth a = isTerm q depth a := by
  cases a with
  | nil => rfl
  | cons t a =>
    have ht : t.addsAfter p = t.addsAfter q := by
      unfold Token.addsAfter
      split <;> simp [h]
    rw [isTerm,isTerm,ht]

end Fragment

section Ends

variable {a m after : Fragment} {tier : Tier}

theorem Token.not_isOperator_of_isOperand {t : Token} (h : t.isOperand = true) :
    t.isOperator = false := by
  cases ho : t.isOperator with
  | false => rfl
  | true =>
    rw [not_isOperand_of_isOperator ho] at h
    cases h

theorem Fragment.Operand.not_allowedAfter (h : a.Operand) (u : Fragment) :
    Tier.negation.allowedAfter (u ++ a).getLast? = false := by
  obtain ⟨z,hz,ho⟩ := h.getLast?
  rw [List.getLast?_append,Option.mem_def.mp hz]
  exact Token.not_isOperator_of_isOperand ho

theorem Tier.Match.not_allowedAfter (h : tier.Match m after) :
    Tier.negation.allowedAfter m.getLast? = false := by
  cases h with
  | logarithm hi => rw [List.getLast?_concat]; rfl
  | group hi => rw [List.getLast?_concat]; rfl
  | negation ha => exact ha.not_allowedAfter [.char '-']
  | cut hn ha => exact (ha.of_concat hn).not_allowedAfter [.char '-']
  | @operation op a b _ ha hb =>
    rw [List.append_cons]
    exact hb.not_allowedAfter (a ++ [.char op.symbol])
  | @reference a ha i content => exact (Fragment.Operand.reference i content).not_allowedAfter a
  | @coefficient a x ha hn hx =>
    exact (Fragment.Operand.singleton (by simp [Token.isOperand,hx])).not_allowedAfter a

theorem Place.eq_operator_of_next {p q : Place} {t : Token} (ht : t.isOperator = true)
    (h : p.next t = some q) : q = operator := by
  cases t with
  | ref i content => cases ht
  | char c =>
    have hc : c ∈ ['+', '-', '*', '/', '^'] := by simpa [Token.isOperator] using ht
    simp only [List.mem_cons,List.not_mem_nil,or_false] at hc
    rcases hc with rfl | rfl | rfl | rfl | rfl <;> cases p <;> simp_all [Place.next,BinaryOp.ofSymbol?]

theorem Fragment.Sound.not_allowedAfter (h : a.Sound) :
    Tier.negation.allowedAfter a.getLast? = false := by
  obtain ⟨p,hp,hc⟩ := h.place
  rcases List.eq_nil_or_concat' a with rfl | ⟨u,t,rfl⟩
  · cases hp
    cases hc
  · rw [follow_append] at hp
    obtain ⟨q,-,hp⟩ := Option.bind_eq_some_iff.mp hp
    obtain ⟨r,ht,hr⟩ := Option.bind_eq_some_iff.mp hp
    cases hr
    rw [List.getLast?_concat]
    cases ho : t.isOperator with
    | false => exact ho
    | true =>
      rw [Place.eq_operator_of_next ho ht] at hc
      cases hc

end Ends

/-- What is set aside in a term leaves a term. -/
theorem Tier.First.isTerm_replace {text : Fragment} {tier : Tier} {site : Site}
    (hs : First text tier site) (hd : Fragment.depth? 0 text = some 0)
    (h : Fragment.isTerm none 0 text = true) (i : Nat) :
    Fragment.isTerm none 0 (site.replace (.ref i site.matched)) = true := by
  rw [hs.cut,Fragment.depth?_append] at hd
  obtain ⟨d,hb,hd⟩ := Option.bind_eq_some_iff.mp hd
  rw [hs.cut,Fragment.isTerm_append hb,Fragment.isTerm_append (hs.match.depth? d),
    Bool.and_eq_true_iff,Bool.and_eq_true_iff] at h
  obtain ⟨hbefore,-,hafter⟩ := h
  rw [Site.replace,Fragment.isTerm_append hb,hbefore,Bool.true_and]
  have hlast : Tier.negation.allowedAfter (site.matched.getLast?.or (site.before.getLast?.or none)) =
      Tier.negation.allowedAfter (some (.ref i site.matched)) := by
    have hm := hs.match.not_allowedAfter
    cases hl : site.matched.getLast? with
    | none =>
      rw [hl] at hm
      cases hm
    | some z =>
      rw [hl] at hm
      exact hm
  rw [Fragment.isTerm_congr hlast] at hafter
  simpa [Fragment.isTerm,Token.addsAfter,Token.depthAfter] using hafter

theorem Tier.not_first_sum {text : Fragment} {site : Site} (hf : text.Flat)
    (h : Fragment.isTerm none 0 text = true) : ¬First text .sum site := by
  intro hs
  obtain ⟨a,b,c,hc,hm,ha,-,-⟩ := @match_of_operation ['+', '-'] _ _ _ hs.here
  have hcut := hs.cut
  rw [hm] at hcut
  have hcut : text = (site.before ++ a) ++ .char c :: (b ++ site.after) := by simp [hcut]
  have hflat : Fragment.Flat (site.before ++ a) := fun t ht => hf t (by
    rw [hcut]
    exact List.mem_append_left _ ht)
  rw [hcut,Fragment.isTerm_append (Fragment.depth?_flat hflat 0),Bool.and_eq_true_iff,
    Option.or_none] at h
  have hsign := h.2
  have hlast := ha.not_allowedAfter site.before
  generalize (site.before ++ a).getLast? = last at hlast hsign
  simp only [List.mem_cons,List.not_mem_nil,or_false] at hc
  rcases hc with rfl | rfl <;> simp [Fragment.isTerm,Token.addsAfter,hlast] at hsign

section Sum

variable {x y : Fragment} {op : BinaryOp} {tier : Tier} {site : Site}

theorem Tier.apart_sum (ht : tier ≠ .sum) (hop : op = .plus ∨ op = .minus)
    (hd : Fragment.depth? 0 x = some 0) : tier.Apart x (.char op.symbol :: y) := by
  intro u w hw hn
  have ho : ∀ t ∈ (Token.char op.symbol :: y).head?, t.isOperand = false := by
    intro t ht
    cases ht
    cases op <;> rfl
  have hs : ∀ c : Char, c ≠ '+' → c ≠ '-' →
      (Token.char op.symbol :: y).head? ≠ some (.char c) := by
    rintro c hp hm he
    cases he
    rcases hop with rfl | rfl
    · exact hp rfl
    · exact hm rfl
  have hb : (Token.char op.symbol :: y).head? ≠ some (.char '(') := hs '(' (by decide) (by decide)
  cases tier with
  | logarithm => exact Pattern.logarithm_apart hd ho hb u w hw
  | group => exact Pattern.group_apart hd hb u w hw
  | negation => exact Pattern.negation_apart ho (hs '^' (by decide) (by decide)) hw hn
  | power =>
    refine Pattern.operation_apart ho (fun c hc => ?_) u w hw
    rw [List.mem_singleton.mp hc]
    exact hs '^' (by decide) (by decide)
  | product =>
    refine Pattern.product_apart ho (fun c hc => ?_) u w hw
    simp only [List.mem_cons,List.not_mem_nil,or_false] at hc
    rcases hc with rfl | rfl
    · exact hs '*' (by decide) (by decide)
    · exact hs '/' (by decide) (by decide)
  | coefficient => exact Pattern.coefficient_apart ho u w hw
  | sum => exact absurd rfl ht

theorem Tier.pattern_sign (ht : tier ≠ .negation) (op : BinaryOp) (y : Fragment) :
    tier.pattern (.char op.symbol :: y) = none := by
  have ho : Pattern.operand (.char op.symbol :: y) = none := by
    rw [Pattern.operand_eq_none_iff]
    intro t ht
    cases ht
    cases op <;> rfl
  cases tier with
  | negation => exact absurd rfl ht
  | power | product | sum => simp [pattern,Pattern.power,Pattern.product,Pattern.sum,Pattern.seq,ho]
  | _ => cases op <;> rfl

theorem Tier.match?_sign (tier : Tier) {previous : Option Token}
    (hp : negation.allowedAfter previous = false) (op : BinaryOp) (y : Fragment) :
    tier.match? previous (.char op.symbol :: y) = none := by
  by_cases ht : tier = .negation
  · rw [ht,match?,hp]
    rfl
  · rw [match?,pattern_sign ht,ite_self]

theorem Tier.leftmost?_behind_sign (tier : Tier) (op : BinaryOp) (y : Fragment) :
    tier.leftmost? (some (.char op.symbol)) y = tier.leftmost? none y := by
  refine leftmost?_congr ?_ y
  cases tier <;> cases op <;> rfl

theorem Tier.leftmost?_sign (ht : tier ≠ .sum) (hop : op = .plus ∨ op = .minus) (hx : x.Sound) :
    tier.leftmost? none (x ++ .char op.symbol :: y) =
      ((tier.leftmost? none x).map (·.extend (.char op.symbol :: y))).or
        ((tier.leftmost? none y).map (·.shift (x ++ [.char op.symbol]))) := by
  have hlast : negation.allowedAfter (x.getLast?.or none) = false := by
    rw [Option.or_none]
    exact hx.not_allowedAfter
  rw [leftmost?_append (apart_sum ht hop hx.depth),leftmost?_cons,match?_sign tier hlast,
    leftmost?_behind_sign]
  cases tier.leftmost? none y <;> simp [Site.shift]

theorem Pattern.sum_append (hx : ¬x.Operand) (op : BinaryOp) (y : Fragment) :
    sum (x ++ .char op.symbol :: y) = (sum x).map (extend (.char op.symbol :: y)) := by
  have ho : ∀ t ∈ (Token.char op.symbol :: y).head?, t.isOperand = false := by
    intro t ht
    cases ht
    cases op <;> rfl
  have hl := operand_apart (a := x) ho [] x rfl
  cases ha : operand x with
  | none => simp only [sum,seq,hl,ha,Option.map_none]
  | some r =>
    obtain ⟨a,rest⟩ := r
    obtain ⟨rfl,hao,-⟩ := operand_eq_some_iff.mp ha
    cases rest with
    | nil => exact absurd (by simpa using hao) hx
    | cons c rest =>
      have hr := operand_apart (a := rest) ho [] rest rfl
      rw [ha] at hl
      have hs : (sign ['+', '-']) (c :: (rest ++ .char op.symbol :: y)) =
          ((sign ['+', '-']) (c :: rest)).map (extend (.char op.symbol :: y)) :=
        single_cons_append _ c rest _
      simp only [sum,seq,hl,ha,Option.map_some,extend,List.cons_append,hs]
      cases hc : (sign ['+', '-']) (c :: rest) with
      | none => rfl
      | some r =>
        obtain ⟨m,rest'⟩ := r
        obtain ⟨d,-,he,rfl⟩ := sign_eq_some hc
        obtain ⟨rfl,rfl⟩ := List.cons_eq_cons.mp he
        simp only [Option.map_some,extend,hr]
        cases operand rest <;> simp [extend]

theorem Tier.not_operand_of_sum {previous : Option Token}
    (h : Tier.sum.leftmost? previous x = some site) : ¬x.Operand := by
  intro ho
  obtain ⟨a,b,c,hc,hm,-,-,-⟩ := @match_of_operation ['+', '-'] _ _ _ (leftmost?_eq_some h).1
  have hmem : .char c ∈ x := by
    rw [← (leftmost?_cuts h).1,Site.text,hm]
    simp
  have hco := ho.isOperand _ hmem
  simp only [List.mem_cons,List.not_mem_nil,or_false] at hc
  rcases hc with rfl | rfl <;> cases hco

theorem Tier.leftmost?_sum {previous : Option Token} (op : BinaryOp) (y : Fragment)
    (h : Tier.sum.leftmost? previous x = some site) :
    Tier.sum.leftmost? previous (x ++ .char op.symbol :: y) =
      some (site.extend (.char op.symbol :: y)) := by
  induction x generalizing previous site with
  | nil => cases h
  | cons t x ih =>
    have hm := Pattern.sum_append (not_operand_of_sum h) op y
    have hm : Tier.sum.match? previous (t :: x ++ .char op.symbol :: y) =
      (Tier.sum.match? previous (t :: x)).map (Pattern.extend (.char op.symbol :: y)) := hm
    rw [leftmost?_cons] at h
    rw [List.cons_append] at hm
    rw [List.cons_append,leftmost?_cons,hm]
    cases hp : Tier.sum.match? previous (t :: x) with
    | some r =>
      rw [hp] at h
      cases h
      rfl
    | none =>
      rw [hp] at h
      obtain ⟨s,hs,rfl⟩ := Option.map_eq_some_iff.mp h
      rw [ih hs]
      rfl

theorem Tier.mem_above_sum (ht : tier ≠ .sum) : tier ∈ Tier.sum.above := by
  cases tier with
  | sum => exact absurd rfl ht
  | _ => decide

theorem Tier.ne_sum_of_mem_above {higher : Tier} (h : higher ∈ tier.above) : higher ≠ .sum := by
  rintro rfl
  revert h
  cases tier <;> decide

theorem Tier.nowhere_sign (ht : tier ≠ .sum) (hop : op = .plus ∨ op = .minus) (hx : x.Sound) :
    tier.Nowhere (x ++ .char op.symbol :: y) ↔ tier.Nowhere x ∧ tier.Nowhere y := by
  simp only [← leftmost?_eq_none_iff,leftmost?_sign ht hop hx,Option.or_eq_none_iff,
    Option.map_eq_none_iff]

theorem Tier.first?_of_sums (hop : op = .plus ∨ op = .minus) (hx : x.Sound) (hy : y.Sound)
    (ht : Fragment.isTerm none 0 y = true)
    (h : ∀ tier : Tier, tier ≠ .sum → tier.Nowhere (x ++ .char op.symbol :: y)) :
    first? y = none ∧ (first? x = none ∨ ∃ s, first? x = some (.sum, s) ∧
      first? (x ++ .char op.symbol :: y) = some (.sum, s.extend (.char op.symbol :: y))) := by
  have above : ∀ higher ∈ Tier.sum.above, higher.Nowhere (x ++ .char op.symbol :: y) :=
    fun higher hh => h higher (ne_sum_of_mem_above hh)
  have hxy : ∀ tier : Tier, tier ≠ .sum → tier.Nowhere x ∧ tier.Nowhere y := fun tier hs =>
    (nowhere_sign hs hop hx).mp (h tier hs)
  have only : ∀ {a : Fragment} {tier : Tier} {s : Site}, (∀ tier : Tier, tier ≠ .sum → tier.Nowhere a) →
      first? a = some (tier, s) → tier = .sum := by
    intro a tier s ha hs
    by_contra hne
    rw [first?_eq_some_iff,leftmost?_eq_none_iff.mpr (ha tier hne)] at hs
    cases hs.1
  constructor
  · cases hf : first? y with
    | none => rfl
    | some r =>
      obtain ⟨tier,s⟩ := r
      obtain rfl := only (fun tier hs => (hxy tier hs).2) hf
      have hflat := Fragment.flat_of_depth? hy.depth (hxy .group (by decide)).2
      exact absurd (first_of_first? hf) (not_first_sum hflat ht)
  · cases hf : first? x with
    | none => exact .inl rfl
    | some r =>
      obtain ⟨tier,s⟩ := r
      obtain rfl := only (fun tier hs => (hxy tier hs).1) hf
      have hs := leftmost?_sum op y (first?_eq_some_iff.mp hf).1
      exact .inr ⟨s,rfl,first?_eq_some_iff.mpr ⟨hs,above⟩⟩

theorem Tier.first?_sign (hop : op = .plus ∨ op = .minus) (hx : x.Sound) (hy : y.Sound)
    (ht : Fragment.isTerm none 0 y = true) :
    (∃ tier s, first? x = some (tier, s) ∧
      first? (x ++ .char op.symbol :: y) = some (tier, s.extend (.char op.symbol :: y))) ∨
    (∃ tier s, first? y = some (tier, s) ∧
      first? (x ++ .char op.symbol :: y) = some (tier, s.shift (x ++ [.char op.symbol]))) ∨
    first? x = none ∧ first? y = none := by
  by_cases h : ∀ tier : Tier, tier ≠ .sum → tier.Nowhere (x ++ .char op.symbol :: y)
  · obtain ⟨hfy,hfx | ⟨s,hfx,hs⟩⟩ := first?_of_sums hop hx hy ht h
    · exact .inr (.inr ⟨hfx,hfy⟩)
    · exact .inl ⟨.sum,s,hfx,hs⟩
  · cases hf : first? (x ++ .char op.symbol :: y) with
    | none => exact absurd (fun tier _ => first?_eq_none_iff.mp hf tier) h
    | some r =>
      obtain ⟨tier,site⟩ := r
      obtain ⟨hs,above⟩ := first?_eq_some_iff.mp hf
      have hne : tier ≠ .sum := by
        rintro rfl
        exact h fun tier hne => above tier (mem_above_sum hne)
      have hxy : ∀ higher ∈ tier.above, higher.Nowhere x ∧ higher.Nowhere y := fun higher hh =>
        (nowhere_sign (ne_sum_of_mem_above hh) hop hx).mp (above higher hh)
      rw [leftmost?_sign hne hop hx,Option.or_eq_some_iff] at hs
      rcases hs with hs | ⟨-,hs⟩
      · obtain ⟨s,hsx,rfl⟩ := Option.map_eq_some_iff.mp hs
        exact .inl ⟨tier,s,first?_eq_some_iff.mpr ⟨hsx,fun higher hh => (hxy higher hh).1⟩,rfl⟩
      · obtain ⟨s,hsy,rfl⟩ := Option.map_eq_some_iff.mp hs
        exact .inr (.inl ⟨tier,s,first?_eq_some_iff.mpr ⟨hsy,fun higher hh => (hxy higher hh).2⟩,rfl⟩)

theorem Tier.first?_operands (hop : op = .plus ∨ op = .minus) (hx : x.Sound) (hxo : x.Operand)
    (hyo : y.Operand) (hfx : first? x = none) (hfy : first? y = none) :
    first? (x ++ .char op.symbol :: y) = some (.sum, ⟨[], x ++ .char op.symbol :: y, []⟩) := by
  refine first?_eq_some_iff.mpr ⟨?_,fun higher hh =>
    (nowhere_sign (ne_sum_of_mem_above hh) hop hx).mpr
      ⟨nowhere_of_first? hfx higher,nowhere_of_first? hfy higher⟩⟩
  have htier : op.tier = .sum := by rcases hop with rfl | rfl <;> rfl
  have hm := (Match.operation op hxo hyo (Fragment.Operand.ends_nil y)).match?_self
  rw [htier] at hm
  obtain ⟨t,rest,hcons⟩ := List.exists_cons_of_ne_nil (l := x ++ .char op.symbol :: y) (by simp)
  rw [hcons] at hm ⊢
  rw [leftmost?_cons,hm]
  rfl

theorem Fragment.parsed?_term (hop : op = .plus ∨ op = .minus) {a b : Expr}
    (hx : x.parsed? = some a) (hy : y.parsed? = some b) (ht : isTerm none 0 y = true) :
    parsed? (x ++ .char op.symbol :: y) = some (.binary op a b) := by
  -- On the length of both texts together, since a step is in the one or in the other.
  induction hlen : x.length + y.length using Nat.strongRecOn generalizing x y with
  | ind n ih =>
    have hxs : x.Sound := sound_of_parsed? (by simp [hx])
    have hys : y.Sound := sound_of_parsed? (by simp [hy])
    rcases Tier.first?_sign hop hxs hys ht with ⟨tier,s,hf,hs⟩ | ⟨tier,s,hf,hs⟩ | ⟨hfx,hfy⟩
    · have hl := Tier.length_replace_lt hf (.ref 0 s.matched)
      rw [parsed?_of_some hf 0] at hx
      rw [parsed?_of_some hs 0,Site.replace_extend,Site.matched_extend]
      exact ih _ (by omega) hx hy ht rfl
    · have hl := Tier.length_replace_lt hf (.ref 0 s.matched)
      rw [parsed?_of_some hf 0] at hy
      rw [parsed?_of_some hs 0,Site.replace_shift,Site.matched_shift,List.append_assoc,
        List.singleton_append]
      exact ih _ (by omega) hx hy ((Tier.first_of_first? hf).isTerm_replace hys.depth ht 0) rfl
    · have hxo := operand_of_parsed? (by simp [hx]) hfx
      have hyo := operand_of_parsed? (by simp [hy]) hfy
      rw [parsed?_of_none hfx] at hx
      rw [parsed?_of_none hfy] at hy
      rw [parsed?_of_some (Tier.first?_operands hop hxs hxo hyo hfx hfy) 0,Site.replace,
        List.nil_append,parsed?_reference,assembled?_operation op hxo hyo,hx,hy]
      rcases hop with rfl | rfl <;> rfl

end Sum

section Texts

variable {a t : String} {A T : Expr}

theorem parse_term {op : BinaryOp} (hop : op = .plus ∨ op = .minus) (ha : parse a = .ok A)
    (ht : parse t = .ok T) (hterm : Fragment.isTerm none 0 (.ofString t) = true) :
    parse (a ++ op.symbol.toString ++ t) = .ok (.binary op A T) := by
  obtain ⟨haa,hap⟩ := parse_eq_ok_iff.mp ha
  obtain ⟨hta,htp⟩ := parse_eq_ok_iff.mp ht
  have htext : (a ++ op.symbol.toString ++ t).toList = a.toList ++ op.symbol :: t.toList := by
    simp
  refine parse_eq_ok_iff.mpr ⟨?_,?_⟩
  · rw [htext]
    exact List.forall_mem_append.mpr ⟨haa,List.forall_mem_cons.mpr ⟨isAllowed_symbol op,hta⟩⟩
  · rw [Fragment.ofString,htext,List.map_append,List.map_cons]
    exact Fragment.parsed?_term hop hap htp hterm

/-- A term that can be read, and the plus or minus in front of it. -/
structure Summand where
  op : BinaryOp
  text : String
  tree : Expr
  isSign : op = .plus ∨ op = .minus
  parses : parse text = .ok tree
  isTerm : Fragment.isTerm none 0 (.ofString text) = true

namespace Summand

/-- The text with the terms behind it. -/
def append (a : String) (terms : List Summand) : String :=
  terms.foldl (fun s term => s ++ term.op.symbol.toString ++ term.text) a

/-- The terms added and subtracted from the left to the right. -/
def join (A : Expr) (terms : List Summand) : Expr :=
  terms.foldl (fun e term => .binary term.op e term.tree) A

theorem parse_append (ha : parse a = .ok A) (terms : List Summand) :
    parse (append a terms) = .ok (join A terms) := by
  induction terms generalizing a A with
  | nil => exact ha
  | cons term terms ih => exact ih (parse_term term.isSign ha term.parses term.isTerm)

end Summand

/-- Sums are read term by term: a term behind a text does not change how the text is read, and
chains of terms associate to the left. -/
theorem parse_terms (ha : parse a = .ok A) :
    (∀ t T, parse t = .ok T → Fragment.isTerm none 0 (.ofString t) = true →
      parse (a ++ "+" ++ t) = .ok (A + T) ∧ parse (a ++ "-" ++ t) = .ok (A - T)) ∧
    ∀ terms : List Summand, parse (Summand.append a terms) = .ok (Summand.join A terms) := by
  have plus : BinaryOp.plus.symbol.toString = "+" := rfl
  have minus : BinaryOp.minus.symbol.toString = "-" := rfl
  refine ⟨fun t T ht hterm => ⟨?_,?_⟩,Summand.parse_append ha⟩
  · rw [← plus]
    exact parse_term (.inl rfl) ha ht hterm
  · rw [← minus]
    exact parse_term (.inr rfl) ha ht hterm

end Texts

/-- The minus in front of the second term is one of its factor. -/
theorem parse_terms_negative :
    parse "2x-y" = .ok (.binary .minus (.binary .times (.const 2) (.var "x")) (.var "y")) ∧
      parse "-3(x+1)" =
        .ok (.binary .times (.const (-3)) (.binary .plus (.var "x") (.const 1))) ∧
      parse ("2x-y" ++ "-" ++ "-3(x+1)") = .ok (.binary .minus
        (.binary .minus (.binary .times (.const 2) (.var "x")) (.var "y"))
        (.binary .times (.const (-3)) (.binary .plus (.var "x") (.const 1)))) := by
  have ha : parse "2x-y" =
      .ok (.binary .minus (.binary .times (.const 2) (.var "x")) (.var "y")) := by cbv
  have ht : parse "-3(x+1)" =
      .ok (.binary .times (.const (-3)) (.binary .plus (.var "x") (.const 1))) := by cbv
  exact ⟨ha,ht,((parse_terms ha).1 _ _ ht (by cbv)).2⟩

end Fluxion.Formula
