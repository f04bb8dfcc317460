import Fluxion.Proofs.Grammar
import Fluxion.Proofs.Locality
import Mathlib

/-! Groups and calls are read on their own. They are set aside before anything else, from the
inside to the outside, and the steps that concern the inside of one of them are the first steps
of reading that inside alone. -/
namespace Fluxion.Formula

namespace Tier

/-- Whether matches are enclosed in parentheses. -/
def encloses : Tier → Bool
  | logarithm | group => true
  | _ => false

variable {tier : Tier} {inner : Fragment}

theorem encloses_of_mem_above (ht : tier.encloses = true) {higher : Tier}
    (hh : higher ∈ tier.above) : higher.encloses = true := by
  revert higher
  cases tier with
  | logarithm | group => decide
  | _ => cases ht

theorem match?_of_encloses (ht : tier.encloses = true) (previous : Option Token)
    (text : Fragment) : tier.match? previous text = tier.pattern text := by
  cases tier with
  | logarithm | group => rfl
  | _ => cases ht

theorem leftmost?_of_encloses (ht : tier.encloses = true) (previous : Option Token)
    (text : Fragment) : tier.leftmost? previous text = tier.leftmost? none text := by
  refine leftmost?_congr ?_ text
  cases tier with
  | logarithm | group => rfl
  | _ => cases ht

theorem pattern_of_encloses (ht : tier.encloses = true) {t : Token} (ho : t ≠ .char '(')
    (hl : t ≠ .char 'l') (rest : Fragment) : tier.pattern (t :: rest) = none := by
  cases tier with
  | logarithm =>
    have hs : (Pattern.sign ['l']) (t :: rest) = none := by
      cases t with
      | char c => simpa [Pattern.sign,Pattern.single] using hl
      | ref i content => rfl
    simp [pattern,Pattern.logarithm,Pattern.seq,hs]
  | group =>
    simp only [pattern,Pattern.group,Pattern.group?]
    split
    · rename_i he
      cases he
      exact absurd rfl ho
    · rfl
  | _ => cases ht

theorem apart_close (ht : tier.encloses = true) (hd : Fragment.depth? 0 inner = some 0)
    (rest : Fragment) : tier.Apart inner (.char ')' :: rest) := by
  intro u w hw _
  cases tier with
  | logarithm => exact Pattern.logarithm_apart hd (by simp [Token.isOperand_char]) (by simp) u w hw
  | group => exact Pattern.group_apart hd (by simp) u w hw
  | _ => cases ht

section Enclosed

variable (ht : tier.encloses = true) (rest : Fragment)
include ht

theorem leftmost?_skip {t : Token} (ho : t ≠ .char '(') (hl : t ≠ .char 'l') :
    tier.leftmost? none (t :: rest) = (tier.leftmost? none rest).map (·.shift [t]) := by
  rw [leftmost?_cons,match?_of_encloses ht,pattern_of_encloses ht ho hl,leftmost?_of_encloses ht]
  rfl

theorem leftmost?_group (hd : Fragment.depth? 0 inner = some 0) :
    tier.leftmost? none (.char '(' :: (inner ++ .char ')' :: rest)) =
    ((tier.pattern (.char '(' :: (inner ++ .char ')' :: rest))).map fun r => ⟨[], r.1, r.2⟩).or
      (((tier.leftmost? none inner).map fun s => (s.extend (.char ')' :: rest)).shift [.char '(']).or
        ((tier.leftmost? none rest).map (·.shift (.char '(' :: (inner ++ [.char ')']))))) := by
  rw [leftmost?_cons,match?_of_encloses ht,leftmost?_append (apart_close ht hd rest),
    leftmost?_of_encloses ht _ inner,leftmost?_of_encloses ht _ (.char ')' :: rest),
    leftmost?_skip ht rest (by simp) (by simp)]
  congr 1
  cases tier.leftmost? none inner with
  | some s => rfl
  | none => cases tier.leftmost? none rest <;> simp [Site.shift]

theorem leftmost?_logarithm :
    tier.leftmost? none (.char 'l' :: .char 'n' :: .char '(' :: (inner ++ .char ')' :: rest)) =
      ((tier.pattern (.char 'l' :: .char 'n' :: .char '(' :: (inner ++ .char ')' :: rest))).map
        fun r => ⟨[], r.1, r.2⟩).or
        ((tier.leftmost? none (.char '(' :: (inner ++ .char ')' :: rest))).map
          (·.shift [.char 'l', .char 'n'])) := by
  rw [leftmost?_cons,match?_of_encloses ht,leftmost?_of_encloses ht,
    leftmost?_skip ht _ (by simp) (by simp)]
  congr 1
  cases tier.leftmost? none (.char '(' :: (inner ++ .char ')' :: rest)) <;> rfl

end Enclosed

theorem pattern_group_of_flat (h : inner.Flat) (rest : Fragment) :
    group.pattern (.char '(' :: (inner ++ .char ')' :: rest)) =
      some (.char '(' :: inner ++ [.char ')'], rest) := by
  have hg := Pattern.group?_flat h rest
  rw [List.cons_append] at hg
  rw [pattern,Pattern.group,hg]
  rfl

theorem pattern_group_of_not_flat (hd : Fragment.depth? 0 inner = some 0) (h : ¬inner.Flat)
    (rest : Fragment) : group.pattern (.char '(' :: (inner ++ .char ')' :: rest)) = none := by
  obtain ⟨front,back,hf,rfl | rfl⟩ := Pattern.exists_parenthesis h
  · have hg := Pattern.group?_open hf (back ++ .char ')' :: rest)
    rw [List.append_assoc,List.cons_append,pattern,Pattern.group,hg]
    rfl
  · rw [Fragment.depth?_append,Fragment.depth?_flat hf] at hd
    cases hd

theorem pattern_logarithm_group (rest : Fragment) :
    logarithm.pattern (.char 'l' :: .char 'n' :: .char '(' :: rest) =
      (group.pattern (.char '(' :: rest)).map fun r => (.char 'l' :: .char 'n' :: r.1, r.2) := by
  cases hg : Pattern.group (.char '(' :: rest) <;>
    simp [pattern,Pattern.logarithm,Pattern.seq,Pattern.sign,Pattern.single,hg]

section First

variable (ht : tier.encloses = true) {rest : Fragment} {site : Site}
include ht

theorem nowhere_skip {t : Token} (ho : t ≠ .char '(') (hl : t ≠ .char 'l')
    (h : tier.Nowhere (t :: rest)) : tier.Nowhere rest := by
  rw [← leftmost?_eq_none_iff,leftmost?_skip ht rest ho hl,Option.map_eq_none_iff] at h
  exact leftmost?_eq_none_iff.mp h

theorem first?_skip {t : Token} (ho : t ≠ .char '(') (hl : t ≠ .char 'l')
    (h : first? (t :: rest) = some (tier, site)) :
    ∃ s, first? rest = some (tier, s) ∧ site = s.shift [t] := by
  obtain ⟨hs,ha⟩ := first?_eq_some_iff.mp h
  rw [leftmost?_skip ht rest ho hl] at hs
  obtain ⟨s,hr,rfl⟩ := Option.map_eq_some_iff.mp hs
  exact ⟨s,first?_eq_some_iff.mpr ⟨hr,fun higher hh =>
    nowhere_skip (encloses_of_mem_above ht hh) ho hl (ha higher hh)⟩,rfl⟩

theorem nowhere_group (hd : Fragment.depth? 0 inner = some 0)
    (h : tier.Nowhere (.char '(' :: (inner ++ .char ')' :: rest))) :
    tier.Nowhere inner ∧ tier.Nowhere rest := by
  rw [← leftmost?_eq_none_iff,leftmost?_group ht rest hd] at h
  simp only [Option.or_eq_none_iff,Option.map_eq_none_iff,leftmost?_eq_none_iff] at h
  exact h.2

theorem nowhere_logarithm
    (h : tier.Nowhere (.char 'l' :: .char 'n' :: .char '(' :: (inner ++ .char ')' :: rest))) :
    tier.Nowhere (.char '(' :: (inner ++ .char ')' :: rest)) := by
  rw [← leftmost?_eq_none_iff,leftmost?_logarithm ht rest] at h
  simp only [Option.or_eq_none_iff,Option.map_eq_none_iff,leftmost?_eq_none_iff] at h
  exact h.2

theorem first?_group (hd : Fragment.depth? 0 inner = some 0)
    (h : first? (.char '(' :: (inner ++ .char ')' :: rest)) = some (tier, site)) :
    (tier = group ∧ inner.Flat ∧ site = ⟨[], .char '(' :: inner ++ [.char ')'], rest⟩) ∨
      (∃ s, first? inner = some (tier, s) ∧
        site = (s.extend (.char ')' :: rest)).shift [.char '(']) ∨
      ∃ s, first? rest = some (tier, s) ∧
        site = s.shift (.char '(' :: (inner ++ [.char ')'])) := by
  obtain ⟨hs,ha⟩ := first?_eq_some_iff.mp h
  have hn := fun higher hh => nowhere_group (encloses_of_mem_above ht hh) hd (ha higher hh)
  rw [leftmost?_group ht rest hd] at hs
  cases hp : tier.pattern (.char '(' :: (inner ++ .char ')' :: rest)) with
  | some r =>
    rw [hp] at hs
    cases tier with
    | logarithm => cases hp
    | group =>
      by_cases hf : inner.Flat
      · rw [pattern_group_of_flat hf] at hp
        cases hp
        cases hs
        exact .inl ⟨rfl,hf,rfl⟩
      · rw [pattern_group_of_not_flat hd hf] at hp
        cases hp
    | _ => cases ht
  | none =>
    rw [hp] at hs
    cases hi : tier.leftmost? none inner with
    | some s =>
      rw [hi] at hs
      cases hs
      exact .inr (.inl ⟨s,first?_eq_some_iff.mpr ⟨hi,fun higher hh => (hn higher hh).1⟩,rfl⟩)
    | none =>
      rw [hi] at hs
      obtain ⟨s,hr,rfl⟩ := Option.map_eq_some_iff.mp hs
      exact .inr (.inr ⟨s,first?_eq_some_iff.mpr ⟨hr,fun higher hh => (hn higher hh).2⟩,rfl⟩)

theorem first?_logarithm (hd : Fragment.depth? 0 inner = some 0)
    (h : first? (.char 'l' :: .char 'n' :: .char '(' :: (inner ++ .char ')' :: rest)) =
      some (tier, site)) :
    (tier = logarithm ∧ inner.Flat ∧
        site = ⟨[], .char 'l' :: .char 'n' :: .char '(' :: inner ++ [.char ')'], rest⟩) ∨
      (∃ s, first? inner = some (tier, s) ∧
        site = (s.extend (.char ')' :: rest)).shift [.char 'l', .char 'n', .char '(']) ∨
      ∃ s, first? rest = some (tier, s) ∧
        site = s.shift (.char 'l' :: .char 'n' :: .char '(' :: (inner ++ [.char ')'])) := by
  obtain ⟨hs,ha⟩ := first?_eq_some_iff.mp h
  have hn := fun higher hh => nowhere_logarithm (encloses_of_mem_above ht hh) (ha higher hh)
  rw [leftmost?_logarithm ht] at hs
  cases hp : tier.pattern (.char 'l' :: .char 'n' :: .char '(' :: (inner ++ .char ')' :: rest)) with
  | some r =>
    rw [hp] at hs
    cases tier with
    | logarithm =>
      rw [pattern_logarithm_group] at hp
      by_cases hf : inner.Flat
      · rw [pattern_group_of_flat hf] at hp
        cases hp
        cases hs
        exact .inl ⟨rfl,hf,rfl⟩
      · rw [pattern_group_of_not_flat hd hf] at hp
        cases hp
    | group => cases hp
    | _ => cases ht
  | none =>
    rw [hp] at hs
    obtain ⟨s,hg,rfl⟩ := Option.map_eq_some_iff.mp hs
    rcases first?_group ht hd (first?_eq_some_iff.mpr ⟨hg,hn⟩) with
      ⟨rfl,hf,-⟩ | ⟨s,hi,rfl⟩ | ⟨s,hr,rfl⟩
    · have hl := ha .logarithm (by decide) [] _ rfl
      rw [match?_of_encloses rfl,pattern_logarithm_group,pattern_group_of_flat hf] at hl
      cases hl
    · exact .inr (.inl ⟨s,hi,rfl⟩)
    · exact .inr (.inr ⟨s,hr,rfl⟩)

end First

end Tier

/-- A text, and the same text with a reference in the place of every group and every call. What
is in them can be read, and the references stand for what it is read as. Apart from them there
are digits and signs. -/
inductive Grouped : Fragment → Fragment → Prop
  | nil : Grouped [] []
  | char {c : Char} (hl : c.isAlpha = false) (ho : c ≠ '(') (hc : c ≠ ')') {a b : Fragment}
    (h : Grouped a b) : Grouped (.char c :: a) (.char c :: b)
  | reference {x y a b : Fragment} (hx : x.assembled? = y.assembled?) (i j : Nat)
    (h : Grouped a b) : Grouped (.ref i x :: a) (.ref j y :: b)
  | group {inner x a b : Fragment} (hi : inner.parsed? ≠ none) (hx : x.assembled? = inner.parsed?)
    (i : Nat) (h : Grouped a b) :
    Grouped (.char '(' :: (inner ++ .char ')' :: a)) (.ref i x :: b)
  | logarithm {inner x a b : Fragment} (hi : inner.parsed? ≠ none)
    (hx : x.assembled? = inner.parsed?.map .ln) (i : Nat) (h : Grouped a b) :
    Grouped (.char 'l' :: .char 'n' :: .char '(' :: (inner ++ .char ')' :: a)) (.ref i x :: b)

namespace Grouped

variable {a b : Fragment} {tier : Tier} {site : Site}

/-- When something enclosed is set aside, it is the next part of the inside of a group or a
call, or a group or a call that has no parentheses inside any more. -/
theorem replace (h : Grouped a b) (ht : tier.encloses = true)
    (hf : Tier.first? a = some (tier, site)) (j : Nat) :
    Grouped (site.replace (.ref j site.matched)) b := by
  induction h generalizing site with
  | nil => cases hf
  | char hl ho hc h ih =>
    obtain ⟨s,hs,rfl⟩ := Tier.first?_skip ht (by simpa using ho)
      (by rintro he; cases he; cases hl) hf
    rw [Site.replace_shift]
    exact .char hl ho hc (ih hs)
  | reference hx i i' h ih =>
    obtain ⟨s,hs,rfl⟩ := Tier.first?_skip ht (by simp) (by simp) hf
    rw [Site.replace_shift]
    exact .reference hx i i' (ih hs)
  | @group inner x a b hi hx i h ih =>
    rcases Tier.first?_group ht (sound_of_parsed? hi).depth hf with
      ⟨-,hflat,rfl⟩ | ⟨s,hs,rfl⟩ | ⟨s,hs,rfl⟩
    · exact .reference (by rw [Fragment.assembled?_group hflat,hx]) j i h
    · have hp := Fragment.parsed?_of_some hs j
      rw [Site.replace_shift,Site.replace_extend]
      exact .group (hp ▸ hi) (hp ▸ hx) i h
    · rw [Site.replace_shift,List.cons_append,List.append_assoc]
      exact .group hi hx i (ih hs)
  | @logarithm inner x a b hi hx i h ih =>
    rcases Tier.first?_logarithm ht (sound_of_parsed? hi).depth hf with
      ⟨-,hflat,rfl⟩ | ⟨s,hs,rfl⟩ | ⟨s,hs,rfl⟩
    · exact .reference (by rw [Fragment.assembled?_logarithm hflat,hx]) j i h
    · have hp := Fragment.parsed?_of_some hs j
      rw [Site.replace_shift,Site.replace_extend]
      exact .logarithm (hp ▸ hi) (hp ▸ hx) i h
    · rw [Site.replace_shift,List.cons_append,List.cons_append,List.cons_append,List.append_assoc]
      exact .logarithm hi hx i (ih hs)

/-- When nothing is enclosed any more, there are references in the places of all groups. -/
theorem like (h : Grouped a b) (hn : ∀ tier : Tier, tier.encloses = true → tier.Nowhere a) :
    a.Like (SameOutcome (· = ·)) b := by
  have grouped : ∀ {inner rest : Fragment}, inner.parsed? ≠ none →
      ¬Tier.group.Nowhere (.char '(' :: (inner ++ .char ')' :: rest)) := by
    intro inner rest hi hg
    have hd := (sound_of_parsed? hi).depth
    have hp := hg [] _ rfl
    rw [Tier.match?_of_encloses rfl,Tier.pattern_group_of_flat
      (Fragment.flat_of_depth? hd (Tier.nowhere_group rfl hd hg).1)] at hp
    cases hp
  induction h with
  | nil => exact .nil
  | @char c hl ho hc a b h ih =>
    refine .cons (.char c) (ih fun tier ht => Tier.nowhere_skip ht ?_ ?_ (hn tier ht))
    · simpa using ho
    · rintro he
      cases he
      cases hl
  | reference hx i j h ih =>
    refine .cons (.ref (Fragment.sameOutcome_iff.mpr (rel_eq_iff.mpr hx))) (ih fun tier ht => ?_)
    exact Tier.nowhere_skip ht (by simp) (by simp) (hn tier ht)
  | group hi hx i h ih => exact absurd (hn .group rfl) (grouped hi)
  | logarithm hi hx i h ih =>
    exact absurd (Tier.nowhere_logarithm rfl (hn .group rfl)) (grouped hi)

/-- A collapse comes to references in the places of all groups, before it sets anything else
aside. -/
theorem collapse (h : Grouped a b) (table : Table) :
    ∃ c later, Formula.collapse a table = Formula.collapse c later ∧
      c.Like (SameOutcome (· = ·)) b := by
  fun_induction Formula.collapse a table with
  | case1 a table hf =>
    exact ⟨a,table,(collapse_of_none hf table).symm,h.like fun tier _ => Tier.nowhere_of_first? hf tier⟩
  | case2 a table tier site hf ih =>
    by_cases ht : tier.encloses = true
    · exact ih (h.replace ht hf _)
    · refine ⟨a,table,(collapse_of_some hf table).symm,h.like fun higher hh => ?_⟩
      refine (Tier.first?_eq_some_iff.mp hf).2 higher ?_
      revert ht hh
      cases tier <;> cases higher <;> decide

theorem parsed?_eq (h : Grouped a b) : a.parsed? = b.parsed? := by
  obtain ⟨c,later,hc,hl⟩ := h.collapse .empty
  rw [Fragment.parsed?,hc,Fragment.parsed?]
  exact rel_eq_iff.mp (Fragment.rel_collapse Expr.congruence_eq hl later .empty)

end Grouped

theorem Fragment.outcome_of_assembled? {a : Fragment} {e : Expr} (h : a.assembled? = some e)
    (table : Table) : (assemble a table).outcome = .ok e := by
  have ho := a.outcome_assemble table
  rw [h] at ho
  cases hr : (assemble a table).outcome with
  | error error =>
    rw [hr] at ho
    cases ho
  | ok e' =>
    rw [hr] at ho
    exact congrArg _ (Option.some.inj ho)

section Skeletons

variable {x y : Fragment}

theorem parsed?_juxtaposition (i j : Nat) (x y : Fragment) :
    Fragment.parsed? [.ref i x, .ref j y] = Expr.join? .times x.assembled? y.assembled? := by
  have hs : Tier.first? [.ref i x, .ref j y] =
      some (.product, ⟨[], [.ref i x, .ref j y], []⟩) := rfl
  have hj := Fragment.assembled?_juxtaposition (.reference i x) (.inl rfl)
    (t := .ref j y) (.inl rfl) (Fragment.ends_ref [.ref i x] j y [])
  rw [List.singleton_append,Fragment.assembled?_ref,Fragment.assembled?_ref] at hj
  rw [Fragment.parsed?_of_some hs 0,Site.replace,List.nil_append,parsed?_reference,hj]

theorem outcome_operation (op : BinaryOp) (i j : Nat) {A B : Expr} (hx : x.assembled? = some A)
    (hy : y.assembled? = some B) (table : Table) :
    (assemble (collapse [.ref i x, .char op.symbol, .ref j y] table).1
        (collapse [.ref i x, .char op.symbol, .ref j y] table).2).outcome =
      (Expr.combine op A B).mapError .construction := by
  have hs : Tier.first? [.ref i x, .char op.symbol, .ref j y] =
      some (op.tier, ⟨[], [.ref i x, .char op.symbol, .ref j y], []⟩) := by
    cases op <;> rfl
  have hop : Fragment.shape [.ref i x, .char op.symbol, .ref j y] =
      .operation op [.ref i x] [.ref j y] :=
    Fragment.shape_operation op (.reference i x) (.reference j y)
  rw [← Fragment.assembled?_ref i x] at hx
  rw [← Fragment.assembled?_ref j y] at hy
  rw [collapse_of_some hs,Site.replace,List.nil_append,collapse_of_none rfl,
    assemble_of_reference (Fragment.shape_ref _ _)]
  refine (congrArg Reading.outcome (assemble_of_operation hop _)).trans ?_
  exact Reading.outcome_join_of_ok (Fragment.outcome_of_assembled? hx _)
    (Fragment.outcome_of_assembled? hy _)

end Skeletons

/-- Allowed characters with groups in them that can be read, and what is left of them when these
are set aside. -/
structure Framed (s : List Char) (skeleton : Fragment) : Prop where
  allowed : ∀ c ∈ s, isAllowed c = true
  grouped : Grouped (s.map .char) skeleton

namespace Framed

variable {s : List Char} {skeleton : Fragment} {a : String} {A : Expr}

theorem nil : Framed [] [] := ⟨List.forall_mem_nil _,.nil⟩

theorem sign (op : BinaryOp) (h : Framed s skeleton) :
    Framed (op.symbol :: s) (.char op.symbol :: skeleton) where
  allowed := List.forall_mem_cons.mpr ⟨isAllowed_symbol op,h.allowed⟩
  grouped := .char (by cases op <;> rfl) (by cases op <;> decide) (by cases op <;> decide) h.grouped

theorem allowed_group (ha : parse a = .ok A) (h : Framed s skeleton) :
    ∀ c ∈ '(' :: (a.toList ++ ')' :: s), isAllowed c = true := by
  refine List.forall_mem_cons.mpr ⟨rfl,List.forall_mem_append.mpr ⟨isAllowed_of_parse ha,?_⟩⟩
  exact List.forall_mem_cons.mpr ⟨rfl,h.allowed⟩

theorem group (ha : parse a = .ok A) (h : Framed s skeleton) : ∃ x : Fragment,
    x.assembled? = some A ∧ Framed ('(' :: (a.toList ++ ')' :: s)) (.ref 0 x :: skeleton) := by
  have hp : Fragment.parsed? (a.toList.map .char) = some A := (parse_eq_ok_iff.mp ha).2
  have hn : Fragment.parsed? (a.toList.map .char) ≠ none := by simp [hp]
  refine ⟨_,hp,h.allowed_group ha,?_⟩
  simpa using Grouped.group hn rfl 0 h.grouped

theorem logarithm (ha : parse a = .ok A) (h : Framed s skeleton) : ∃ x : Fragment,
    x.assembled? = some (.ln A) ∧
      Framed ('l' :: 'n' :: '(' :: (a.toList ++ ')' :: s)) (.ref 0 x :: skeleton) := by
  have hp : Fragment.parsed? (a.toList.map .char) = some A := (parse_eq_ok_iff.mp ha).2
  obtain ⟨x,hx,-⟩ := nil.group ha
  have hl : Fragment.assembled? (.char 'l' :: .char 'n' :: .char '(' :: [.ref 0 x] ++ [.char ')']) =
      some (.ln A) := by
    rw [Fragment.assembled?_logarithm (by simp [Fragment.Flat,Token.isParenthesis]),
      parsed?_reference,hx,Option.map_some]
  have hn : Fragment.parsed? (a.toList.map .char) ≠ none := by simp [hp]
  refine ⟨_,hl,?_,?_⟩
  · exact List.forall_mem_cons.mpr ⟨rfl,List.forall_mem_cons.mpr ⟨rfl,h.allowed_group ha⟩⟩
  · simpa using Grouped.logarithm hn (hl.trans (by rw [hp]; rfl)) 0 h.grouped

theorem parse_eq_ok {t : String} (h : Framed t.toList skeleton) {e : Expr}
    (he : skeleton.parsed? = some e) : parse t = .ok e :=
  parse_eq_ok_iff.mpr ⟨h.allowed,h.grouped.parsed?_eq.trans he⟩

end Framed

section Texts

variable {a b : String} {A B : Expr}

theorem parse_operation_groups (op : BinaryOp) (ha : parse a = .ok A) (hb : parse b = .ok B) :
    parse ("(" ++ a ++ ")" ++ op.symbol.toString ++ "(" ++ b ++ ")") =
      (Expr.combine op A B).mapError .construction := by
  obtain ⟨y,hy,hf⟩ := Framed.nil.group hb
  obtain ⟨x,hx,hf⟩ := (hf.sign op).group ha
  have ht : ("(" ++ a ++ ")" ++ op.symbol.toString ++ "(" ++ b ++ ")").toList =
      '(' :: (a.toList ++ ')' :: op.symbol :: '(' :: (b.toList ++ ')' :: [])) := by
    simp
  rw [← ht] at hf
  have hn : "(" ++ a ++ ")" ++ op.symbol.toString ++ "(" ++ b ++ ")" ≠ "" := by
    intro he
    rw [he] at ht
    cases ht
  obtain ⟨c,later,hc,hl⟩ := hf.grouped.collapse .empty
  rw [parse,read_of_isAllowed hn hf.allowed,Fragment.ofString,hc]
  rcases hl with _ | ⟨hl,_ | ⟨hs,_ | ⟨hr,_ | _⟩⟩⟩
  cases hl with
  | ref hx' =>
    cases hs with
    | char _ =>
      cases hr with
      | ref hy' =>
        refine outcome_operation op _ _ ?_ ?_ later
        · exact (rel_eq_iff.mp (Fragment.sameOutcome_iff.mp hx')).trans hx
        · exact (rel_eq_iff.mp (Fragment.sameOutcome_iff.mp hy')).trans hy

/-- Groups are read on their own, wherever they are put together: alone, behind a minus, as the
operand of a logarithm, side by side, or with a sign between them. -/
theorem parse_groups (ha : parse a = .ok A) (hb : parse b = .ok B) :
    parse ("(" ++ a ++ ")") = .ok A ∧
    parse ("-(" ++ a ++ ")") = .ok (-A) ∧
    parse ("ln(" ++ a ++ ")") = .ok (.ln A) ∧
    parse ("(" ++ a ++ ")(" ++ b ++ ")") = .ok (A * B) ∧
    ∀ op : BinaryOp,
      parse ("(" ++ a ++ ")" ++ op.symbol.toString ++ "(" ++ b ++ ")") =
        (Expr.combine op A B).mapError .construction ∧
      (parse ("(" ++ a ++ ")" ++ op.symbol.toString ++ "(" ++ b ++ ")") =
        .error (.construction .divideByZero) ↔ op = .divide ∧ B = .const 0) := by
  obtain ⟨x,hx,hf⟩ := Framed.nil.group ha
  refine ⟨?_,?_,?_,?_,fun op => ⟨parse_operation_groups op ha hb,?_⟩⟩
  · exact Framed.parse_eq_ok (by simpa using hf) ((parsed?_reference 0 x).trans hx)
  · have hm : Fragment.parsed? [.char BinaryOp.minus.symbol, .ref 0 x] = some (-A) := by
      rw [Fragment.parsed?_of_scan? (v := x.assembled?.map .neg) rfl,hx]
      rfl
    exact Framed.parse_eq_ok (by simpa [BinaryOp.symbol] using hf.sign .minus) hm
  · obtain ⟨y,hy,hl⟩ := Framed.nil.logarithm ha
    exact Framed.parse_eq_ok (by simpa using hl) ((parsed?_reference 0 y).trans hy)
  · obtain ⟨y,hy,hl⟩ := Framed.nil.group hb
    obtain ⟨x,hx,hl⟩ := hl.group ha
    refine Framed.parse_eq_ok (by simpa using hl) ((parsed?_juxtaposition 0 0 x y).trans ?_)
    rw [hx,hy]
    rfl
  · rw [parse_operation_groups op ha hb,Expr.combine]
    split <;> simp_all [Except.mapError]

end Texts

/-- A product without a sign over the constant zero. -/
theorem parse_groups_quotient :
    parse "-2x" = .ok (.binary .times (.const (-2)) (.var "x")) ∧ parse "0" = .ok (.const 0) ∧
      parse ("(" ++ "-2x" ++ ")") = .ok (.binary .times (.const (-2)) (.var "x")) ∧
      parse ("(" ++ "-2x" ++ ")" ++ BinaryOp.divide.symbol.toString ++ "(" ++ "0" ++ ")") =
        .error (.construction .divideByZero) := by
  have ha : parse "-2x" = .ok (.binary .times (.const (-2)) (.var "x")) := by cbv
  have hb : parse "0" = .ok (.const 0) := by cbv
  obtain ⟨h,-,-,-,hop⟩ := parse_groups ha hb
  exact ⟨ha,hb,h,(hop .divide).2.mpr ⟨rfl,rfl⟩⟩

end Fluxion.Formula
