import Fluxion.Proofs.Grammar
import Fluxion.Proofs.Language

/-! What is accepted is read, as far as the form goes. What remains are numbers that are too
large and divisors that are zero. -/
namespace Fluxion.Formula

/-- Whether an error is about the form of a formula, and not about a number or a divisor. -/
def ParseError.isAboutForm : ParseError → Bool
  | empty | invalidCharacter _ _ | invalidExpression _ => true
  | invalidInteger _ | construction _ => false

/-- Reading does not fail because of the form. -/
def Reading.Formed (r : Reading) : Prop := ∀ e, r.outcome = .error e → e.isAboutForm = false

namespace Reading

variable {r : Reading}

theorem formed_of_ok {a : Expr} {table : Table} : Formed ⟨.ok a, table⟩ := nofun

theorem Formed.map (h : r.Formed) (f : Expr → Expr) : (r.map f).Formed :=
  fun e he => h e (error_of_map he)

theorem Formed.join (h : r.Formed) (op : BinaryOp) {right : Table → Reading}
    (hr : ∀ table, (right table).Formed) : (Reading.join op r right).Formed := by
  intro e he
  rcases error_of_join he with hl | ⟨-,hright⟩ | ⟨c,rfl⟩
  · exact h e hl
  · exact hr r.table e hright
  · rfl

end Reading

namespace Fragment

variable {text a b inner : Fragment}

/-- A text that is assembled with no error about its form, whatever the table. -/
def Formed (a : Fragment) : Prop := ∀ table, (assemble a table).Formed

/-- A text that is collapsed to a text without such an error. -/
def Recognized (text : Fragment) : Prop :=
  ∀ table table', (assemble (collapse text table).1 table').Formed

theorem formed_integer {negative : Bool} {digits : Fragment}
    (h : a.shape = .integer negative digits) : a.Formed := by
  intro table e he
  rw [assemble_of_integer h] at he
  cases hi : integer? negative digits.source with
  | none =>
    rw [hi] at he
    cases he
    rfl
  | some v =>
    rw [hi] at he
    cases he

theorem Operand.formed (h : a.Operand)
    (hp : ∀ (i : Nat) (content : Fragment), .ref i content ∈ a → content.Formed) : a.Formed := by
  cases h with
  | name hn hc =>
    intro table
    rw [assemble_of_name (shape_name hn hc)]
    exact Reading.formed_of_ok
  | number hn hc => exact formed_integer (shape_number hn hc)
  | reference i content =>
    intro table
    rw [assemble_of_reference (shape_ref i content)]
    exact hp i content (by simp) table

theorem formed_minus (ha : a.Operand) (h : a.Formed) : Formed (.char '-' :: a) := by
  have hs := shape_minus_operand ha
  by_cases hd : a.all Token.isDigit = true
  · rw [if_pos hd] at hs
    exact formed_integer hs
  · rw [if_neg hd] at hs
    intro table
    rw [assemble_of_negation hs]
    exact (h table).map .neg

theorem formed_operation (op : BinaryOp) (ha : a.Operand) (hb : b.Operand) (h : a.Formed)
    (h' : b.Formed) : Formed (a ++ .char op.symbol :: b) := by
  intro table
  rw [assemble_of_operation (shape_operation op ha hb)]
  exact (h table).join op h'

theorem formed_juxtaposition (ha : a.Operand) (hl : a.length = 1 ∨ a.all Token.isDigit = true)
    {t : Token} (ht : t.isReference = true ∨ t.isLetter = true) (he : a.Ends [t]) (h : a.Formed)
    (h' : Formed [t]) : Formed (a ++ [t]) := by
  intro table
  rw [assemble_of_juxtaposition (shape_juxtaposition ha hl ht he)]
  exact (h table).join .times h'

theorem formed_group (hi : inner.Flat) (h : inner.Recognized) :
    Formed (.char '(' :: inner ++ [.char ')']) := by
  intro table
  rw [assemble_of_group (shape_group hi)]
  exact h table _

theorem formed_logarithm (hi : inner.Flat) (h : inner.Recognized) :
    Formed (.char 'l' :: .char 'n' :: .char '(' :: inner ++ [.char ')']) := by
  intro table
  rw [assemble_of_logarithm (shape_logarithm hi)]
  exact (h table _).map .ln

/-- A text that may be read as far as its tokens show it. -/
structure Acceptable (text : Fragment) : Prop where
  accepts : (Spot.operand .nothing).accepts text = true
  depth : depth? 0 text = some 0
  parts (i : Nat) (content : Fragment) (h : .ref i content ∈ text) : content.Formed

theorem formed_of_match {tier : Tier} {m after : Fragment} (h : tier.Match m after)
    (hr : m.isReadable = true)
    (hp : ∀ (i : Nat) (content : Fragment), .ref i content ∈ m → content.Formed)
    (ih : ∀ inner : Fragment, inner.length < m.length → inner.Acceptable → inner.Recognized) :
    m.Formed := by
  have part : ∀ {a : Fragment}, a.Operand → (∀ t ∈ a, t ∈ m) → a.Formed := fun ha hsub =>
    ha.formed fun i content hm => hp i content (hsub _ hm)
  have inside : ∀ {inner : Fragment}, inner.Flat → inner.length < m.length → (∀ t ∈ inner, t ∈ m) →
      (Spot.operand .nothing).accepts inner = true → inner.Recognized :=
    fun hi hl hsub hacc =>
      ih _ hl ⟨hacc,depth?_flat hi 0,fun i content hm => hp i content (hsub _ hm)⟩
  cases h with
  | @logarithm inner hi =>
    rw [isReadable_logarithm hi] at hr
    refine formed_logarithm hi (inside hi ?_ (by simp +contextual) hr)
    simp only [List.cons_append,List.length_cons,List.length_append]
    omega
  | @group inner hi =>
    rw [isReadable_group hi] at hr
    refine formed_group hi (inside hi ?_ (by simp +contextual) hr)
    simp only [List.cons_append,List.length_cons,List.length_append]
    omega
  | negation ha he hp => exact formed_minus ha (part ha (by simp +contextual))
  | cut hn ha w =>
    have ha := ha.of_concat hn
    exact formed_minus ha (part ha (by simp +contextual))
  | operation op ha hb he =>
    exact formed_operation op ha hb (part ha (by simp +contextual)) (part hb (by simp +contextual))
  | @reference a ha j content =>
    have hends := a.ends_ref j content []
    rw [isReadable_concat ha (.inl rfl) hends] at hr
    exact formed_juxtaposition ha (of_decide_eq_true hr) (.inl rfl) hends
      (part ha (by simp +contextual)) (part (.reference j content) (by simp))
  | @coefficient a x ha hn hx =>
    have hxo : x.isOperand = true := by simp [Token.isOperand,hx]
    exact formed_juxtaposition ha (ha.isFactor hn) (.inr hx) (ends_letter hn hx [])
      (part ha (by simp +contextual)) (part (.singleton hxo) (by simp))

theorem Acceptable.replace (h : text.Acceptable) {tier : Tier} {site : Site}
    (hs : Tier.First text tier site)
    (ih : ∀ part : Fragment, part.length < text.length → part.Acceptable → part.Recognized)
    (i : Nat) : Acceptable (site.replace (.ref i site.matched)) := by
  have hacc := h.accepts
  rw [hs.accepts_eq h.depth i site.matched,Bool.and_eq_true_iff] at hacc
  have hl := congrArg List.length hs.cut
  rw [List.length_append,List.length_append] at hl
  have hm : site.matched.Formed := by
    refine formed_of_match hs.match hacc.1 (fun j content hm => h.parts j content ?_)
      fun inner hi => ih inner (by omega)
    rw [hs.cut]
    simp [hm]
  refine ⟨hacc.2,(hs.depth?_replace 0 i _).trans h.depth,fun j content hc => ?_⟩
  rcases List.mem_append.mp hc with hb | hb
  · exact h.parts j content (by rw [hs.cut]; simp [hb])
  · rcases List.mem_cons.mp hb with ha | ha
    · cases ha
      exact hm
    · exact h.parts j content (by rw [hs.cut]; simp [ha])

/-- An acceptable text is read without an error about its form. -/
theorem Acceptable.recognized (h : text.Acceptable) : text.Recognized := by
  induction hlen : text.length using Nat.strongRecOn generalizing text with
  | ind n ih =>
    intro table table'
    cases hfirst : Tier.first? text with
    | none =>
      have hn := Tier.nowhere_of_first? hfirst
      have ho := Spot.operand_of_nowhere (flat_of_depth? h.depth (hn .group)) hn h.accepts
      rw [collapse_of_none hfirst]
      exact ho.formed h.parts table'
    | some r =>
      obtain ⟨tier,site⟩ := r
      rw [collapse_of_some hfirst]
      refine ih _ (hlen ▸ Tier.length_replace_lt hfirst _) ?_ rfl _ table'
      exact h.replace (Tier.first_of_first? hfirst) (fun part hp ha => ih _ (hlen ▸ hp) ha rfl) _

end Fragment

/-- Whether a text is a formula: it is accepted from its beginning and its parentheses
match. -/
def isFormula (s : List Char) : Bool :=
  (Spot.operand .nothing).accepts (s.map .char) && Fragment.depth? 0 (s.map .char) == some 0

theorem isAllowed_of_run {s q : Spot} {cs : List Char}
    (h : follow Spot.next s (cs.map .char) = some q) :
    ∀ c ∈ cs, isAllowed c = true := by
  induction cs generalizing s with
  | nil => simp
  | cons c cs ih =>
    obtain ⟨m,hm,hr⟩ := Option.bind_eq_some_iff.mp h
    refine List.forall_mem_cons.mpr ⟨?_,ih hr⟩
    simp only [Spot.next] at hm
    split at hm
    · exact isAllowed_of_isAlpha ‹_›
    · split at hm
      · exact isAllowed_of_isDigit ‹_›
      · split at hm
        · subst c
          rfl
        · split at hm
          · subst c
            rfl
          · split at hm
            · rename_i hc
              rw [hc.1]
              rfl
            · obtain ⟨op,hop,-⟩ := Option.bind_eq_some_iff.mp hm
              rw [← BinaryOp.symbol_of_ofSymbol? hop]
              exact isAllowed_symbol op

theorem isFormula_of_parse {s : String} {t : Expr} (h : parse s = .ok t) :
    isFormula s.toList = true := by
  have hp : Fragment.parsed? (s.toList.map .char) ≠ none := by
    rw [show Fragment.parsed? (s.toList.map .char) = some t from (parse_eq_ok_iff.mp h).2]
    simp
  rw [isFormula,Fragment.accepts_of_parsed? hp,(sound_of_parsed? hp).depth]
  rfl

theorem isAboutForm_of_parse {s : String} (h : isFormula s.toList = true) {e : ParseError}
    (he : parse s = .error e) : e.isAboutForm = false := by
  obtain ⟨hacc,hdepth⟩ := Bool.and_eq_true_iff.mp h
  have hdepth : Fragment.depth? 0 (s.toList.map .char) = some 0 := by simpa using hdepth
  have ha : Fragment.Acceptable (.ofString s) :=
    ⟨hacc,hdepth,fun i content hm => by simp [Fragment.ofString] at hm⟩
  simp only [parse,read] at he
  split at he
  · rename_i hs
    have hs : s = "" := by simpa using hs
    subst hs
    cases hacc
  · cases hr : follow Spot.next (Spot.operand .nothing) (s.toList.map .char) with
    | none =>
      rw [Spot.accepts,hr] at hacc
      cases hacc
    | some q =>
      rw [firstInvalid?_eq_none_iff.mpr (isAllowed_of_run hr)] at he
      exact ha.recognized _ _ e he

/-- Exactly the formulas are read, unless a number is too large or a divisor is zero. Digits
right behind a letter or a group are read with what follows them, and where nothing follows
them in their group the text is none. -/
theorem parse_of_stray_digits (s : String) :
    ((∃ t, parse s = .ok t) → isFormula s.toList = true) ∧
      (isFormula s.toList = true → ∀ e, parse s = .error e → e.isAboutForm = false) ∧
      ∀ (u ds w : List Char) (c : Char), s.toList = u ++ c :: (ds ++ w) →
        (c.isAlpha = true ∨ c = ')') → ds ≠ [] → (∀ d ∈ ds, d.isDigit = true) →
        (w = [] ∨ w.head? = some ')') → ∀ t, parse s ≠ .ok t := by
  refine ⟨fun ⟨t,ht⟩ => isFormula_of_parse ht,fun h e he => isAboutForm_of_parse h he,?_⟩
  intro u ds w c hs hc hn hd hw t ht
  have hp : Fragment.parsed? (s.toList.map .char) ≠ none := by
    rw [show Fragment.parsed? (s.toList.map .char) = some t from (parse_eq_ok_iff.mp ht).2]
    simp
  obtain ⟨p,hplace,hcomplete⟩ := (sound_of_parsed? hp).place
  rw [hs,List.map_append,List.map_cons,List.map_append] at hplace
  obtain ⟨q,-,hplace⟩ := follow_append_eq_some hplace
  rw [follow_cons] at hplace
  obtain ⟨r,hr,hplace⟩ := Option.bind_eq_some_iff.mp hplace
  have hr : r = .factor := by
    rcases hc with hc | rfl
    · rw [Place.next_letter (t := .char c) hc] at hr
      exact (Option.some.inj hr).symm
    · rw [show q.next (.char ')') = if q.isComplete then some .factor else none from rfl] at hr
      split at hr
      · exact (Option.some.inj hr).symm
      · cases hr
  subst hr
  rw [follow_append,Place.run_digits hn hd] at hplace
  cases w with
  | nil =>
    cases hplace
    cases hcomplete
  | cons x w =>
    rcases hw with hw | hw
    · cases hw
    · cases hw
      cases hplace

theorem parse_x_times_sum : parse "x2+3" =
    .ok (.binary .times (.var "x") (.binary .plus (.const 2) (.const 3))) := by
  have hs : "x2+3".toList = ['x', '2', '+', '3'] := by decide
  have two : Fragment.Operand (['2'].map .char) :=
    .number (by decide) (List.forall_mem_singleton.mpr rfl)
  have three : Fragment.Operand (['3'].map .char) :=
    .number (by decide) (List.forall_mem_singleton.mpr rfl)
  have x : Fragment.Operand (['x'].map .char) :=
    .name (by decide) (List.forall_mem_singleton.mpr rfl)
  have hsum : Fragment.assembled? [.char '2', .char '+', .char '3'] =
      some (.binary .plus (.const 2) (.const 3)) := by
    refine (Fragment.assembled?_operation .plus two three).trans ?_
    rw [Fragment.assembled?_number (by decide) (List.forall_mem_singleton.mpr rfl),
      Fragment.assembled?_number (by decide) (List.forall_mem_singleton.mpr rfl)]
    rfl
  have hproduct : Fragment.assembled? [.char 'x', .ref 0 [.char '2', .char '+', .char '3']] =
      some (.binary .times (.var "x") (.binary .plus (.const 2) (.const 3))) := by
    refine (Fragment.assembled?_juxtaposition x (.inl rfl) (.inl rfl)
      (Fragment.ends_ref _ 0 _ [])).trans ?_
    rw [Fragment.assembled?_name (by decide) (List.forall_mem_singleton.mpr rfl),
      Fragment.assembled?_ref,hsum]
    rfl
  refine parse_eq_ok_iff.mpr ⟨?_,?_⟩
  · rw [hs]
    simp only [List.forall_mem_cons]
    exact ⟨rfl,rfl,rfl,rfl,List.forall_mem_nil _⟩
  · rw [Fragment.ofString,hs,List.map_cons,List.map_cons,List.map_cons,List.map_singleton,
      @Fragment.parsed?_of_some _ .sum ⟨[.char 'x'], [.char '2', .char '+', .char '3'], []⟩ rfl 0,
      Site.replace,List.singleton_append,@Fragment.parsed?_of_some _ .product
        ⟨[], [.char 'x', .ref 0 [.char '2', .char '+', .char '3']], []⟩ rfl 0,
      Site.replace,List.nil_append,Fragment.parsed?_of_none rfl,Fragment.assembled?_ref,hproduct]

theorem parse_of_stray_digits_x :
    parse "x2+3" = .ok (.binary .times (.var "x") (.binary .plus (.const 2) (.const 3))) ∧
      isFormula "x2+3".toList = true ∧ (∀ e, parse "x2+3" = .error e → e.isAboutForm = false) ∧
      ∀ t, parse "x2" ≠ .ok t := by
  have hs : "x2+3".toList = ['x', '2', '+', '3'] := by decide
  have hs' : "x2".toList = ['x', '2'] := by decide
  have hf : isFormula "x2+3".toList = true := by
    rw [hs]
    rfl
  refine ⟨parse_x_times_sum,(parse_of_stray_digits "x2+3").1 ⟨_,parse_x_times_sum⟩,
    (parse_of_stray_digits "x2+3").2.1 hf,?_⟩
  exact (parse_of_stray_digits "x2").2.2 [] ['2'] [] 'x' hs' (.inl rfl) (by decide)
    (List.forall_mem_singleton.mpr rfl) (.inl rfl)

end Fluxion.Formula
