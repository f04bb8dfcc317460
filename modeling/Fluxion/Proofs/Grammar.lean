import Fluxion.Formula.Reading

/-! The grammar of formulas in which every operator is written. Every binary operator
associates to the left, a minus binds like a product, and only the last exponent of a
tower may have a minus of its own. -/
namespace Fluxion.Formula

/-- What a part of a text is. -/
inductive Phrase
  | sum | product | signed | negative | factor | power | primary

/-- The texts of the grammar and the trees that they stand for. A minus right in front of
digits is part of the constant, unless the digits are the base of a power. -/
inductive Phrase.Derives : Phrase → List Char → Expr → Prop
  | number {ds : List Char} {v : Int64} (hn : ds ≠ []) (hd : ∀ c ∈ ds, c.isDigit = true)
    (hv : v.toInt = Decimal.toNat ds) : Derives .primary ds (.const v)
  | name {cs : List Char} (hn : cs ≠ []) (hc : ∀ c ∈ cs, c.isAlpha = true) :
    Derives .primary cs (.var (String.ofList cs))
  | group {s : List Char} {t : Expr} (h : Derives .sum s t) :
    Derives .primary ('(' :: s ++ [')']) t
  | logarithm {s : List Char} {t : Expr} (h : Derives .sum s t) :
    Derives .primary ('l' :: 'n' :: '(' :: s ++ [')']) (.ln t)
  | base {s : List Char} {t : Expr} (h : Derives .primary s t) : Derives .power s t
  | power {s s' : List Char} {t t' : Expr} (h : Derives .power s t) (h' : Derives .primary s' t') :
    Derives .power (s ++ '^' :: s') (.binary .power t t')
  | tower {s : List Char} {t : Expr} (h : Derives .power s t) : Derives .factor s t
  | exponent {s s' : List Char} {t t' : Expr} (h : Derives .power s t)
    (h' : Derives .negative s' t') : Derives .factor (s ++ '^' :: s') (.binary .power t t')
  | literal {ds : List Char} {v : Int64} (hn : ds ≠ []) (hd : ∀ c ∈ ds, c.isDigit = true)
    (hv : v.toInt = -Decimal.toNat ds) : Derives .negative ('-' :: ds) (.const v)
  | negate {s : List Char} {t : Expr} (h : Derives .signed s t) (hd : ∃ c ∈ s, c.isDigit = false) :
    Derives .negative ('-' :: s) (.neg t)
  | minus {s : List Char} {t : Expr} (h : Derives .negative s t) : Derives .signed s t
  | unsigned {s : List Char} {t : Expr} (h : Derives .factor s t) : Derives .signed s t
  | single {s : List Char} {t : Expr} (h : Derives .signed s t) : Derives .product s t
  | product {s s' : List Char} {t t' : Expr} {op : BinaryOp} (hop : op = .times ∨ op = .divide)
    (h : Derives .product s t) (h' : Derives .signed s' t')
    (hz : op = .divide → t' ≠ .const 0) :
    Derives .product (s ++ op.symbol :: s') (.binary op t t')
  | term {s : List Char} {t : Expr} (h : Derives .product s t) : Derives .sum s t
  | sum {s s' : List Char} {t t' : Expr} {op : BinaryOp} (hop : op = .plus ∨ op = .minus)
    (h : Derives .sum s t) (h' : Derives .product s' t') :
    Derives .sum (s ++ op.symbol :: s') (.binary op t t')

theorem isAllowed_of_isAlpha {c : Char} (h : c.isAlpha = true) : isAllowed c = true := by
  simp [isAllowed,Char.isAlphanum,h]

theorem isAllowed_of_isDigit {c : Char} (h : c.isDigit = true) : isAllowed c = true := by
  simp [isAllowed,Char.isAlphanum,h]

theorem isAllowed_symbol (op : BinaryOp) : isAllowed op.symbol = true := by
  cases op <;> rfl

/-- Two or more letters, or two or more digits, with a power behind them. -/
def isLongPower (s : List Char) : Bool :=
  let run := s.takeWhile (· ≠ '^')
  '^' ∈ s && 2 ≤ run.length && (run.all Char.isAlpha || run.all Char.isDigit)

/-- A minus in front of an operand: it opens the text or a group, or follows an operator. -/
def isUnaryAfter (previous : Option Char) : Bool :=
  previous.all (· ∈ ['+', '-', '*', '/', '^', '('])

/-- Whether a unary minus stands right in front of a long run with a power behind it,
`previous` being the character in front of the text. -/
def negatesLongPower (previous : Option Char) : List Char → Bool
  | [] => false
  | c :: s => c = '-' && isUnaryAfter previous && isLongPower s || negatesLongPower (some c) s

theorem isLongPower_append {s : List Char} (h : isLongPower s = true) (w : List Char) :
    isLongPower (s ++ w) = true := by
  simp only [isLongPower,Bool.and_eq_true,decide_eq_true_eq] at h ⊢
  obtain ⟨⟨hm,hl⟩,hr⟩ := h
  obtain ⟨u,v,rfl,hu⟩ := List.eq_append_cons_of_mem hm
  have ht : ∀ w, (u ++ '^' :: w).takeWhile (· ≠ '^') = u := by
    intro w
    rw [List.takeWhile_append_of_pos]
    · simp
    · intro c hc
      simpa using fun h : c = '^' => hu (h ▸ hc)
  rw [ht] at hl hr
  refine ⟨⟨by simp,?_⟩,?_⟩
  · rw [List.append_assoc,List.cons_append,ht]
    exact hl
  · rw [List.append_assoc,List.cons_append,ht]
    exact hr

theorem negatesLongPower_append_right {previous : Option Char} {s : List Char}
    (h : negatesLongPower previous s = true) (w : List Char) :
    negatesLongPower previous (s ++ w) = true := by
  induction s generalizing previous with
  | nil => cases h
  | cons c s ih =>
    rw [negatesLongPower,Bool.or_eq_true] at h
    rw [List.cons_append,negatesLongPower,Bool.or_eq_true]
    rcases h with h | h
    · simp only [Bool.and_eq_true] at h ⊢
      exact .inl ⟨h.1,isLongPower_append h.2 w⟩
    · exact .inr (ih h)

theorem negatesLongPower_append_left {previous : Option Char} {u s : List Char}
    (h : negatesLongPower (u.getLast?.or previous) s = true) :
    negatesLongPower previous (u ++ s) = true := by
  induction u generalizing previous with
  | nil => exact h
  | cons c u ih =>
    rw [List.cons_append,negatesLongPower,Bool.or_eq_true]
    refine .inr (ih ?_)
    rw [List.getLast?_cons] at h
    cases hu : u.getLast? <;> simpa [hu] using h

end Fluxion.Formula
