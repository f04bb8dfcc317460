import Fluxion.Proofs.Built
import Fluxion.Proofs.Grammar
import Mathlib

/-! What is read is what is written. From left to right a formula is the expression that it
is read as, with groups around parts of it, and nothing is lost, said twice or moved; only
the sign of a product may be missing. A minus is a sign of its operand where it opens the
text or a group or follows an operator, and only there. -/
namespace Fluxion

/-- What is met in an expression from left to right. -/
inductive Word
  | constant (value : Int64)
  | name (name : String)
  | minus
  | logarithm
  | operator (op : BinaryOp)

def Expr.words : Expr → List Word
  | const v => [.constant v]
  | var name => [.name name]
  | neg a => .minus :: a.words
  | binary op a b => a.words ++ .operator op :: b.words
  | ln a => .logarithm :: a.words

/-- How a word is spelled. The minus of a constant is part of it. -/
inductive Word.Spelled : Word → List Char → Prop
  | number {ds : List Char} {v : Int64} (hn : ds ≠ []) (hd : ∀ c ∈ ds, c.isDigit = true)
    (hv : v.toInt = Decimal.toNat ds) : Spelled (.constant v) ds
  | literal {ds : List Char} {v : Int64} (hn : ds ≠ []) (hd : ∀ c ∈ ds, c.isDigit = true)
    (hv : v.toInt = -Decimal.toNat ds) : Spelled (.constant v) ('-' :: ds)
  | name (name : String) : Spelled (.name name) name.toList
  | minus : Spelled .minus ['-']
  | logarithm : Spelled .logarithm ['l', 'n']
  | operator (op : BinaryOp) : Spelled (.operator op) [op.symbol]
  | omitted : Spelled (.operator .times) []

namespace Formula

/-- A text behind the character `previous`, and an expression that it is the spelling of
from left to right. Any part may be a group. -/
inductive Written : Option Char → List Char → Expr → Prop
  | number {p : Option Char} {ds : List Char} {v : Int64} (hn : ds ≠ [])
    (hd : ∀ c ∈ ds, c.isDigit = true) (hv : v.toInt = Decimal.toNat ds) : Written p ds (.const v)
  | literal {p : Option Char} {ds : List Char} {v : Int64} (hp : isUnaryAfter p = true)
    (hn : ds ≠ []) (hd : ∀ c ∈ ds, c.isDigit = true) (hv : v.toInt = -Decimal.toNat ds) :
    Written p ('-' :: ds) (.const v)
  | name {p : Option Char} {cs : List Char} (hn : cs ≠ []) (hc : ∀ c ∈ cs, c.isAlpha = true) :
    Written p cs (.var (String.ofList cs))
  | group {p : Option Char} {s : List Char} {t : Expr} (h : Written (some '(') s t) :
    Written p ('(' :: s ++ [')']) t
  | minus {p : Option Char} {s : List Char} {t : Expr} (hp : isUnaryAfter p = true)
    (h : Written (some '-') s t) : Written p ('-' :: s) (.neg t)
  | logarithm {p : Option Char} {s : List Char} {t : Expr} (h : Written (some '(') s t) :
    Written p ('l' :: 'n' :: '(' :: s ++ [')']) (.ln t)
  | operation {p : Option Char} {s s' : List Char} {t t' : Expr} (op : BinaryOp)
    (h : Written p s t) (h' : Written (some op.symbol) s' t') :
    Written p (s ++ op.symbol :: s') (.binary op t t')
  | juxtaposition {p : Option Char} {s s' : List Char} {t t' : Expr} (h : Written p s t)
    (h' : Written (s.getLast?.or p) s' t') : Written p (s ++ s') (.binary .times t t')

/-- A text without its parentheses. -/
def withoutParentheses (s : List Char) : List Char := s.filter fun c => c ≠ '(' ∧ c ≠ ')'

section Pieces

variable {s s' : List Char}

theorem withoutParentheses_append (s s' : List Char) :
    withoutParentheses (s ++ s') = withoutParentheses s ++ withoutParentheses s' := by
  simp [withoutParentheses]

theorem withoutParentheses_of_isAlphanum (h : ∀ c ∈ s, c.isAlphanum = true) :
    withoutParentheses s = s := by
  refine List.filter_eq_self.mpr fun c hc => ?_
  have ha := h c hc
  refine decide_eq_true ⟨?_,?_⟩ <;> rintro rfl <;> cases ha

theorem withoutParentheses_group (s : List Char) :
    withoutParentheses ('(' :: s ++ [')']) = withoutParentheses s := by
  simp [withoutParentheses]

theorem withoutParentheses_symbol (op : BinaryOp) (s : List Char) :
    withoutParentheses (op.symbol :: s) = op.symbol :: withoutParentheses s := by
  cases op <;> simp [withoutParentheses,BinaryOp.symbol]

theorem Written.pieces {p : Option Char} {t : Expr} (h : Written p s t) :
    ∃ pieces : List (List Char), pieces.flatten = withoutParentheses s ∧
      List.Forall₂ Word.Spelled t.words pieces := by
  have digits : ∀ {ds : List Char}, (∀ c ∈ ds, c.isDigit = true) →
      withoutParentheses ds = ds := fun hd =>
    withoutParentheses_of_isAlphanum fun c hc => by simp [Char.isAlphanum,hd c hc]
  induction h with
  | @number p ds v hn hd hv =>
    exact ⟨[ds],by simp [digits hd],.cons (.number hn hd hv) .nil⟩
  | @literal p ds v hp hn hd hv =>
    refine ⟨['-' :: ds],?_,.cons (.literal hn hd hv) .nil⟩
    rw [show withoutParentheses ('-' :: ds) = '-' :: withoutParentheses ds from rfl,digits hd]
    simp
  | @name p cs hn hc =>
    refine ⟨[cs],?_,.cons ?_ .nil⟩
    · rw [withoutParentheses_of_isAlphanum fun c hm => by simp [Char.isAlphanum,hc c hm]]
      simp
    · simpa using Word.Spelled.name (String.ofList cs)
  | group h ih =>
    obtain ⟨ps,hf,hw⟩ := ih
    exact ⟨ps,by rw [hf,withoutParentheses_group],hw⟩
  | minus hp h ih =>
    obtain ⟨ps,hf,hw⟩ := ih
    refine ⟨['-'] :: ps,?_,.cons .minus hw⟩
    rw [List.flatten_cons,hf]
    rfl
  | @logarithm p s t h ih =>
    obtain ⟨ps,hf,hw⟩ := ih
    refine ⟨['l', 'n'] :: ps,?_,.cons .logarithm hw⟩
    rw [List.flatten_cons,hf,← withoutParentheses_group s]
    rfl
  | operation op h h' ih ih' =>
    obtain ⟨ps,hf,hw⟩ := ih
    obtain ⟨qs,hg,hv⟩ := ih'
    refine ⟨ps ++ [op.symbol] :: qs,?_,List.rel_append hw (.cons (.operator op) hv)⟩
    rw [withoutParentheses_append,withoutParentheses_symbol,List.flatten_append,
      List.flatten_cons,hf,hg]
    rfl
  | juxtaposition h h' ih ih' =>
    obtain ⟨ps,hf,hw⟩ := ih
    obtain ⟨qs,hg,hv⟩ := ih'
    refine ⟨ps ++ [] :: qs,?_,List.rel_append hw (.cons .omitted hv)⟩
    rw [withoutParentheses_append,List.flatten_append,List.flatten_cons,hf,hg]
    rfl

end Pieces

/-- In a text behind the character `previous`, references to negations stand only where a
minus is in front of an operand. -/
inductive Placed : Option Char → Fragment → Prop
  | nil (p : Option Char) : Placed p []
  | char {p : Option Char} {c : Char} {rest : Fragment} (h : Placed (some c) rest) :
    Placed p (.char c :: rest)
  | ref {p : Option Char} {i : Nat} {content rest : Fragment}
    (hm : content.head? = some (.char '-') → isUnaryAfter p = true) (hc : Placed p content)
    (h : Placed (content.source.getLast?.or p) rest) : Placed p (.ref i content :: rest)

namespace Placed

variable {p : Option Char} {a b rest : Fragment}

theorem tail {c : Char} (h : Placed p (.char c :: rest)) : Placed (some c) rest := by
  cases h with
  | char h => exact h

theorem append (ha : Placed p a) (hb : Placed (a.source.getLast?.or p) b) :
    Placed p (a ++ b) := by
  induction ha with
  | nil p => exact hb
  | char h ih =>
    refine .char (ih ?_)
    rwa [Fragment.source_cons,Token.source_char,List.singleton_append,
      Tier.getLast?_cons_or] at hb
  | ref hm hc h ihc ih =>
    refine .ref hm hc (ih ?_)
    simpa [List.getLast?_append,Option.or_assoc] using hb

theorem of_append (h : Placed p (a ++ b)) : Placed p a ∧ Placed (a.source.getLast?.or p) b := by
  induction a generalizing p with
  | nil => exact ⟨.nil p,h⟩
  | cons t a ih =>
    cases h with
    | char h =>
      obtain ⟨ha,hb⟩ := ih h
      refine ⟨.char ha,?_⟩
      rwa [Fragment.source_cons,Token.source_char,List.singleton_append,Tier.getLast?_cons_or]
    | ref hm hc h =>
      obtain ⟨ha,hb⟩ := ih h
      exact ⟨.ref hm hc ha,by simpa [List.getLast?_append,Option.or_assoc] using hb⟩

theorem of_group (h : Placed p (.char '(' :: a ++ [.char ')'])) : Placed (some '(') a :=
  (of_append h.tail).1

theorem chars (p : Option Char) (cs : List Char) : Placed p (cs.map .char) := by
  induction cs generalizing p with
  | nil => exact .nil p
  | cons c cs ih => exact .char (ih (some c))

end Placed

theorem Fragment.Operand.head?_ne_minus {a : Fragment} (h : a.Operand) :
    a.head? ≠ some (.char '-') := by
  intro hm
  cases h.isOperand (.char '-') (List.mem_of_mem_head? hm)

theorem Fragment.Operand.head?_append {a : Fragment} (h : a.Operand) (rest : Fragment) :
    (a ++ rest).head? = a.head? := by
  obtain ⟨t,a,rfl⟩ := List.exists_cons_of_ne_nil h.ne_nil
  rfl

namespace Tier

variable {text : Fragment} {tier : Tier} {site : Site} {p : Option Char}

theorem Match.eq_negation {m after : Fragment} (h : tier.Match m after)
    (hm : m.head? = some (.char '-')) : tier = .negation := by
  cases h with
  | logarithm _ => cases hm
  | group _ => cases hm
  | negation => rfl
  | cut => rfl
  | operation op ha | reference ha | coefficient ha =>
    rw [ha.head?_append] at hm
    exact absurd hm ha.head?_ne_minus

/-- The minus of a match is in front of an operand. -/
theorem First.isUnaryAfter (hs : First text tier site) (hp : isUnaryAfter p = true)
    (hm : site.matched.head? = some (.char '-')) :
    isUnaryAfter (site.before.source.getLast?.or p) = true := by
  have ht := hs.match.eq_negation hm
  subst ht
  have ho := hs.isOperator_of_negation
  rcases List.eq_nil_or_concat' site.before with hb | ⟨before,t,hb⟩
  · rw [hb]
    exact hp
  · rw [hb] at ho ⊢
    have ho := ho t (by simp)
    cases t with
    | ref i content => cases ho
    | char c =>
      have hc : c ∈ ['+', '-', '*', '/', '^'] := by simpa [Token.isOperator] using ho
      have hc' : c ∈ ['+', '-', '*', '/', '^', '('] := by
        simp only [List.mem_cons,List.not_mem_nil,or_false] at hc ⊢
        tauto
      simpa [Formula.isUnaryAfter] using hc'

theorem First.placed_replace (hs : First text tier site) (h : Placed p text)
    (hp : Formula.isUnaryAfter p = true) (i : Nat) :
    Placed p (site.replace (.ref i site.matched)) := by
  rw [hs.cut] at h
  obtain ⟨hb,h⟩ := h.of_append
  obtain ⟨hm,ha⟩ := h.of_append
  exact hb.append (.ref (hs.isUnaryAfter hp) hm ha)

end Tier

theorem placed_collapse {p : Option Char} {text : Fragment} (h : Placed p text)
    (hp : isUnaryAfter p = true) (table : Table) : Placed p (collapse text table).1 := by
  fun_induction collapse text table with
  | case1 text table hf => exact h
  | case2 text table tier site hf ih =>
    exact ih ((Tier.first_of_first? hf).placed_replace h hp _)

theorem toInt_of_integer? {negative : Bool} {ds : List Char} {v : Int64}
    (h : integer? negative ds = some v) :
    v.toInt = if negative then -(Decimal.toNat ds : Int) else Decimal.toNat ds := by
  obtain ⟨hr,he⟩ := Option.ite_none_right_eq_some.mp h
  cases he
  exact Int64.toInt_ofInt_of_le hr.1 (Int.lt_add_one_of_le hr.2)

theorem join?_eq_some {op : BinaryOp} {x y : Option Expr} {t : Expr}
    (h : Expr.join? op x y = some t) :
    ∃ a b, x = some a ∧ y = some b ∧ t = .binary op a b := by
  obtain ⟨a,ha,h⟩ := Option.bind_eq_some_iff.mp h
  obtain ⟨b,hb,h⟩ := Option.bind_eq_some_iff.mp h
  refine ⟨a,b,ha,hb,?_⟩
  cases hc : Expr.combine op a b with
  | error e =>
    rw [hc] at h
    cases h
  | ok d =>
    rw [hc] at h
    cases h
    exact (Expr.combine_eq_ok hc).1

namespace Fragment

variable {text inner : Fragment}

/-- What a text that is placed well is assembled to is written in its source. -/
def Faithful (a : Fragment) : Prop :=
  ∀ (p : Option Char) (t : Expr), Placed p a →
    (a.head? = some (.char '-') → isUnaryAfter p = true) → a.assembled? = some t →
      Written p a.source t

theorem Faithful.written {a : Fragment} (h : a.Faithful) (ha : a.head? ≠ some (.char '-'))
    {p : Option Char} {t : Expr} (hp : Placed p a) (ht : a.assembled? = some t) :
    Written p a.source t :=
  h p t hp (fun hm => absurd hm ha) ht

theorem written_of_inside
    (h : ∀ part : Fragment, part.source.length ≤ inner.source.length → part.Faithful)
    (hp : Placed (some '(') inner) {t : Expr} (ht : inner.parsed? = some t) :
    Written (some '(') inner.source t := by
  have hw := h (collapse inner .empty).1 (by simp) (some '(') t (placed_collapse hp rfl _)
    (fun _ => rfl) ht
  rwa [source_collapse] at hw

theorem faithful_logarithm (hs : text.shape = .logarithm inner)
    (h : ∀ part : Fragment, part.source.length ≤ inner.source.length → part.Faithful) :
    text.Faithful := by
  intro p t hp _ ht
  rw [assembled?_of_logarithm hs] at ht
  obtain ⟨u,hu,rfl⟩ := Option.map_eq_some_iff.mp ht
  rw [eq_text_of_shape hs] at hp ⊢
  have hi : Placed (some '(') inner := hp.tail.tail.of_group
  simpa [Shape.text] using Written.logarithm (p := p) (written_of_inside h hi hu)

theorem faithful_group (hs : text.shape = .group inner)
    (h : ∀ part : Fragment, part.source.length ≤ inner.source.length → part.Faithful) :
    text.Faithful := by
  intro p t hp _ ht
  rw [assembled?_of_group hs] at ht
  rw [eq_text_of_shape hs] at hp ⊢
  simpa [Shape.text] using Written.group (p := p) (written_of_inside h hp.of_group ht)

theorem faithful_integer {negative : Bool} {digits : Fragment}
    (hs : text.shape = .integer negative digits) : text.Faithful := by
  intro p t _ hm ht
  rw [assembled?_of_integer hs] at ht
  obtain ⟨v,hv,rfl⟩ := Option.map_eq_some_iff.mp ht
  rw [eq_text_of_shape hs] at hm ⊢
  cases formed_of_shape hs with
  | @integer _ cs hn hc =>
    rw [source_map_char] at hv
    have hi := toInt_of_integer? hv
    cases negative with
    | false => simpa [Shape.text] using Written.number (p := p) hn hc hi
    | true => simpa [Shape.text] using Written.literal (hm rfl) hn hc hi

theorem faithful_name {letters : Fragment} (hs : text.shape = .name letters) : text.Faithful := by
  intro p t _ _ ht
  rw [assembled?_of_name hs] at ht
  cases ht
  rw [eq_text_of_shape hs]
  cases formed_of_shape hs with
  | @name cs hn hc => simpa [Shape.text] using Written.name (p := p) hn hc

theorem faithful_reference {i : Nat} {content : Fragment} (hs : text.shape = .reference i content)
    (h : content.Faithful) : text.Faithful := by
  intro p t hp _ ht
  rw [assembled?_of_reference hs] at ht
  rw [eq_text_of_shape hs] at hp ⊢
  cases hp with
  | ref hm hc _ => simpa [Shape.text] using h p t hc hm ht

theorem faithful_negation {operand : Fragment} (hs : text.shape = .negation operand)
    (h : operand.Faithful) : text.Faithful := by
  intro p t hp hm ht
  rw [assembled?_of_negation hs] at ht
  obtain ⟨u,hu,rfl⟩ := Option.map_eq_some_iff.mp ht
  rw [eq_text_of_shape hs] at hp hm ⊢
  exact .minus (hm rfl) (h _ u hp.tail (fun _ => rfl) hu)

theorem faithful_operation {op : BinaryOp} {left right : Fragment}
    (hs : text.shape = .operation op left right) (hl : left.Faithful) (hr : right.Faithful) :
    text.Faithful := by
  intro p t hp _ ht
  rw [assembled?_of_operation hs] at ht
  obtain ⟨x,y,hx,hy,rfl⟩ := join?_eq_some ht
  rw [eq_text_of_shape hs] at hp ⊢
  obtain ⟨hpl,hpr⟩ := hp.of_append
  cases formed_of_shape hs with
  | operation _ ha hb =>
    have hwl := hl.written ha.head?_ne_minus hpl hx
    have hwr := hr.written hb.head?_ne_minus hpr.tail hy
    simpa [Shape.text] using Written.operation op hwl hwr

theorem faithful_juxtaposition {left right : Fragment}
    (hs : text.shape = .juxtaposition left right) (hl : left.Faithful) (hr : right.Faithful) :
    text.Faithful := by
  intro p t hp _ ht
  rw [assembled?_of_juxtaposition hs] at ht
  obtain ⟨x,y,hx,hy,rfl⟩ := join?_eq_some ht
  rw [eq_text_of_shape hs] at hp ⊢
  obtain ⟨hpl,hpr⟩ := hp.of_append
  cases formed_of_shape hs with
  | @juxtaposition _ u ha hu =>
    have hb : [u].head? ≠ some (.char '-') := by
      rintro ⟨⟩
      rcases hu with hu | hu <;> cases hu
    have hwl := hl.written ha.head?_ne_minus hpl hx
    simpa [Shape.text] using Written.juxtaposition hwl (hr.written hb hpr hy)

theorem faithful (a : Fragment) : a.Faithful := by
  induction a using shape_induction with
  | logarithm a inner h ih => exact faithful_logarithm h ih
  | group a inner h ih => exact faithful_group h ih
  | integer a negative digits h => exact faithful_integer h
  | name a letters h => exact faithful_name h
  | reference a i content h ih => exact faithful_reference h ih
  | negation a operand h ih => exact faithful_negation h ih
  | operation a op left right h ihl ihr => exact faithful_operation h ihl ihr
  | juxtaposition a left right h ihl ihr => exact faithful_juxtaposition h ihl ihr
  | unknown a u h =>
    intro p t _ _ ht
    rw [assembled?_of_unknown h] at ht
    cases ht

end Fragment

theorem Written.of_parse {s : String} {t : Expr} (h : parse s = .ok t) :
    Written none s.toList t := by
  have hplaced : Placed none (Fragment.ofString s) := Placed.chars none s.toList
  have hw := Fragment.faithful _ none t (placed_collapse hplaced rfl .empty) (fun _ => rfl)
    (parse_eq_ok_iff.mp h).2
  rwa [source_collapse,Fragment.source_ofString] at hw

/-- A formula is its expression written from left to right. Without the parentheses it is
cut into the words of the expression, one after the other. -/
theorem written_of_parse {s : String} {t : Expr} (h : parse s = .ok t) :
    Written none s.toList t ∧ ∃ pieces : List (List Char),
      pieces.flatten = withoutParentheses s.toList ∧ List.Forall₂ Word.Spelled t.words pieces :=
  ⟨.of_parse h,(Written.of_parse h).pieces⟩

theorem written_of_parse_product :
    parse "-2x(-3)^-y" = .ok (.binary .times (.const (-2)) (.binary .times (.var "x")
        (.binary .power (.const (-3)) (.neg (.var "y"))))) ∧
      Written none "-2x(-3)^-y".toList (.binary .times (.const (-2)) (.binary .times (.var "x")
        (.binary .power (.const (-3)) (.neg (.var "y"))))) ∧
      ∃ pieces : List (List Char), pieces.flatten = withoutParentheses "-2x(-3)^-y".toList ∧
        List.Forall₂ Word.Spelled [.constant (-2), .operator .times, .name "x", .operator .times,
          .constant (-3), .operator .power, .minus, .name "y"] pieces := by
  have h : parse "-2x(-3)^-y" = .ok (.binary .times (.const (-2)) (.binary .times (.var "x")
      (.binary .power (.const (-3)) (.neg (.var "y"))))) := by cbv
  exact ⟨h,written_of_parse h⟩

end Formula
end Fluxion
