import Fluxion.Formula.Reading
import Fluxion.Proofs.Operand
import Mathlib.Data.List.Forall2

/-! Patterns do not look into references. Two texts that differ only in the numbers
and the contents of their references are cut at the same places, so their collapses
and their shapes correspond token by token. -/
namespace Fluxion.Formula

section Related

variable {α β γ δ : Type} {r : α → β → Prop} {s : γ → δ → Prop} {x : Option α} {y : Option β}

theorem rel_bind {f : α → Option γ} {g : β → Option δ} (h : Option.Rel r x y)
    (hf : ∀ {a b}, r a b → Option.Rel s (f a) (g b)) : Option.Rel s (x.bind f) (y.bind g) := by
  cases h with
  | none => exact .none
  | some h => exact hf h

theorem rel_map {f : α → γ} {g : β → δ} (hf : ∀ {a b}, r a b → s (f a) (g b))
    (h : Option.Rel r x y) : Option.Rel s (x.map f) (y.map g) := by
  cases h with
  | none => exact .none
  | some h => exact .some (hf h)

theorem rel_or {x' : Option α} {y' : Option β} (h : Option.Rel r x y) (h' : Option.Rel r x' y') :
    Option.Rel r (x.or x') (y.or y') := by
  cases h with
  | none => exact h'
  | some h => exact .some h

theorem exists_of_rel {b : β} (h : Option.Rel r x (some b)) : ∃ a, x = some a ∧ r a b := by
  cases h with
  | some h => exact ⟨_,rfl,h⟩

theorem rel_trans {R : α → α → Prop} (hR : ∀ {a b c}, R a b → R b c → R a c)
    {x y z : Option α} (h : Option.Rel R x y) (h' : Option.Rel R y z) : Option.Rel R x z := by
  cases h with
  | none => exact h'
  | some h =>
    rcases h' with h' | _
    exact .some (hR h h')

theorem rel_eq_iff {x y : Option α} : Option.Rel (· = ·) x y ↔ x = y := by
  cases x <;> cases y <;> simp

end Related

variable {S : Fragment → Fragment → Prop}

/-- Tokens that every pattern takes for the same: one character, or references whose
contents are related. -/
inductive Token.Like (S : Fragment → Fragment → Prop) : Token → Token → Prop
  | char (c : Char) : Like S (.char c) (.char c)
  | ref {i j : Nat} {a b : Fragment} (h : S a b) : Like S (.ref i a) (.ref j b)

def Fragment.Like (S : Fragment → Fragment → Prop) : Fragment → Fragment → Prop :=
  List.Forall₂ (Token.Like S)

namespace Token.Like

theorem isLetter {t u : Token} (h : Like S t u) : t.isLetter = u.isLetter := by
  cases h <;> rfl

theorem isDigit {t u : Token} (h : Like S t u) : t.isDigit = u.isDigit := by
  cases h <;> rfl

theorem isReference {t u : Token} (h : Like S t u) : t.isReference = u.isReference := by
  cases h <;> rfl

theorem isOperator {t u : Token} (h : Like S t u) : t.isOperator = u.isOperator := by
  cases h <;> rfl

theorem isParenthesis {t u : Token} (h : Like S t u) : t.isParenthesis = u.isParenthesis := by
  cases h <;> rfl

end Token.Like

namespace Fragment.Like

variable {a b : Fragment}

theorem nil : Fragment.Like S [] [] := List.Forall₂.nil

theorem cons {t u : Token} (ht : t.Like S u) (h : Fragment.Like S a b) :
    Fragment.Like S (t :: a) (u :: b) := List.Forall₂.cons ht h

theorem append {c d : Fragment} (h : Fragment.Like S a b) (h' : Fragment.Like S c d) :
    Fragment.Like S (a ++ c) (b ++ d) := List.rel_append h h'

theorem eq_nil_iff (h : Fragment.Like S a b) : a = [] ↔ b = [] := by
  cases h <;> simp

theorem dropLast (h : Fragment.Like S a b) : Fragment.Like S a.dropLast b.dropLast := by
  have hl := h.length_eq
  rw [List.dropLast_eq_take,List.dropLast_eq_take,hl]
  exact List.forall₂_take _ h

theorem all {p : Token → Bool} (hp : ∀ {t u : Token}, t.Like S u → p t = p u)
    (h : Fragment.Like S a b) : a.all p = b.all p := by
  induction h with
  | nil => rfl
  | cons ht _ ih => simp [hp ht,ih]

theorem eq_of_chars {cs : List Char} (h : Fragment.Like S (cs.map .char) b) :
    b = cs.map .char := by
  induction cs generalizing b with
  | nil => cases h; rfl
  | cons c cs ih =>
    rcases h with _ | ⟨ht,h⟩
    cases ht
    rw [ih h]; rfl

/-- An operand corresponds to itself or is a reference that corresponds to another one. -/
theorem operand_cases (ho : a.Operand) (h : Fragment.Like S a b) :
    b = a ∧ (∃ cs : List Char, a = cs.map .char) ∨
      ∃ i j c d, a = [.ref i c] ∧ b = [.ref j d] ∧ S c d := by
  cases ho with
  | name hn hc => exact .inl ⟨h.eq_of_chars,_,rfl⟩
  | number hn hc => exact .inl ⟨h.eq_of_chars,_,rfl⟩
  | reference i c =>
    rcases h with _ | ⟨ht,h⟩
    rcases ht with _ | hs
    cases h
    exact .inr ⟨i,_,c,_,rfl,rfl,hs⟩

theorem takeWhile {p : Token → Bool} (hp : ∀ {t u : Token}, t.Like S u → p t = p u)
    (h : Fragment.Like S a b) : Fragment.Like S (a.takeWhile p) (b.takeWhile p) := by
  induction h with
  | nil => exact nil
  | cons ht _ ih =>
    rw [List.takeWhile_cons,List.takeWhile_cons,← hp ht]
    split
    · exact cons ht ih
    · exact nil

theorem dropWhile {p : Token → Bool} (hp : ∀ {t u : Token}, t.Like S u → p t = p u)
    (h : Fragment.Like S a b) : Fragment.Like S (a.dropWhile p) (b.dropWhile p) := by
  induction h with
  | nil => exact nil
  | cons ht h ih =>
    rw [List.dropWhile_cons,List.dropWhile_cons,← hp ht]
    split
    · exact ih
    · exact cons ht h

end Fragment.Like

namespace Pattern

def SplitLike (S : Fragment → Fragment → Prop) (x y : Fragment × Fragment) : Prop :=
  x.1.Like S y.1 ∧ x.2.Like S y.2

/-- A pattern that takes like texts for the same. -/
def Blind (p : Pattern) : Prop :=
  ∀ {S : Fragment → Fragment → Prop} {a b : Fragment}, a.Like S b →
    Option.Rel (SplitLike S) (p a) (p b)

theorem Blind.cases {p : Pattern} (hp : p.Blind) {a b : Fragment} (h : a.Like S b) :
    (p a = none ∧ p b = none) ∨
      ∃ x v y w, p a = some (x, v) ∧ p b = some (y, w) ∧ x.Like S y ∧ v.Like S w := by
  have h' := hp h
  cases ha : p a <;> cases hb : p b <;> rw [ha,hb] at h'
  case none.none => exact .inl ⟨rfl,rfl⟩
  case none.some => cases h'
  case some.none => cases h'
  case some.some x y =>
    obtain ⟨hx,hv⟩ := Option.rel_some_some.mp h'
    exact .inr ⟨x.1,x.2,y.1,y.2,rfl,rfl,hx,hv⟩

theorem single_blind {p : Token → Bool}
    (hp : ∀ {S : Fragment → Fragment → Prop} {t u : Token}, t.Like S u → p t = p u) :
    Blind (single p) := by
  intro S a b h
  cases h with
  | nil => exact .none
  | cons ht h =>
    simp only [single,← hp ht]
    split
    · exact .some ⟨.cons ht .nil,h⟩
    · exact .none

theorem run_blind {p : Token → Bool}
    (hp : ∀ {S : Fragment → Fragment → Prop} {t u : Token}, t.Like S u → p t = p u) :
    Blind (run p) := by
  intro S a b h
  have ht := h.takeWhile hp
  by_cases ha : a.takeWhile p = []
  · simp [run,ha,ht.eq_nil_iff.mp ha]
  · simp only [run,ha,mt ht.eq_nil_iff.mpr ha,if_false]
    exact .some ⟨ht,h.dropWhile hp⟩

theorem seq_blind {p q : Pattern} (hp : p.Blind) (hq : q.Blind) : (p.seq q).Blind := by
  intro S a b h
  obtain ⟨ha,hb⟩ | ⟨x,v,y,w,ha,hb,hx,hv⟩ := hp.cases h
  · simp [seq,ha,hb]
  · simp only [seq,ha,hb]
    exact rel_map (fun h => ⟨hx.append h.1,h.2⟩) (hq hv)

theorem orElse_blind {p q : Pattern} (hp : p.Blind) (hq : q.Blind) : (p.orElse q).Blind := by
  intro S a b h
  obtain ⟨ha,hb⟩ | ⟨x,v,y,w,ha,hb,hx,hv⟩ := hp.cases h
  · simpa only [orElse,ha,hb] using hq h
  · simp only [orElse,ha,hb]
    exact .some ⟨hx,hv⟩

theorem sign_blind (cs : List Char) : (sign cs).Blind :=
  single_blind fun h => by cases h <;> rfl

theorem letter_blind : letter.Blind := single_blind Token.Like.isLetter

theorem digits_blind : digits.Blind := run_blind Token.Like.isDigit

theorem reference_blind : reference.Blind := single_blind Token.Like.isReference

theorem operand_blind : operand.Blind :=
  orElse_blind (run_blind Token.Like.isLetter) (orElse_blind digits_blind reference_blind)

theorem group?_blind : Blind group? := by
  intro S a b h
  rcases h with _ | ⟨ht,h⟩
  case nil => exact .none
  case cons t u a b =>
    rcases ht with c | _
    case ref => simp [group?]
    case char =>
      by_cases hc : c = '('
      case neg => simp [group?,hc]
      subst hc
      have hw := Fragment.Like.takeWhile (p := (! ·.isParenthesis)) (fun h => by rw [h.isParenthesis]) h
      have hd := Fragment.Like.dropWhile (p := (! ·.isParenthesis)) (fun h => by rw [h.isParenthesis]) h
      simp only [group?]
      generalize a.dropWhile (! ·.isParenthesis) = x at hd ⊢
      generalize b.dropWhile (! ·.isParenthesis) = y at hd ⊢
      rcases hd with _ | ⟨ht,hd⟩
      case nil => exact .none
      case cons =>
        rcases ht with c | _
        case ref => exact .none
        case char =>
          by_cases hc : c = ')'
          · subst hc; exact .some ⟨hw,hd⟩
          · simp [hc]

theorem group_blind : group.Blind := fun h =>
  rel_map (fun h => ⟨.cons (.char _) (h.1.append (.cons (.char _) .nil)),h.2⟩) (group?_blind h)

theorem logarithm_blind : logarithm.Blind :=
  seq_blind (seq_blind (sign_blind _) (sign_blind _)) group_blind

/-- Whether the operand of a minus is the base of a power can be seen as well. -/
theorem negation_blind : negation.Blind := by
  intro S a b h
  rcases h with _ | ⟨ht,h⟩
  case nil => exact .none
  case cons t u a b =>
    rcases ht with c | _
    case ref => simp [negation]
    case char =>
      by_cases hc : c = '-'
      case neg => simp [negation,hc]
      subst hc
      obtain ⟨ha,hb⟩ | ⟨x,_,y,_,ha,hb,hx,hv⟩ := operand_blind.cases h
      · simp [negation,ha,hb]
      have hcut : Option.Rel (SplitLike S)
          (if x.dropLast = [] then none
            else some (.char '-' :: x.dropLast, a.drop x.dropLast.length))
          (if y.dropLast = [] then none
            else some (.char '-' :: y.dropLast, b.drop y.dropLast.length)) := by
        have hl := Fragment.Like.dropLast hx
        by_cases hn : x.dropLast = []
        · simp [hn,hl.eq_nil_iff.mp hn]
        · rw [if_neg hn,if_neg (mt hl.eq_nil_iff.mpr hn),hl.length_eq]
          exact .some ⟨.cons (.char _) hl,List.forall₂_drop _ h⟩
      simp only [negation,ha,hb]
      rcases hv with _ | ⟨ht,hv⟩
      case nil => exact .some ⟨.cons (.char _) hx,.nil⟩
      case cons =>
        rcases ht with c | _
        case ref hr => exact .some ⟨.cons (.char _) hx,.cons (.ref hr) hv⟩
        case char =>
          by_cases hc : c = '^'
          · subst hc; exact hcut
          · simp [hc]
            exact ⟨.cons (.char _) hx,.cons (.char _) hv⟩

theorem power_blind : power.Blind := seq_blind (seq_blind operand_blind (sign_blind _)) operand_blind

theorem product_blind : product.Blind :=
  seq_blind operand_blind (orElse_blind (seq_blind (sign_blind _) operand_blind) reference_blind)

theorem coefficient_blind : coefficient.Blind :=
  seq_blind (orElse_blind digits_blind reference_blind) letter_blind

theorem sum_blind : sum.Blind := seq_blind (seq_blind operand_blind (sign_blind _)) operand_blind

end Pattern

namespace Tier

theorem pattern_blind (tier : Tier) : tier.pattern.Blind := by
  cases tier
  case logarithm => exact Pattern.logarithm_blind
  case group => exact Pattern.group_blind
  case negation => exact Pattern.negation_blind
  case power => exact Pattern.power_blind
  case product => exact Pattern.product_blind
  case coefficient => exact Pattern.coefficient_blind
  case sum => exact Pattern.sum_blind

theorem allowedAfter_like (tier : Tier) {t u : Option Token} (h : Option.Rel (Token.Like S) t u) :
    tier.allowedAfter t = tier.allowedAfter u := by
  cases h with
  | none => rfl
  | some h => cases tier <;> first | rfl | exact h.isOperator

theorem match?_like (tier : Tier) {t u : Option Token} {a b : Fragment}
    (ht : Option.Rel (Token.Like S) t u) (h : a.Like S b) :
    Option.Rel (Pattern.SplitLike S) (tier.match? t a) (tier.match? u b) := by
  unfold match?
  rw [tier.allowedAfter_like ht]
  split
  · exact tier.pattern_blind h
  · exact .none

end Tier

/-- Places that correspond part by part. -/
structure Site.Like (S : Fragment → Fragment → Prop) (s s' : Site) : Prop where
  before : s.before.Like S s'.before
  matched : s.matched.Like S s'.matched
  after : s.after.Like S s'.after

theorem Site.Like.replace {s s' : Site} (h : s.Like S s') {t u : Token} (ht : t.Like S u) :
    (s.replace t).Like S (s'.replace u) := h.before.append (.cons ht h.after)

namespace Tier

theorem leftmost?_like (tier : Tier) {t u : Option Token} {a b : Fragment}
    (ht : Option.Rel (Token.Like S) t u) (h : a.Like S b) :
    Option.Rel (Site.Like S) (tier.leftmost? t a) (tier.leftmost? u b) := by
  induction h generalizing t u with
  | nil => exact .none
  | @cons x y a b hx h ih =>
    have hm := tier.match?_like ht (.cons hx h)
    simp only [leftmost?]
    generalize tier.match? t (x :: a) = v at hm ⊢
    generalize tier.match? u (y :: b) = w at hm ⊢
    cases hm with
    | some hm => exact .some ⟨.nil,hm.1,hm.2⟩
    | none =>
      have hs := ih (.some hx)
      simp only
      generalize tier.leftmost? (some x) a = v at hs ⊢
      generalize tier.leftmost? (some y) b = w at hs ⊢
      cases hs with
      | none => exact .none
      | some hs => exact .some ⟨.cons hx hs.before,hs.matched,hs.after⟩

theorem first?_like {a b : Fragment} (h : a.Like S b) :
    Option.Rel (fun x y => x.1 = y.1 ∧ x.2.Like S y.2) (first? a) (first? b) := by
  unfold first?
  induction all with
  | nil => exact .none
  | cons tier tiers ih =>
    have hs := tier.leftmost?_like (t := none) (u := none) .none h
    simp only [List.findSome?_cons]
    generalize tier.leftmost? none a = v at hs ⊢
    generalize tier.leftmost? none b = w at hs ⊢
    cases hs with
    | none => exact ih
    | some hs => exact .some ⟨rfl,hs⟩

end Tier

/-- Corresponding texts collapse to corresponding texts. Only parts of the text are
set aside, so their contents have to be related for no longer sources than its own. -/
theorem collapse_like {n : Nat}
    (hS : ∀ {a b : Fragment}, a.source.length ≤ n → a.Like S b → S a b) {a b : Fragment}
    (hn : a.source.length ≤ n) (h : a.Like S b) (t u : Table) :
    (collapse a t).1.Like S (collapse b u).1 := by
  fun_induction collapse a t generalizing b u with
  | case1 a t ha =>
    have hf := Tier.first?_like h
    rw [ha] at hf
    generalize hb : Tier.first? b = y at hf
    cases hf
    rw [collapse_of_none hb]
    exact h
  | case2 a t tier site ha ih =>
    have hf := Tier.first?_like h
    rw [ha] at hf
    generalize hb : Tier.first? b = y at hf
    rcases hf with ⟨rfl,hs⟩
    rw [collapse_of_some hb]
    have hl := congrArg Fragment.source (Tier.first?_cuts ha).1
    simp only [Site.text,Fragment.source_append] at hl
    have hm : site.matched.source.length ≤ n := by
      rw [← hl] at hn
      simp at hn
      omega
    refine ih ?_ (hs.replace (.ref (hS hm hs.matched))) _
    simpa [Site.replace,← hl] using hn

namespace Shape

/-- Shapes of one kind whose parts correspond. -/
inductive Like (S : Fragment → Fragment → Prop) : Shape → Shape → Prop
  | logarithm {a b : Fragment} (h : a.Like S b) : Like S (.logarithm a) (.logarithm b)
  | group {a b : Fragment} (h : a.Like S b) : Like S (.group a) (.group b)
  | integer (negative : Bool) (a : Fragment) : Like S (.integer negative a) (.integer negative a)
  | name (a : Fragment) : Like S (.name a) (.name a)
  | reference {i j : Nat} {a b : Fragment} (h : S a b) : Like S (.reference i a) (.reference j b)
  | negation {a b : Fragment} (h : a.Like S b) : Like S (.negation a) (.negation b)
  | operation (op : BinaryOp) {a b c d : Fragment} (h : a.Like S b) (h' : c.Like S d) :
    Like S (.operation op a c) (.operation op b d)
  | juxtaposition {a b c d : Fragment} (h : a.Like S b) (h' : c.Like S d) :
    Like S (.juxtaposition a c) (.juxtaposition b d)
  | unknown {a b : Fragment} (h : a.Like S b) : Like S (.unknown a) (.unknown b)

variable {a b : Fragment}

theorem group?_like (h : a.Like S b) : Option.Rel (Like S) (group? a) (group? b) := by
  obtain ⟨ha,hb⟩ | ⟨x,_,y,_,ha,hb,hx,_ | _⟩ := Pattern.group?_blind.cases h
  · simp [group?,ha,hb]
  · simp only [group?,ha,hb]
    exact .some (.group hx)
  · simp [group?,ha,hb]

theorem logarithm?_like (h : a.Like S b) :
    Option.Rel (Like S) (logarithm? a) (logarithm? b) := by
  rcases h with _ | ⟨ht,_ | ⟨hu,h⟩⟩
  case nil => exact .none
  case cons.nil => cases ht <;> simp [logarithm?]
  case cons.cons =>
    rcases ht with c | _
    case ref => simp [logarithm?]
    case char =>
      rcases hu with d | _
      case ref => simp [logarithm?]
      case char a b =>
        by_cases hc : c = 'l' ∧ d = 'n'
        case neg => simp_all [logarithm?]
        obtain ⟨rfl,rfl⟩ := hc
        obtain ⟨ha,hb⟩ | ⟨x,_,y,_,ha,hb,hx,_ | _⟩ := Pattern.group?_blind.cases h
        · simp [logarithm?,ha,hb]
        · simp only [logarithm?,ha,hb]
          exact .some (.logarithm hx)
        · simp [logarithm?,ha,hb]

theorem operand?_like (h : a.Like S b) : Option.Rel (Like S) (operand? a) (operand? b) := by
  obtain ⟨ha,hb⟩ | ⟨x,_,y,_,ha,hb,hx,_ | _⟩ := Pattern.operand_blind.cases h
  · simp [operand?,ha,hb]
  · obtain ⟨-,ho,-⟩ := Pattern.operand_eq_some_iff.mp ha
    simp only [operand?,ha,hb]
    rcases hx.operand_cases ho with ⟨rfl,cs,rfl⟩ | ⟨i,j,c,d,rfl,rfl,hs⟩
    · cases cs with
      | nil => simpa using Like.integer false []
      | cons c cs =>
        simp only [List.map_cons]
        split
        · exact .some (.integer false _)
        · exact .some (.name _)
    · exact .some (.reference hs)
  · simp [operand?,ha,hb]

theorem negation?_like (h : a.Like S b) : Option.Rel (Like S) (negation? a) (negation? b) := by
  rcases h with _ | ⟨ht,h⟩
  case nil => exact .none
  case cons t u a b =>
    rcases ht with c | _
    case ref => simp [negation?]
    case char =>
      by_cases hc : c = '-'
      case neg => simp [negation?,hc]
      subst hc
      obtain ⟨ha,hb⟩ | ⟨x,_,y,_,ha,hb,hx,_ | _⟩ := Pattern.operand_blind.cases h
      · simp [negation?,ha,hb]
      · obtain ⟨-,ho,-⟩ := Pattern.operand_eq_some_iff.mp ha
        simp only [negation?,ha,hb]
        rcases hx.operand_cases ho with ⟨rfl,-⟩ | ⟨i,j,c,d,rfl,rfl,hs⟩
        · by_cases hd : y.all Token.isDigit = true
          · simpa [hd] using Like.integer true y
          · simpa [hd] using Like.negation hx
        · exact .some (.negation hx)
      · simp [negation?,ha,hb]

theorem operation?_like (h : a.Like S b) :
    Option.Rel (Like S) (operation? a) (operation? b) := by
  obtain ⟨ha,hb⟩ | ⟨x,_,y,_,ha,hb,hx,_ | ⟨ht,hr⟩⟩ := Pattern.operand_blind.cases h
  · simp [operation?,ha,hb]
  · simp [operation?,ha,hb]
  · rcases ht with c | _
    case ref => simp [operation?,ha,hb]
    case char =>
      simp only [operation?,ha,hb]
      cases BinaryOp.ofSymbol? c with
      | none => exact .none
      | some op =>
        obtain ⟨ha,hb⟩ | ⟨x',_,y',_,ha,hb,hx',_ | _⟩ := Pattern.operand_blind.cases hr
        · simp [ha,hb]
        · simp only [ha,hb]
          exact .some (.operation op hx hx')
        · simp [ha,hb]

theorem juxtaposition?_like (h : a.Like S b) :
    Option.Rel (Like S) (juxtaposition? a) (juxtaposition? b) := by
  obtain ⟨ha,hb⟩ | ⟨x,_,y,_,ha,hb,hx,_ | ⟨ht,_ | _⟩⟩ := Pattern.operand_blind.cases h
  · simp [juxtaposition?,ha,hb]
  · simp [juxtaposition?,ha,hb]
  · have hl : x.length = y.length := hx.length_eq
    have hd : x.all Token.isDigit = y.all Token.isDigit := hx.all Token.Like.isDigit
    simp only [juxtaposition?,ha,hb,hl,hd,ht.isReference,ht.isLetter]
    split
    · exact .some (.juxtaposition hx (.cons ht .nil))
    · exact .none
  · simp [juxtaposition?,ha,hb]

end Shape

theorem Fragment.Like.shape {a b : Fragment} (h : a.Like S b) : a.shape.Like S b.shape := by
  have h' := rel_or (rel_or (rel_or (rel_or (rel_or
    (Shape.logarithm?_like h) (Shape.group?_like h)) (Shape.operand?_like h))
    (Shape.negation?_like h)) (Shape.operation?_like h)) (Shape.juxtaposition?_like h)
  unfold Fragment.shape
  generalize Option.or _ (Shape.juxtaposition? a) = x at h' ⊢
  generalize Option.or _ (Shape.juxtaposition? b) = y at h' ⊢
  cases h' with
  | none => exact .unknown h
  | some h => exact h

end Fluxion.Formula
