import Fluxion.Proofs.Outcome

/-! Formulas read from left to right. What waits for its right operand is kept on a
stack, and an operator first completes all that binds at least as tightly as itself.
This is ordinary precedence, with a minus between products and powers. -/
namespace Fluxion

/-- How tightly an operation binds. -/
def BinaryOp.level : BinaryOp → Nat
  | .plus | .minus => 1
  | .times | .divide => 2
  | .power => 3

namespace Formula

/-- A text followed token by token from a state on, as far as every step can be taken. -/
def follow {σ : Type} (step : σ → Token → Option σ) (s : σ) (text : Fragment) : Option σ :=
  text.foldlM step s

section Follow

variable {σ : Type} {step : σ → Token → Option σ} {s q : σ} {t : Token} {a b : Fragment}

@[simp] theorem follow_nil (step : σ → Token → Option σ) (s : σ) : follow step s [] = some s := rfl

theorem follow_cons (step : σ → Token → Option σ) (s : σ) (t : Token) (rest : Fragment) :
    follow step s (t :: rest) = (step s t).bind fun q => follow step q rest := List.foldlM_cons

theorem follow_append (step : σ → Token → Option σ) (s : σ) (a b : Fragment) :
    follow step s (a ++ b) = (follow step s a).bind fun q => follow step q b := List.foldlM_append

theorem follow_append_eq_some (h : follow step s (a ++ b) = some q) :
    ∃ m, follow step s a = some m ∧ follow step m b = some q := by
  rw [follow_append] at h
  exact Option.bind_eq_some_iff.mp h

theorem follow_concat_eq_some (h : follow step s (a ++ [t]) = some q) :
    ∃ m, follow step s a = some m ∧ step m t = some q := by
  obtain ⟨m,ha,ht⟩ := follow_append_eq_some h
  rw [follow_cons] at ht
  obtain ⟨n,hn,he⟩ := Option.bind_eq_some_iff.mp ht
  cases he
  exact ⟨m,ha,hn⟩

variable {p : Char → Bool} {cs : List Char} (state : List Char → σ)

theorem follow_chars
    (hp : ∀ ds c, p c = true → step (state ds) (.char c) = some (state (ds ++ [c])))
    (hc : ∀ c ∈ cs, p c = true) (ds : List Char) :
    follow step (state ds) (cs.map .char) = some (state (ds ++ cs)) := by
  induction cs generalizing ds with
  | nil => simp
  | cons c cs ih =>
    obtain ⟨hc,hcs⟩ := List.forall_mem_cons.mp hc
    rw [List.map_cons,follow_cons,hp ds c hc,Option.bind_some,ih hcs,List.append_assoc]
    rfl

theorem follow_chars_of_start (hs : ∀ c, p c = true → step s (.char c) = some (state [c]))
    (hp : ∀ ds c, p c = true → step (state ds) (.char c) = some (state (ds ++ [c])))
    (hn : cs ≠ []) (hc : ∀ c ∈ cs, p c = true) :
    follow step s (cs.map .char) = some (state cs) := by
  cases cs with
  | nil => exact absurd rfl hn
  | cons c cs =>
    obtain ⟨hc,hcs⟩ := List.forall_mem_cons.mp hc
    rw [List.map_cons,follow_cons,hs c hc,Option.bind_some,follow_chars state hp hcs]
    rfl

end Follow

/-- Whether the sign of a product may be left out. If so, names are single letters. -/
inductive Style
  | explicit | implicit
  deriving DecidableEq

/-- What has been read last. A number is kept as its digits, because a minus in front
of it belongs to the number. -/
inductive Factor
  | number (digits : List Char)
  | name (letters : List Char)
  | value (e : Option Expr)

namespace Factor

def value? : Factor → Option Expr
  | number digits => (integer? false digits).map .const
  | name letters => some (.var (String.ofList letters))
  | value e => e

def negated? : Factor → Option Expr
  | number digits => (integer? true digits).map .const
  | f => f.value?.map .neg

def isWhole (style : Style) : Factor → Bool
  | name letters => style = .explicit ∨ letters.length = 1
  | _ => true

/-- A run of which a minus in front would take a part only, if a power follows. -/
def isLong : Factor → Bool
  | number run | name run => 2 ≤ run.length
  | value _ => false

/-- What stands in front of `ln`, if that is the end of a name. -/
def beforeCall? : Factor → Option (Option Factor)
  | name letters =>
    match letters.reverse with
    | ['n', 'l'] => some none
    | 'n' :: 'l' :: front => some (some (name front.reverse))
    | _ => none
  | _ => none

end Factor

/-- What waits for an operand or for a parenthesis. -/
inductive Pending
  | minus
  | operation (op : BinaryOp) (left : Option Expr)
  | group (log : Bool)

namespace Pending

def level : Pending → Nat
  | minus => 2
  | operation op _ => op.level
  | group _ => 0

def isMinus : Pending → Bool
  | minus => true
  | _ => false

def close : Pending → Factor → Option Expr
  | minus, f => f.negated?
  | operation op left, f => Expr.join? op left f.value?
  | group log, f => if log then f.value?.map .ln else f.value?

end Pending

/-- Complete all that binds at least as tightly as a level. -/
def settle (level : Nat) : List Pending → Factor → List Pending × Factor
  | [], f => ([], f)
  | p :: ps, f => if level ≤ p.level then settle level ps (.value (p.close f)) else (p :: ps, f)

/-- How far a formula has been read. -/
structure Scan where
  pending : List Pending
  factor : Option Factor

namespace Scan

def init : Scan := ⟨[], none⟩

/-- An operator behind a factor. A minus does not take a part of a run. -/
def operate (style : Style) (ps : List Pending) (f : Factor) (op : BinaryOp) : Option Scan :=
  if f.isWhole style ∧ ¬(op = .power ∧ f.isLong ∧ ps.head?.any Pending.isMinus) then
    let r := settle op.level ps f
    some ⟨.operation op r.2.value? :: r.1, none⟩
  else none

def juxtapose (style : Style) (ps : List Pending) (f : Factor) : Option Scan :=
  match style with
  | .explicit => none
  | .implicit => operate .implicit ps f .times

/-- Where an operand is expected. -/
def start (ps : List Pending) : Token → Option Scan
  | .ref _ content => some ⟨ps, some (.value (Fragment.assembled? content))⟩
  | .char c =>
    if c.isAlpha then some ⟨ps, some (.name [c])⟩
    else if c.isDigit then some ⟨ps, some (.number [c])⟩
    else if c = '-' then some ⟨.minus :: ps, none⟩
    else if c = '(' then some ⟨.group false :: ps, none⟩
    else none

def openGroup (style : Style) (ps : List Pending) (f : Factor) : Option Scan :=
  match f.beforeCall? with
  | some none => some ⟨.group true :: ps, none⟩
  | some (some g) => (juxtapose style ps g).map fun s => ⟨.group true :: s.pending, none⟩
  | none => (juxtapose style ps f).map fun s => ⟨.group false :: s.pending, none⟩

def closeGroup (style : Style) (ps : List Pending) (f : Factor) : Option Scan :=
  match settle 1 ps f with
  | (.group log :: rest, g) =>
    if f.isWhole style then some ⟨rest, some (.value ((Pending.group log).close g))⟩ else none
  | _ => none

/-- Behind a factor. -/
def next (style : Style) (ps : List Pending) (f : Factor) (t : Token) : Option Scan :=
  match t, f with
  | .ref _ _, f => (juxtapose style ps f).bind fun s => start s.pending t
  | .char c, f =>
    if c.isDigit then
      match f with
      | .number digits => some ⟨ps, some (.number (digits ++ [c]))⟩
      | _ => none
    else if c.isAlpha then
      match f with
      | .name letters => some ⟨ps, some (.name (letters ++ [c]))⟩
      | _ => (juxtapose style ps f).bind fun s => start s.pending t
    else if c = '(' then openGroup style ps f
    else if c = ')' then closeGroup style ps f
    else (BinaryOp.ofSymbol? c).bind (operate style ps f)

def step (style : Style) (s : Scan) (t : Token) : Option Scan :=
  match s.factor with
  | none => start s.pending t
  | some f => next style s.pending f t

def finish (style : Style) (s : Scan) : Option (Option Expr) :=
  match s.factor with
  | none => none
  | some f =>
    match settle 1 s.pending f with
    | ([], g) => if f.isWhole style then some g.value? else none
    | _ => none

end Scan

/-- The value of a well-formed text: an expression, or none because a constant is too
large or a divisor is zero. Other texts have no value. -/
def Fragment.scan? (style : Style) (text : Fragment) : Option (Option Expr) :=
  (follow (Scan.step style) Scan.init text).bind (Scan.finish style)

section Settle

variable {k j : Nat} {p : Pending} {ps : List Pending}

@[simp] theorem settle_nil (k : Nat) (f : Factor) : settle k [] f = ([], f) := rfl

theorem settle_cons_of_le (h : k ≤ p.level) (ps : List Pending) (f : Factor) :
    settle k (p :: ps) f = settle k ps (.value (p.close f)) := by
  simp [settle,h]

theorem settle_cons_of_lt (h : p.level < k) (ps : List Pending) (f : Factor) :
    settle k (p :: ps) f = (p :: ps, f) := by
  simp [settle,Nat.not_le.mpr h]

theorem settle_of_head (h : ∀ p ∈ ps.head?, p.level < k) (f : Factor) :
    settle k ps f = (ps, f) := by
  cases ps with
  | nil => rfl
  | cons p ps => exact settle_cons_of_lt (h p rfl) ps f

theorem level_head_settle (ps : List Pending) (f : Factor) :
    ∀ p ∈ (settle k ps f).1.head?, p.level < k := by
  induction ps generalizing f with
  | nil => simp
  | cons p ps ih =>
    by_cases h : k ≤ p.level
    · rw [settle_cons_of_le h]
      exact ih _
    · rw [settle_cons_of_lt (Nat.not_le.mp h)]
      intro q hq
      cases hq
      exact Nat.not_le.mp h

theorem settle_settle (h : k ≤ j) (ps : List Pending) (f : Factor) :
    settle k (settle j ps f).1 (settle j ps f).2 = settle k ps f := by
  induction ps generalizing f with
  | nil => rfl
  | cons p ps ih =>
    by_cases hj : j ≤ p.level
    · rw [settle_cons_of_le hj,settle_cons_of_le (h.trans hj),ih]
    · rw [settle_cons_of_lt (Nat.not_le.mp hj)]

theorem settle_append_group (hk : 0 < k) (log : Bool) (ps base : List Pending) (f : Factor) :
    settle k (ps ++ .group log :: base) f =
      ((settle k ps f).1 ++ .group log :: base, (settle k ps f).2) := by
  induction ps generalizing f with
  | nil => exact settle_cons_of_lt hk base f
  | cons p ps ih =>
    by_cases h : k ≤ p.level
    · rw [List.cons_append,settle_cons_of_le h,settle_cons_of_le h,ih]
    · have h := Nat.not_le.mp h
      rw [List.cons_append,settle_cons_of_lt h,settle_cons_of_lt h,List.cons_append]

end Settle

section Likeness

variable {R : Expr → Expr → Prop}

inductive Factor.Like (R : Expr → Expr → Prop) : Factor → Factor → Prop
  | number (digits : List Char) : Like R (.number digits) (.number digits)
  | name (letters : List Char) : Like R (.name letters) (.name letters)
  | value {x y : Option Expr} (h : Option.Rel R x y) : Like R (.value x) (.value y)

inductive Pending.Like (R : Expr → Expr → Prop) : Pending → Pending → Prop
  | minus : Like R .minus .minus
  | operation (op : BinaryOp) {x y : Option Expr} (h : Option.Rel R x y) :
    Like R (.operation op x) (.operation op y)
  | group (log : Bool) : Like R (.group log) (.group log)

/-- The same stage of reading, with related expressions. -/
structure Scan.Like (R : Expr → Expr → Prop) (s s' : Scan) : Prop where
  pending : List.Forall₂ (Pending.Like R) s.pending s'.pending
  factor : Option.Rel (Factor.Like R) s.factor s'.factor

theorem rel_refl (hR : Expr.Congruence R) (x : Option Expr) : Option.Rel R x x := by
  cases x with
  | none => exact .none
  | some e => exact .some (hR.refl e)

namespace Factor.Like

variable {f g : Factor}

theorem refl (hR : Expr.Congruence R) (f : Factor) : f.Like R f := by
  cases f with
  | number digits => exact .number digits
  | name letters => exact .name letters
  | value x => exact .value (rel_refl hR x)

theorem value? (hR : Expr.Congruence R) (h : f.Like R g) : Option.Rel R f.value? g.value? := by
  cases h with
  | number digits => exact rel_refl hR _
  | name letters => exact rel_refl hR _
  | value h => exact h

theorem negated? (hR : Expr.Congruence R) (h : f.Like R g) :
    Option.Rel R f.negated? g.negated? := by
  cases h with
  | number digits => exact rel_refl hR _
  | name letters => exact rel_refl hR _
  | value h => exact rel_map hR.neg h

theorem isWhole (h : f.Like R g) (style : Style) : f.isWhole style = g.isWhole style := by
  cases h <;> rfl

theorem isLong (h : f.Like R g) : f.isLong = g.isLong := by
  cases h <;> rfl

end Factor.Like

namespace Pending.Like

variable {p q : Pending}

theorem refl (hR : Expr.Congruence R) (p : Pending) : p.Like R p := by
  cases p with
  | minus => exact .minus
  | operation op x => exact .operation op (rel_refl hR x)
  | group log => exact .group log

theorem level (h : p.Like R q) : p.level = q.level := by
  cases h <;> rfl

theorem isMinus (h : p.Like R q) : p.isMinus = q.isMinus := by
  cases h <;> rfl

theorem close (hR : Expr.Congruence R) (h : p.Like R q) {f g : Factor} (hf : f.Like R g) :
    Option.Rel R (p.close f) (q.close g) := by
  cases h with
  | minus => exact hf.negated? hR
  | operation op h => exact hR.join? op h (hf.value? hR)
  | group log =>
    cases log with
    | false => exact hf.value? hR
    | true => exact rel_map hR.ln (hf.value? hR)

end Pending.Like

theorem settle_like (hR : Expr.Congruence R) (k : Nat) {ps qs : List Pending} {f g : Factor}
    (hp : List.Forall₂ (Pending.Like R) ps qs) (hf : f.Like R g) :
    List.Forall₂ (Pending.Like R) (settle k ps f).1 (settle k qs g).1 ∧
      (settle k ps f).2.Like R (settle k qs g).2 := by
  induction hp generalizing f g with
  | nil => exact ⟨.nil,hf⟩
  | cons hp hps ih =>
    simp only [settle,hp.level]
    split
    · exact ih (.value (hp.close hR hf))
    · exact ⟨.cons hp hps,hf⟩

namespace Scan

variable {style : Style} {ps qs : List Pending} {f g : Factor}

theorem operate_like (hR : Expr.Congruence R) (hp : List.Forall₂ (Pending.Like R) ps qs)
    (hf : f.Like R g) (op : BinaryOp) :
    Option.Rel (Like R) (operate style ps f op) (operate style qs g op) := by
  obtain ⟨hs,hv⟩ := settle_like hR op.level hp hf
  have hm : ps.head?.any Pending.isMinus = qs.head?.any Pending.isMinus := by
    cases hp with
    | nil => rfl
    | cons hp _ => simpa using hp.isMinus
  simp only [operate,hf.isWhole style,hf.isLong,hm]
  split
  · exact .some ⟨.cons (.operation op (hv.value? hR)) hs,.none⟩
  · exact .none

theorem juxtapose_like (hR : Expr.Congruence R) (hp : List.Forall₂ (Pending.Like R) ps qs)
    (hf : f.Like R g) : Option.Rel (Like R) (juxtapose style ps f) (juxtapose style qs g) := by
  cases style with
  | explicit => exact .none
  | implicit => exact operate_like hR hp hf .times

theorem start_like (hR : Expr.Congruence R) (hp : List.Forall₂ (Pending.Like R) ps qs)
    (t : Token) : Option.Rel (Like R) (start ps t) (start qs t) := by
  cases t with
  | ref i content => exact .some ⟨hp,.some (.value (rel_refl hR _))⟩
  | char c =>
    simp only [start]
    split
    · exact .some ⟨hp,.some (.name [c])⟩
    · split
      · exact .some ⟨hp,.some (.number [c])⟩
      · split
        · exact .some ⟨.cons .minus hp,.none⟩
        · split
          · exact .some ⟨.cons (.group false) hp,.none⟩
          · exact .none

theorem juxtapose_start_like (hR : Expr.Congruence R) (hp : List.Forall₂ (Pending.Like R) ps qs)
    (hf : f.Like R g) (t : Token) :
    Option.Rel (Like R) ((juxtapose style ps f).bind fun s => start s.pending t)
      ((juxtapose style qs g).bind fun s => start s.pending t) :=
  rel_bind (juxtapose_like hR hp hf) fun h => start_like hR h.pending t

theorem openGroup_like (hR : Expr.Congruence R) (hp : List.Forall₂ (Pending.Like R) ps qs)
    (hf : f.Like R g) : Option.Rel (Like R) (openGroup style ps f) (openGroup style qs g) := by
  have hopen : ∀ (log : Bool) {f g : Factor}, f.Like R g → Option.Rel (Like R)
      ((juxtapose style ps f).map fun s => ⟨.group log :: s.pending, none⟩)
      ((juxtapose style qs g).map fun s => ⟨.group log :: s.pending, none⟩) := fun log _ _ hf =>
    rel_map (fun h => ⟨.cons (.group log) h.pending,.none⟩) (juxtapose_like hR hp hf)
  cases hf with
  | number digits => exact hopen false (.number digits)
  | value h => exact hopen false (.value h)
  | name letters =>
    simp only [openGroup]
    cases (Factor.name letters).beforeCall? with
    | none => exact hopen false (.name letters)
    | some o =>
      cases o with
      | none => exact .some ⟨.cons (.group true) hp,.none⟩
      | some f => exact hopen true (.refl hR f)

theorem closeGroup_like (hR : Expr.Congruence R) (hp : List.Forall₂ (Pending.Like R) ps qs)
    (hf : f.Like R g) : Option.Rel (Like R) (closeGroup style ps f) (closeGroup style qs g) := by
  obtain ⟨hs,hv⟩ := settle_like hR 1 hp hf
  simp only [closeGroup,hf.isWhole style]
  generalize settle 1 ps f = x at hs hv ⊢
  generalize settle 1 qs g = y at hs hv ⊢
  obtain ⟨x,f'⟩ := x
  obtain ⟨y,g'⟩ := y
  rcases hs with _ | ⟨h,hs⟩
  case nil => exact .none
  case cons =>
    rcases h with _ | _ | log
    case minus => exact .none
    case operation => exact .none
    case group =>
      simp only
      split
      · exact .some ⟨hs,.some (.value ((Pending.Like.group log).close hR hv))⟩
      · exact .none

theorem next_like (hR : Expr.Congruence R) (hp : List.Forall₂ (Pending.Like R) ps qs)
    (hf : f.Like R g) (t : Token) :
    Option.Rel (Like R) (next style ps f t) (next style qs g t) := by
  have hj : ∀ t, Option.Rel (Like R) ((juxtapose style ps f).bind fun s => start s.pending t)
      ((juxtapose style qs g).bind fun s => start s.pending t) := juxtapose_start_like hR hp hf
  cases t with
  | ref i content => cases hf <;> exact hj (.ref i content)
  | char c =>
    simp only [next]
    split
    · cases hf with
      | number digits => exact .some ⟨hp,.some (.number _)⟩
      | name letters => exact .none
      | value h => exact .none
    · split
      · cases hf with
        | number digits => exact hj (.char c)
        | name letters => exact .some ⟨hp,.some (.name _)⟩
        | value h => exact hj (.char c)
      · split
        · exact openGroup_like hR hp hf
        · split
          · exact closeGroup_like hR hp hf
          · cases BinaryOp.ofSymbol? c with
            | none => exact .none
            | some op => exact operate_like hR hp hf op

theorem step_like (hR : Expr.Congruence R) {s s' : Scan} (h : s.Like R s') (t : Token) :
    Option.Rel (Like R) (s.step style t) (s'.step style t) := by
  obtain ⟨ps,x⟩ := s
  obtain ⟨qs,y⟩ := s'
  obtain ⟨hp,hf⟩ := h
  simp only at hp hf
  cases hf with
  | none => exact start_like hR hp t
  | some hf => exact next_like hR hp hf t

theorem run_like (hR : Expr.Congruence R) {s s' : Scan} (h : s.Like R s') (text : Fragment) :
    Option.Rel (Like R) (follow (Scan.step style) s text) (follow (Scan.step style) s' text) := by
  induction text generalizing s s' with
  | nil => exact .some h
  | cons t text ih => exact rel_bind (step_like hR h t) ih

theorem finish_like (hR : Expr.Congruence R) {s s' : Scan} (h : s.Like R s') :
    Option.Rel (Option.Rel R) (s.finish style) (s'.finish style) := by
  obtain ⟨ps,x⟩ := s
  obtain ⟨qs,y⟩ := s'
  obtain ⟨hp,hf⟩ := h
  simp only at hp hf
  cases hf with
  | none => exact .none
  | @some f g hf =>
    obtain ⟨hs,hv⟩ := settle_like hR 1 hp hf
    simp only [finish,hf.isWhole style]
    generalize settle 1 ps f = x at hs hv ⊢
    generalize settle 1 qs g = y at hs hv ⊢
    obtain ⟨x,f'⟩ := x
    obtain ⟨y,g'⟩ := y
    cases hs with
    | nil =>
      simp only
      split
      · exact .some (hv.value? hR)
      · exact .none
    | cons _ _ => exact .none

end Scan

end Likeness

end Formula
end Fluxion
