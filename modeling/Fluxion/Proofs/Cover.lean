import Fluxion.Proofs.Absence

/-! Two stages of reading that cannot be told apart any more. In one of them operations
are completed that still wait in the other one, and what comes next binds so loosely that
it completes them as well. -/
namespace Fluxion

/-- A relation that reading in a style may neglect. Where signs may be left out, a product
is read as one with the operations behind it. -/
structure Expr.Regrouping (style : Formula.Style) (R : Expr → Expr → Prop) : Prop
    extends Expr.Congruence R where
  trans {a b c : Expr} (h : R a b) (h' : R b c) : R a c
  regroup (hs : style = .implicit) {op : BinaryOp} (hop : op.level = 2) (a b c : Expr) :
    R (.binary .times a (.binary op b c)) (.binary op (.binary .times a b) c)

theorem Expr.regrouping_eq : Expr.Regrouping .explicit (· = ·) where
  toCongruence := congruence_eq
  trans h h' := h.trans h'
  regroup h := nomatch h

theorem Expr.Regrouping.join? {style : Formula.Style} {R : Expr → Expr → Prop}
    (hR : Expr.Regrouping style R) (hs : style = .implicit) {op : BinaryOp} (hop : op.level = 2)
    (x y z : Option Expr) :
    Option.Rel R (join? .times x (join? op y z)) (join? op (join? .times x y) z) := by
  cases x with
  | none => exact .none
  | some a =>
    cases y with
    | none => exact .none
    | some b =>
      cases z with
      | none => exact .none
      | some c =>
        by_cases hc : op = .divide ∧ c = .const 0
        · obtain ⟨rfl,rfl⟩ := hc
          exact .none
        · simp only [Expr.join?,Option.bind_some,Except.toOption,combine,if_neg hc]
          exact .some (hR.regroup hs hop a b c)

namespace Formula

section Reads

/-- An operand is read as a factor, which stands for the same expression. -/
structure Reads (a : Fragment) (f : Factor) : Prop where
  run (style : Style) (ps : List Pending) :
    follow (Scan.step style) ⟨ps, none⟩ a = some ⟨ps, some f⟩
  value : f.value? = a.assembled?
  negated : f.negated? = Fragment.assembled? (.char '-' :: a)
  ends {rest : Fragment} (he : a.Ends rest) : ∀ t ∈ rest.head?, f.takes t = false
  whole (hw : f.isWhole .implicit = true) : a.length = 1 ∨ a.all Token.isDigit = true
  long (hl : 2 ≤ a.length) : f.isLong = true

theorem next_number (style : Style) (ps : List Pending) (ds : List Char) {c : Char}
    (h : c.isDigit = true) :
    Scan.next style ps (.number ds) (.char c) = some ⟨ps, some (.number (ds ++ [c]))⟩ := by
  simp [Scan.next,h]

theorem next_name (style : Style) (ps : List Pending) (ls : List Char) {c : Char}
    (h : c.isAlpha = true) :
    Scan.next style ps (.name ls) (.char c) = some ⟨ps, some (.name (ls ++ [c]))⟩ := by
  simp [Scan.next,h,not_isDigit_of_isAlpha h]

theorem run_letters (style : Style) (ps : List Pending) (ls : List Char) {cs : List Char}
    (h : ∀ c ∈ cs, c.isAlpha = true) :
    follow (Scan.step style) ⟨ps, some (.name ls)⟩ (cs.map .char) =
      some ⟨ps, some (.name (ls ++ cs))⟩ :=
  follow_chars (fun ls => (⟨ps, some (.name ls)⟩ : Scan)) (fun ls _ => next_name style ps ls) h ls

theorem reads_number {cs : List Char} (hn : cs ≠ []) (h : ∀ c ∈ cs, c.isDigit = true) :
    Reads (cs.map .char) (.number cs) where
  run style ps := by
    refine follow_chars_of_start (fun ds => (⟨ps, some (.number ds)⟩ : Scan)) (fun c hc => ?_)
      (fun ds _ => next_number style ps ds) hn h
    have ha : c.isAlpha = false := Token.not_isLetter_of_isDigit (t := .char c) hc
    simp [Scan.step,Scan.start,ha,hc]
  value := (Fragment.assembled?_number hn h).symm
  negated := (Fragment.assembled?_minus_number hn h).symm
  ends he := he.not_isDigit hn h
  whole _ := .inr (Fragment.all_isDigit_of_number h)
  long hl := by simpa [Factor.isLong] using hl

theorem reads_name {cs : List Char} (hn : cs ≠ []) (h : ∀ c ∈ cs, c.isAlpha = true) :
    Reads (cs.map .char) (.name cs) where
  run style ps := by
    refine follow_chars_of_start (fun ls => (⟨ps, some (.name ls)⟩ : Scan)) (fun c hc => ?_)
      (fun ls _ => next_name style ps ls) hn h
    simp [Scan.step,Scan.start,hc]
  value := (Fragment.assembled?_name hn h).symm
  negated := by
    rw [Fragment.assembled?_minus (.name hn h) (Fragment.all_isDigit_of_name hn h),
      Fragment.assembled?_name hn h]
    rfl
  ends he := he.not_isLetter hn h
  whole hw := .inl (by simpa [Factor.isWhole] using hw)
  long hl := by simpa [Factor.isLong] using hl

theorem reads_reference (i : Nat) (content : Fragment) :
    Reads [.ref i content] (.value content.assembled?) where
  run _ _ := rfl
  value := (Fragment.assembled?_ref i content).symm
  negated := by
    rw [Fragment.assembled?_minus (.reference i content) rfl,Fragment.assembled?_ref]
    rfl
  ends _ _ _ := rfl
  whole _ := .inl rfl
  long hl := by simp at hl

theorem Fragment.Operand.reads {a : Fragment} (h : a.Operand) : ∃ f, Reads a f := by
  cases h with
  | number hn hc => exact ⟨_,reads_number hn hc⟩
  | name hn hc => exact ⟨_,reads_name hn hc⟩
  | reference i content => exact ⟨_,reads_reference i content⟩

end Reads

theorem Scan.next_operand {t : Token} {f : Factor} (ho : t.isOperand = true)
    (hd : t.isDigit = false) (ht : f.takes t = false) (style : Style) (ps : List Pending) :
    next style ps f t = (juxtapose style ps f).bind fun m => start m.pending t := by
  cases t with
  | ref i a => cases f <;> rfl
  | char c =>
    have hd : c.isDigit = false := hd
    have ha : c.isAlpha = true := by simpa [Token.isOperand_char,hd] using ho
    cases f with
    | name letters => rw [show (Factor.name letters).takes (.char c) = c.isAlpha from rfl,ha] at ht; cases ht
    | number digits => simp [next,hd,ha]
    | value e => simp [next,hd,ha]

theorem rel_finish_run {style : Style} {R : Expr → Expr → Prop} (hR : Expr.Congruence R)
    {s s' m : Scan} {text : Fragment} {v : Option Expr} (hl : s'.Like R s)
    (hr : follow (Scan.step style) s text = some m) (hf : m.finish style = some v) :
    ∃ v', (follow (Scan.step style) s' text).bind (Scan.finish style) = some v' ∧
      Option.Rel R v' v := by
  have h : Option.Rel (Option.Rel R) ((follow (Scan.step style) s' text).bind (Scan.finish style))
      ((follow (Scan.step style) s text).bind (Scan.finish style)) :=
    rel_bind (Scan.run_like hR hl text) (Scan.finish_like hR)
  rw [hr,Option.bind_some,hf] at h
  exact exists_of_rel h

/-- How tightly a token binds to an operand in front of it. -/
def Token.level : Token → Nat
  | .char c => ((BinaryOp.ofSymbol? c).map BinaryOp.level).getD 2
  | .ref _ _ => 2

@[simp] theorem Token.level_symbol (op : BinaryOp) : (Token.char op.symbol).level = op.level := by
  cases op <;> rfl

theorem Token.level_of_isOperand {t : Token} (h : t.isOperand = true) : t.level = 2 := by
  cases t with
  | ref i a => rfl
  | char c =>
    cases hs : BinaryOp.ofSymbol? c with
    | none => simp [level,hs]
    | some op =>
      rw [← BinaryOp.symbol_of_ofSymbol? hs,Scan.not_isOperand_symbol] at h
      cases h

/-- A completed value on one stack and a factor on another one that come to the same as
soon as something of at most a level completes them. -/
structure Covers (R : Expr → Expr → Prop) (k : Nat) (ps : List Pending) (x : Option Expr)
    (qs : List Pending) (g : Factor) : Prop where
  pending {j : Nat} (hj : j ≤ k) :
    List.Forall₂ (Pending.Like R) (settle j ps (.value x)).1 (settle j qs g).1
  factor {j : Nat} (hj : j ≤ k) : (settle j ps (.value x)).2.Like R (settle j qs g).2

namespace Covers

variable {style : Style} {R : Expr → Expr → Prop} {k : Nat} {ps qs : List Pending}
  {x : Option Expr} {g : Factor} {s : Scan} {t : Token}

theorem operate_value (style : Style) (ps : List Pending) (x : Option Expr) (op : BinaryOp) :
    Scan.operate style ps (.value x) op =
      some ⟨.operation op (settle op.level ps (.value x)).2.value? ::
        (settle op.level ps (.value x)).1, none⟩ :=
  if_pos ⟨rfl,by simp [Factor.isLong]⟩

theorem operate (hc : Covers R k ps x qs g) (hR : Expr.Congruence R) {op : BinaryOp}
    (ho : op.level ≤ k) (h : Scan.operate style qs g op = some s) :
    ∃ s', Scan.operate style ps (.value x) op = some s' ∧ s'.Like R s := by
  obtain ⟨rfl,-⟩ := Scan.operate_eq_some h
  exact ⟨_,operate_value style ps x op,
    .cons (.operation op ((hc.factor ho).value? hR)) (hc.pending ho),.none⟩

theorem next (hc : Covers R k ps x qs g) (hR : Expr.Congruence R)
    (hf : t.isParenthesis = false) (ht : g.takes t = false) (hk : t.level ≤ k)
    (h : Scan.next style qs g t = some s) :
    ∃ s', Scan.next style ps (.value x) t = some s' ∧ s'.Like R s := by
  rcases Scan.next_eq_some h hf with ⟨hg,-⟩ | ⟨ho,hd,-,m,hj,hm⟩ | ⟨op,rfl,ho⟩
  · rw [ht] at hg
    cases hg
  · rw [Token.level_of_isOperand ho] at hk
    obtain ⟨rfl,-⟩ := Scan.juxtapose_eq_some hj
    have hk : BinaryOp.times.level ≤ k := hk
    have hj : Scan.operate .implicit qs g .times = some _ := hj
    obtain ⟨m',hj',hl⟩ := hc.operate hR hk hj
    obtain ⟨s',hn,hs⟩ := exists_of_rel (hm ▸ Scan.start_like hR hl.pending t)
    refine ⟨s',?_,hs⟩
    rw [Scan.next_operand ho hd rfl,show Scan.juxtapose .implicit ps (.value x) = some m' from hj']
    exact hn
  · rw [Token.level_symbol] at hk
    rw [Scan.next_sign]
    exact hc.operate hR hk ho

theorem finish (hc : Covers R k ps x qs g) (hR : Expr.Congruence R) (hk : 1 ≤ k)
    {v : Option Expr} (h : Scan.finish style ⟨qs, some g⟩ = some v) :
    ∃ v', Scan.finish style ⟨ps, some (.value x)⟩ = some v' ∧ Option.Rel R v' v := by
  obtain ⟨f,g',hf,-,hs,rfl⟩ := Scan.finish_eq_some h
  cases hf
  have hp := hc.pending hk
  have hv := hc.factor hk
  rw [hs] at hp hv
  refine ⟨(settle 1 ps (.value x)).2.value?,?_,hv.value? hR⟩
  have hnil : settle 1 ps (.value x) = ([], (settle 1 ps (.value x)).2) := by
    rw [← List.forall₂_nil_right_iff.mp hp]
  simp only [Scan.finish]
  rw [hnil]
  rfl

/-- All that comes after is read to the same end. -/
theorem run (hc : Covers R k ps x qs g) (hR : Expr.Congruence R) (hk : 1 ≤ k) {after : Fragment}
    (hf : after.Flat) (ht : ∀ t ∈ after.head?, g.takes t = false ∧ t.level ≤ k) {v : Option Expr}
    (h : (follow (Scan.step style) ⟨qs, some g⟩ after).bind (Scan.finish style) = some v) :
    ∃ v',
      (follow (Scan.step style) ⟨ps, some (.value x)⟩ after).bind (Scan.finish style) = some v' ∧
      Option.Rel R v' v := by
  cases after with
  | nil => exact hc.finish hR hk h
  | cons t after =>
    obtain ⟨s',hr,hfin⟩ := Option.bind_eq_some_iff.mp h
    obtain ⟨m,hm,hr⟩ := Option.bind_eq_some_iff.mp hr
    obtain ⟨htake,hlevel⟩ := ht t rfl
    obtain ⟨m',hm',hl⟩ := hc.next hR (hf t (by simp)) htake hlevel hm
    rw [follow_cons,Scan.step_some,hm',Option.bind_some]
    exact rel_finish_run hR hl hr hfin

end Covers

end Formula
end Fluxion
