import Fluxion.Proofs.Grammar
import Fluxion.Proofs.Simulation

/-! Texts of the grammar are read to their trees. A phrase is read on top of whatever
waits for it, and behind it the stack is as if the tree had been put there. -/
namespace Fluxion.Formula

theorem integer?_eq_some {negative : Bool} {ds : List Char} {v : Int64}
    (h : v.toInt = if negative then -(Decimal.toNat ds : Int) else Decimal.toNat ds) :
    integer? negative ds = some v := by
  have hb : Int64.minValue.toInt ≤ v.toInt ∧ v.toInt ≤ Int64.maxValue.toInt :=
    ⟨Int64.minValue_le_toInt v,Int64.toInt_le v⟩
  rw [integer?,← h,if_pos hb,Int64.ofInt_toInt]

/-- The same stack, and factors that stand for the same expression. -/
def SameEnd (x y : List Pending × Factor) : Prop := x.1 = y.1 ∧ x.2.value? = y.2.value?

namespace Phrase

/-- A text is read on top of a stack, and what binds at most as tightly as a level finds a
tree there. -/
def Delivers (k : Nat) (ps : List Pending) (s : List Char) (t : Expr) : Prop :=
  ∃ qs f, follow (Scan.step .explicit) ⟨ps, none⟩ (s.map .char) = some ⟨qs, some f⟩ ∧
    ∀ j, 0 < j → j ≤ k → SameEnd (settle j qs f) (settle j ps (.value (some t)))

variable {ps : List Pending} {s s' : List Char} {t t' : Expr} {k : Nat}

theorem Delivers.weaken {j : Nat} (h : Delivers k ps s t) (hj : j ≤ k) : Delivers j ps s t := by
  obtain ⟨qs,f,hr,hs⟩ := h
  exact ⟨qs,f,hr,fun i hi hij => hs i hi (hij.trans hj)⟩

theorem sameEnd_value {f : Factor} {x : Option Expr} (hf : f.value? = x)
    (hm : ps.head?.any Pending.isMinus = true → f.negated? = x.map .neg) (j : Nat) :
    SameEnd (settle j ps f) (settle j ps (.value x)) := by
  cases ps with
  | nil => exact ⟨rfl,hf⟩
  | cons p ps =>
    by_cases hj : j ≤ p.level
    · have hc : p.close f = p.close (.value x) := by
        cases p with
        | minus => exact hm rfl
        | operation op y => rw [Pending.close,Pending.close,hf]; rfl
        | group log => rw [Pending.close,Pending.close,hf]; rfl
      rw [settle_cons_of_le hj,settle_cons_of_le hj,hc]
      exact ⟨rfl,rfl⟩
    · rw [settle_cons_of_lt (Nat.not_le.mp hj),settle_cons_of_lt (Nat.not_le.mp hj)]
      exact ⟨rfl,hf⟩

/-- A run of letters or digits of which a minus would take a part. -/
def LongRun (s : List Char) : Prop :=
  2 ≤ s.length ∧ ((∀ c ∈ s, c.isAlpha = true) ∨ ∀ c ∈ s, c.isDigit = true)

theorem LongRun.isLongPower (h : LongRun s) (w : List Char) :
    isLongPower (s ++ '^' :: w) = true := by
  have hn : ∀ c ∈ s, c ≠ '^' := by
    rintro c hc rfl
    rcases h.2 with ha | hd
    · exact absurd (ha _ hc) (by decide)
    · exact absurd (hd _ hc) (by decide)
  have ht : (s ++ '^' :: w).takeWhile (· ≠ '^') = s := by
    rw [List.takeWhile_append_of_pos (by simpa using hn)]
    simp
  simp only [Formula.isLongPower,ht]
  simp [h.1,h.2]

/-- A primary is read as one factor. -/
def ReadsPrimary (s : List Char) (t : Expr) : Prop :=
  ∀ ps, ∃ f, follow (Scan.step .explicit) ⟨ps, none⟩ (s.map .char) = some ⟨ps, some f⟩ ∧
    f.value? = some t ∧ (f.negated? = some (.neg t) ∨ ∀ c ∈ s, c.isDigit = true) ∧
    (f.isLong = true → LongRun s)

/-- A tower of powers is read to the same, and a minus in front waits until it is complete. -/
def ReadsPower (s : List Char) (t : Expr) : Prop :=
  ∀ ps, (∀ p ∈ ps.head?, p.level < 3) →
    (ps.head?.any Pending.isMinus = true → isLongPower s = false) →
    ∃ qs f g, follow (Scan.step .explicit) ⟨ps, none⟩ (s.map .char) = some ⟨qs, some f⟩ ∧
      settle 3 qs f = (ps, g) ∧ g.value? = some t ∧
      (g.negated? = some (.neg t) ∨ ∀ c ∈ s, c.isDigit = true) ∧
      (qs.head?.any Pending.isMinus = true → f.isLong = true →
        ps.head?.any Pending.isMinus = true ∧ LongRun s)

/-- How a phrase is read, with the stacks on which it may stand. -/
def Reads : Phrase → List Char → Expr → Prop
  | primary, s, t => ReadsPrimary s t
  | power, s, t => ReadsPower s t
  | factor, s, t | signed, s, t => ∀ ps,
    (∀ p ∈ ps.head?, p.level < 3) →
    (ps.head?.any Pending.isMinus = true → isLongPower s = false ∧ ∃ c ∈ s, c.isDigit = false) →
    Delivers 2 ps s t
  | negative, s, t => ∀ ps, Delivers 2 ps s t
  | product, s, t => ∀ ps, (∀ p ∈ ps.head?, p.level < 2) → Delivers 2 ps s t
  | sum, s, t => ∀ ps, (∀ p ∈ ps.head?, p.level < 1) → Delivers 1 ps s t

theorem reads_number {ds : List Char} {v : Int64} (hn : ds ≠ [])
    (hd : ∀ c ∈ ds, c.isDigit = true) (hv : v.toInt = Decimal.toNat ds) :
    ReadsPrimary ds (.const v) := by
  intro ps
  refine ⟨_,(Formula.reads_number hn hd).run .explicit ps,?_,.inr hd,fun hl => ?_⟩
  · rw [Factor.value?,integer?_eq_some hv]
    rfl
  · exact ⟨by simpa [Factor.isLong] using hl,.inr hd⟩

theorem reads_name {cs : List Char} (hn : cs ≠ []) (hc : ∀ c ∈ cs, c.isAlpha = true) :
    ReadsPrimary cs (.var (String.ofList cs)) := by
  intro ps
  refine ⟨_,(Formula.reads_name hn hc).run .explicit ps,rfl,.inl rfl,fun hl => ?_⟩
  exact ⟨by simpa [Factor.isLong] using hl,.inl hc⟩

theorem Delivers.close {log : Bool} (h : Delivers 1 (.group log :: ps) s t) :
    follow (Scan.step .explicit) ⟨.group log :: ps, none⟩ ((s ++ [')']).map .char) =
      some ⟨ps, some (.value (some (if log then .ln t else t)))⟩ := by
  obtain ⟨qs,f,hr,hs⟩ := h
  obtain ⟨hp,hv⟩ := hs 1 Nat.one_pos (le_refl 1)
  rw [settle_cons_of_lt (p := .group log) (by decide : 0 < 1)] at hp hv
  have hclose : Scan.closeGroup .explicit qs f =
      some ⟨ps, some (.value (some (if log then .ln t else t)))⟩ := by
    have he : settle 1 qs f = (.group log :: ps, (settle 1 qs f).2) := Prod.ext hp rfl
    have hw : f.isWhole .explicit = true := by cases f <;> rfl
    unfold Scan.closeGroup
    rw [he]
    simp only [hw,if_true,Pending.close,hv]
    cases log <;> rfl
  rw [List.map_append,follow_append,hr,Option.bind_some,List.map_singleton,follow_cons,
    Scan.step_some,show Scan.next .explicit qs f (.char ')') = Scan.closeGroup .explicit qs f from rfl,
    hclose]
  rfl

theorem reads_group (h : Reads .sum s t) : ReadsPrimary ('(' :: s ++ [')']) t := by
  intro ps
  refine ⟨.value (some t),?_,rfl,.inl rfl,fun hl => by cases hl⟩
  have hd : Delivers 1 (.group false :: ps) s t :=
    h _ fun p hp => by cases hp; decide
  rw [List.cons_append,List.map_cons,follow_cons,Scan.step_none,
    show Scan.start ps (.char '(') = some ⟨.group false :: ps, none⟩ from rfl,Option.bind_some,
    hd.close]
  rfl

theorem reads_logarithm (h : Reads .sum s t) :
    ReadsPrimary ('l' :: 'n' :: '(' :: s ++ [')']) (.ln t) := by
  intro ps
  refine ⟨.value (some (.ln t)),?_,rfl,.inl rfl,fun hl => by cases hl⟩
  have hd : Delivers 1 (.group true :: ps) s t :=
    h _ fun p hp => by cases hp; decide
  have hcall : follow (Scan.step .explicit) ⟨ps, none⟩ [.char 'l', .char 'n', .char '('] =
      some ⟨.group true :: ps, none⟩ := rfl
  rw [show ('l' :: 'n' :: '(' :: s ++ [')']) = ['l', 'n', '('] ++ (s ++ [')']) from rfl,
    List.map_append,follow_append,List.map_cons,List.map_cons,List.map_singleton,hcall,
    Option.bind_some,hd.close]
  rfl

theorem reads_base (h : ReadsPrimary s t) : ReadsPower s t := by
  intro ps hp _
  obtain ⟨f,hr,hv,hn,hl⟩ := h ps
  exact ⟨ps,f,f,hr,settle_of_head hp f,hv,hn,fun hm hf => ⟨hm,hl hf⟩⟩

theorem operate_explicit {qs : List Pending} {f : Factor} {op : BinaryOp}
    (hs : (settle op.level qs f).1 = ps) (hv : (settle op.level qs f).2.value? = some t)
    (hc : ¬(op = .power ∧ f.isLong = true ∧ qs.head?.any Pending.isMinus = true)) :
    Scan.operate .explicit qs f op = some ⟨.operation op (some t) :: ps, none⟩ := by
  have hw : f.isWhole .explicit = true := by cases f <;> rfl
  rw [Scan.operate,if_pos ⟨hw,hc⟩]
  simp only [hs,hv]

theorem ReadsPower.operate (h : ReadsPower s t) (hp : ∀ p ∈ ps.head?, p.level < 3)
    (hm : ps.head?.any Pending.isMinus = true → isLongPower (s ++ '^' :: s') = false) :
    follow (Scan.step .explicit) ⟨ps, none⟩ ((s ++ ['^']).map .char) =
      some ⟨.operation .power (some t) :: ps, none⟩ := by
  have hm' : ps.head?.any Pending.isMinus = true → isLongPower s = false := fun hh => by
    by_contra hl
    have hl := isLongPower_append (by simpa using hl) ('^' :: s')
    rw [hm hh] at hl
    cases hl
  obtain ⟨qs,f,g,hr,hs,hv,-,hl⟩ := h ps hp hm'
  have hop : Scan.operate .explicit qs f .power =
      some ⟨.operation .power (some t) :: ps, none⟩ := by
    refine operate_explicit (congrArg Prod.fst hs) ((congrArg (·.2.value?) hs).trans hv) ?_
    rintro ⟨-,hlong,hminus⟩
    obtain ⟨hh,hrun⟩ := hl hminus hlong
    have := hrun.isLongPower s'
    rw [hm hh] at this
    cases this
  rw [List.map_append,follow_append,hr,Option.bind_some,List.map_singleton,follow_cons,
    Scan.step_some,show Scan.next .explicit qs f (.char '^') = Scan.operate .explicit qs f .power from
      Scan.next_sign .power qs f,hop]
  rfl

theorem reads_power (h : ReadsPower s t) (h' : ReadsPrimary s' t') :
    ReadsPower (s ++ '^' :: s') (.binary .power t t') := by
  intro ps hp hm
  obtain ⟨f,hr,hv,-,-⟩ := h' (.operation .power (some t) :: ps)
  refine ⟨.operation .power (some t) :: ps,f,.value (some (.binary .power t t')),?_,?_,rfl,
    .inl rfl,?_⟩
  · rw [show s ++ '^' :: s' = (s ++ ['^']) ++ s' by simp,List.map_append,follow_append,
      h.operate hp hm,Option.bind_some]
    exact hr
  · rw [settle_cons_of_le (p := .operation .power (some t)) (le_refl 3),settle_of_head hp,
      Pending.close,hv]
    rfl
  · intro hh
    cases hh

theorem reads_tower (h : ReadsPower s t) : Reads .factor s t := by
  intro ps hp hm
  obtain ⟨qs,f,g,hr,hs,hv,hn,-⟩ := h ps hp fun hh => (hm hh).1
  refine ⟨qs,f,hr,fun j _ hj => ?_⟩
  rw [← settle_settle (hj.trans (by decide : 2 ≤ 3)) qs f,hs]
  refine sameEnd_value hv (fun hh => ?_) j
  obtain ⟨c,hc,hd⟩ := (hm hh).2
  refine hn.resolve_right fun hall => ?_
  rw [hall c hc] at hd
  cases hd

/-- What is read behind an operator is its right operand. -/
theorem Delivers.operation {u : List Char} {op : BinaryOp}
    (hu : follow (Scan.step .explicit) ⟨ps, none⟩ (u.map .char) =
      some ⟨.operation op (some t) :: ps, none⟩)
    (h : Delivers k (.operation op (some t) :: ps) s' t') (hk : k ≤ op.level)
    (hz : op = .divide → t' ≠ .const 0) : Delivers k ps (u ++ s') (.binary op t t') := by
  obtain ⟨qs,f,hr,hs⟩ := h
  refine ⟨qs,f,?_,fun j hj hjk => ?_⟩
  · rw [List.map_append,follow_append,hu]
    exact hr
  · have hj := hs j hj hjk
    have hclose : (Pending.operation op (some t)).close (.value (some t')) =
        some (.binary op t t') := by
      have hc : ¬(op = .divide ∧ t' = .const 0) := fun hc => hz hc.1 hc.2
      simp only [Pending.close,Factor.value?,Expr.join?,Option.bind_some,Expr.combine,if_neg hc]
      rfl
    rwa [settle_cons_of_le (p := .operation op (some t)) (hjk.trans hk),hclose] at hj

theorem Delivers.operate (h : Delivers k ps s t) {op : BinaryOp} (ho : op ≠ .power)
    (hk : op.level ≤ k) (hp : ∀ p ∈ ps.head?, p.level < op.level) :
    follow (Scan.step .explicit) ⟨ps, none⟩ ((s ++ [op.symbol]).map .char) =
      some ⟨.operation op (some t) :: ps, none⟩ := by
  obtain ⟨qs,f,hr,hs⟩ := h
  obtain ⟨hstack,hv⟩ := hs op.level op.level_pos hk
  rw [settle_of_head hp] at hstack hv
  have hstack : (settle op.level qs f).1 = ps := hstack
  have hv : (settle op.level qs f).2.value? = some t := hv
  have hop : Scan.operate .explicit qs f op = some ⟨.operation op (some t) :: ps, none⟩ :=
    operate_explicit hstack hv fun hc => ho hc.1
  rw [List.map_append,follow_append,hr,Option.bind_some,List.map_singleton,follow_cons,
    Scan.step_some,Scan.next_sign,hop]
  rfl

theorem reads_exponent (h : ReadsPower s t) (h' : Reads .negative s' t') :
    Reads .factor (s ++ '^' :: s') (.binary .power t t') := by
  intro ps hp hm
  have hu := h.operate hp fun hh => (hm hh).1
  have hd := Delivers.operation hu (h' (.operation .power (some t) :: ps)) (by decide)
    fun ho => nomatch ho
  rwa [List.append_assoc] at hd

theorem reads_literal {ds : List Char} {v : Int64} (hn : ds ≠ [])
    (hd : ∀ c ∈ ds, c.isDigit = true) (hv : v.toInt = -Decimal.toNat ds) :
    Reads .negative ('-' :: ds) (.const v) := by
  intro ps
  refine ⟨_,_,(Formula.reads_number hn hd).run .explicit (.minus :: ps),fun j _ hj => ?_⟩
  rw [settle_cons_of_le (p := .minus) hj,Pending.close,Factor.negated?,integer?_eq_some hv]
  exact ⟨rfl,rfl⟩

theorem reads_negate (h : Reads .signed s t) (hd : ∃ c ∈ s, c.isDigit = false)
    (hl : isLongPower s = false) : Reads .negative ('-' :: s) (.neg t) := by
  intro ps
  obtain ⟨qs,f,hr,hs⟩ := h (.minus :: ps) (fun p hp => by cases hp; decide) fun _ => ⟨hl,hd⟩
  refine ⟨qs,f,hr,fun j hj hjk => ?_⟩
  have hj := hs j hj hjk
  rwa [settle_cons_of_le (p := .minus) hjk] at hj

theorem reads_single (h : Reads .signed s t) : Reads .product s t := by
  intro ps hp
  refine h ps (fun p hq => (hp p hq).trans (by decide)) fun hm => ?_
  cases ps with
  | nil => cases hm
  | cons p ps =>
    cases p with
    | minus => exact absurd (hp _ rfl) (by decide)
    | operation op x => cases hm
    | group log => cases hm

theorem reads_binary {op : BinaryOp} (ho : op ≠ .power) (hk : op.level = k)
    (h : ∀ ps, (∀ p ∈ ps.head?, p.level < k) → Delivers k ps s t)
    (h' : ∀ ps, Delivers k (.operation op (some t) :: ps) s' t')
    (hz : op = .divide → t' ≠ .const 0) (ps : List Pending) (hp : ∀ p ∈ ps.head?, p.level < k) :
    Delivers k ps (s ++ op.symbol :: s') (.binary op t t') := by
  subst hk
  have hu := (h ps hp).operate ho (le_refl op.level) hp
  have hd := Delivers.operation hu (h' ps) (le_refl op.level) hz
  rwa [List.append_assoc] at hd

theorem reads_product {op : BinaryOp} (hop : op = .times ∨ op = .divide)
    (h : Reads .product s t) (h' : Reads .signed s' t') (hz : op = .divide → t' ≠ .const 0) :
    Reads .product (s ++ op.symbol :: s') (.binary op t t') := by
  have hlevel : op.level = 2 := by rcases hop with rfl | rfl <;> rfl
  have ho : op ≠ .power := by rcases hop with rfl | rfl <;> decide
  refine reads_binary ho hlevel h (fun ps => h' _ (fun p hq => ?_) fun hm => by cases hm) hz
  cases hq
  exact lt_of_eq_of_lt hlevel (by decide)

theorem reads_sum {op : BinaryOp} (hop : op = .plus ∨ op = .minus)
    (h : Reads .sum s t) (h' : Reads .product s' t') :
    Reads .sum (s ++ op.symbol :: s') (.binary op t t') := by
  have hlevel : op.level = 1 := by rcases hop with rfl | rfl <;> rfl
  have ho : op ≠ .power ∧ op ≠ .divide := by rcases hop with rfl | rfl <;> decide
  refine reads_binary ho.1 hlevel h (fun ps => ?_) fun hc => absurd hc ho.2
  refine (h' _ fun p hq => ?_).weaken (by decide)
  cases hq
  exact lt_of_eq_of_lt hlevel (by decide)

theorem negatesLongPower_part {previous last : Option Char} {u s w : List Char}
    (h : negatesLongPower previous (u ++ (s ++ w)) = false) (hl : u.getLast?.or previous = last) :
    negatesLongPower last s = false := by
  by_contra hs
  have hs := negatesLongPower_append_right (by simpa using hs) w
  rw [negatesLongPower_append_left (u := u) (by rw [hl]; exact hs)] at h
  cases h

/-- Every phrase is read to its tree. -/
theorem Derives.reads {phrase : Phrase} (h : phrase.Derives s t) {previous : Option Char}
    (hp : isUnaryAfter previous = true) (hn : negatesLongPower previous s = false) :
    phrase.Reads s t := by
  induction h generalizing previous with
  | number hne hd hv => exact reads_number hne hd hv
  | name hne hc => exact reads_name hne hc
  | @group s t _ ih =>
    exact reads_group (ih rfl (negatesLongPower_part (u := ['(']) (w := [')']) hn rfl))
  | @logarithm s t _ ih =>
    exact reads_logarithm
      (ih rfl (negatesLongPower_part (u := ['l', 'n', '(']) (w := [')']) hn rfl))
  | base _ ih => exact reads_base (ih hp hn)
  | @power s s' t t' _ _ ih ih' =>
    refine reads_power (ih hp (negatesLongPower_part (u := []) hn rfl))
      (@ih' (some '^') rfl ?_)
    exact negatesLongPower_part (u := s ++ ['^']) (w := []) (by simpa using hn) (by simp)
  | tower _ ih => exact reads_tower (ih hp hn)
  | @exponent s s' t t' _ _ ih ih' =>
    refine reads_exponent (ih hp (negatesLongPower_part (u := []) hn rfl))
      (@ih' (some '^') rfl ?_)
    exact negatesLongPower_part (u := s ++ ['^']) (w := []) (by simpa using hn) (by simp)
  | literal hne hd hv => exact reads_literal hne hd hv
  | negate _ hd ih =>
    simp only [negatesLongPower,hp,decide_true,Bool.true_and,Bool.or_eq_false_iff] at hn
    exact reads_negate (ih rfl hn.2) hd hn.1
  | minus _ ih => exact fun ps _ _ => ih hp hn ps
  | unsigned _ ih => exact ih hp hn
  | single _ ih => exact reads_single (ih hp hn)
  | @product s s' t t' op hop _ _ hz ih ih' =>
    refine reads_product hop (ih hp (negatesLongPower_part (u := []) hn rfl))
      (@ih' (some op.symbol) (by cases op <;> rfl) ?_) hz
    exact negatesLongPower_part (u := s ++ [op.symbol]) (w := []) (by simpa using hn) (by simp)
  | term _ ih =>
    intro ps hps
    exact (ih hp hn ps fun p hq => (hps p hq).trans (by decide)).weaken (by decide)
  | @sum s s' t t' op hop _ _ ih ih' =>
    refine reads_sum hop (ih hp (negatesLongPower_part (u := []) hn rfl))
      (@ih' (some op.symbol) (by cases op <;> rfl) ?_)
    exact negatesLongPower_part (u := s ++ [op.symbol]) (w := []) (by simpa using hn) (by simp)

theorem Derives.isAllowed {phrase : Phrase} (h : phrase.Derives s t) :
    ∀ c ∈ s, isAllowed c = true := by
  have symbol : ∀ {u w : List Char} (op : BinaryOp), (∀ c ∈ u, Formula.isAllowed c = true) →
      (∀ c ∈ w, Formula.isAllowed c = true) → ∀ c ∈ u ++ op.symbol :: w, Formula.isAllowed c = true := by
    intro u w op hu hw c hc
    rcases List.mem_append.mp hc with hc | hc
    · exact hu c hc
    · rcases List.mem_cons.mp hc with rfl | hc
      · exact isAllowed_symbol op
      · exact hw c hc
  induction h with
  | number _ hd _ => exact fun c hc => isAllowed_of_isDigit (hd c hc)
  | name _ hc => exact fun c h => isAllowed_of_isAlpha (hc c h)
  | group _ ih => simpa [or_imp,forall_and] using ⟨rfl,ih,rfl⟩
  | logarithm _ ih => simpa [or_imp,forall_and] using ⟨rfl,rfl,rfl,ih,rfl⟩
  | base _ ih | tower _ ih | minus _ ih | unsigned _ ih | single _ ih | term _ ih => exact ih
  | power _ _ ih ih' | exponent _ _ ih ih' => exact symbol .power ih ih'
  | literal _ hd _ => exact List.forall_mem_cons.mpr ⟨rfl,fun c hc => isAllowed_of_isDigit (hd c hc)⟩
  | negate _ _ ih => exact List.forall_mem_cons.mpr ⟨rfl,ih⟩
  | @product _ _ _ _ op _ _ _ _ ih ih' => exact symbol op ih ih'
  | @sum _ _ _ _ op _ _ _ ih ih' => exact symbol op ih ih'

end Phrase

theorem scan?_of_delivers {s : List Char} {t : Expr} (h : Phrase.Delivers 1 [] s t) :
    Fragment.scan? .explicit (s.map .char) = some (some t) := by
  obtain ⟨qs,f,hr,hs⟩ := h
  obtain ⟨hp,hv⟩ := hs 1 Nat.one_pos (le_refl 1)
  have he : settle 1 qs f = ([], (settle 1 qs f).2) := Prod.ext hp rfl
  have hw : f.isWhole .explicit = true := by cases f <;> rfl
  refine Fragment.scan?_eq_some.mpr ⟨_,hr,?_⟩
  simp only [Scan.finish]
  rw [he]
  simp only [hw,if_true,hv]
  rfl

/-- Formulas with all operators written are read as the grammar says, provided that no
minus stands in front of a long run that is the base of a power. -/
theorem parse_eq_ok_of_derives {s : String} {t : Expr} (h : Phrase.sum.Derives s.toList t)
    (hn : negatesLongPower none s.toList = false) : parse s = .ok t := by
  refine parse_eq_ok_iff.mpr ⟨h.isAllowed,?_⟩
  exact Fragment.parsed?_of_scan? (scan?_of_delivers (h.reads rfl hn [] (by simp)))

theorem parse_quotient_of_tower : parse "6-ab^-x^2/-3" =
    .ok (.binary .minus (.const 6) (.binary .divide
      (.binary .power (.var "ab") (.neg (.binary .power (.var "x") (.const 2)))) (.const (-3)))) := by
  have two : Phrase.primary.Derives ['2'] (.const 2) :=
    .number (by decide) (List.forall_mem_singleton.mpr rfl) (by decide)
  have six : Phrase.primary.Derives ['6'] (.const 6) :=
    .number (by decide) (List.forall_mem_singleton.mpr rfl) (by decide)
  have x : Phrase.primary.Derives ['x'] (.var "x") :=
    .name (by decide) (List.forall_mem_singleton.mpr rfl)
  have ab : Phrase.primary.Derives ['a', 'b'] (.var "ab") :=
    .name (by decide) (List.forall_mem_cons.mpr ⟨rfl,List.forall_mem_singleton.mpr rfl⟩)
  have three : Phrase.negative.Derives ['-', '3'] (.const (-3)) :=
    .literal (by decide) (List.forall_mem_singleton.mpr rfl) (by decide)
  have exponent := Phrase.Derives.negate (.unsigned (.tower (.power (.base x) two)))
    ⟨'x',by decide,by decide⟩
  have quotient := Phrase.Derives.product (.inr rfl)
    (.single (.unsigned (.exponent (.base ab) exponent))) (.minus three) (by decide)
  have difference := Phrase.Derives.sum (.inr rfl)
    (.term (.single (.unsigned (.tower (.base six))))) quotient
  have hs : "6-ab^-x^2/-3".toList =
      ['6', '-', 'a', 'b', '^', '-', 'x', '^', '2', '/', '-', '3'] := by decide
  exact parse_eq_ok_of_derives (hs ▸ difference) (by decide)

end Fluxion.Formula
