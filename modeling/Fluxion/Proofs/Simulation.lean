import Fluxion.Proofs.Replacement

/-! Reading by setting parts aside agrees with reading from left to right. Every match is
replaced without a change of value, tier by tier, and in the end a single operand is left. -/
namespace Fluxion

namespace BinaryOp

variable {op op' : BinaryOp}

theorem negation_mem_above (op : BinaryOp) (h : op.level ≤ 2) :
    Formula.Tier.negation ∈ op.tier.above := by
  cases op with
  | power => exact absurd h (by decide)
  | _ => decide

theorem tier_ne_negation (op : BinaryOp) : op.tier ≠ .negation := by
  cases op <;> decide

theorem symbol_ne_power (op : BinaryOp) (h : op.level ≤ 2) :
    Formula.Token.char op.symbol ≠ .char '^' := by
  cases op with
  | power => exact absurd h (by decide)
  | _ => simp [symbol]

theorem tier_mem_above (h : op.level ≤ op'.level) :
    op'.tier = op.tier ∨ op'.tier ∈ op.tier.above := by
  cases op <;> cases op' <;> first | decide | (exact absurd h (by decide))

end BinaryOp

namespace Formula

theorem Token.level_le (t : Token) : t.level ≤ 3 := by
  cases t with
  | ref i a => simp [level]
  | char c =>
    rw [level]
    cases BinaryOp.ofSymbol? c with
    | none => decide
    | some op => cases op <;> decide

theorem Token.level_le_two {t : Token} (h : t ≠ .char '^') : t.level ≤ 2 := by
  cases t with
  | ref i a => simp [level]
  | char c =>
    rw [level]
    cases hs : BinaryOp.ofSymbol? c with
    | none => decide
    | some op =>
      cases op with
      | power => exact absurd (congrArg Token.char (BinaryOp.symbol_of_ofSymbol? hs).symm) h
      | _ => decide

theorem Fragment.Operand.cons {c : Token} {a : Fragment} (h : a.Operand)
    (hc : ∀ t ∈ a.head?, c.prolongs t = true) : Operand (c :: a) := by
  cases h with
  | @name cs hn ha =>
    obtain ⟨d,ds,rfl⟩ := List.exists_cons_of_ne_nil hn
    have hd := ha d (by simp)
    have hp := hc (.char d) rfl
    simp only [Token.prolongs,Token.isLetter_char,Token.isDigit_char,hd,
      not_isDigit_of_isAlpha hd,Bool.and_true,Bool.and_false,Bool.or_false] at hp
    cases c with
    | ref i b => cases hp
    | char c =>
      have ho := Operand.name (List.cons_ne_nil c (d :: ds)) (List.forall_mem_cons.mpr ⟨hp,ha⟩)
      exact ho
  | @number cs hn ha =>
    obtain ⟨d,ds,rfl⟩ := List.exists_cons_of_ne_nil hn
    have hd := ha d (by simp)
    have hl : d.isAlpha = false := Token.not_isLetter_of_isDigit (t := .char d) hd
    have hp := hc (.char d) rfl
    simp only [Token.prolongs,Token.isLetter_char,Token.isDigit_char,hd,hl,Bool.and_true,
      Bool.and_false,Bool.false_or] at hp
    cases c with
    | ref i b => cases hp
    | char c =>
      have ho := Operand.number (List.cons_ne_nil c (d :: ds)) (List.forall_mem_cons.mpr ⟨hp,ha⟩)
      exact ho
  | reference i b =>
    have hp := hc _ rfl
    simp [Token.prolongs,Token.isLetter,Token.isDigit] at hp

theorem Scan.takes_of_single {ps : List Pending} {x : Char} {w : Fragment} {v : Option Expr}
    (hf : w.Flat)
    (h : (follow (step .implicit) ⟨ps, some (.name [x])⟩ w).bind (finish .implicit) = some v) :
    ∀ t ∈ w.head?, (Factor.name [x]).takes t = false := by
  intro t ht
  by_contra htake
  have hl : t.isLetter = true := by simpa [Factor.takes] using htake
  obtain ⟨c,rfl,hc⟩ := Token.exists_char_of_isLetter hl
  obtain ⟨rest,rfl⟩ : ∃ rest, w = .char c :: rest := by
    cases w with
    | nil => cases ht
    | cons y rest => cases ht; exact ⟨rest,rfl⟩
  obtain ⟨s,hr,hfin⟩ := Option.bind_eq_some_iff.mp h
  have hstep : follow (Scan.step .implicit) ⟨ps, some (.name [x])⟩ [.char c] =
      some ⟨ps, some (.name ([x] ++ [c]))⟩ :=
    run_letters .implicit ps [x] (List.forall_mem_singleton.mpr hc)
  rw [show Token.char c :: rest = [Token.char c] ++ rest from rfl,follow_append,hstep,
    Option.bind_some] at hr
  rw [finish_of_long (by simp) (fun t ht => hf t (by simp [ht])) hr] at hfin
  cases hfin

namespace Tier.First

variable {style : Style} {R : Expr → Expr → Prop} {text : Fragment} {v : Option Expr}
  {tier : Tier} {site : Site} {a b w : Fragment} {ps : List Pending}

theorem pattern_eq_none (hs : First text tier site) {higher : Tier}
    (hh : higher = tier ∨ higher ∈ tier.above) (hn : higher ≠ .negation) {u w : Fragment}
    (ht : text = u ++ w) (hu : u.length < site.before.length) : higher.pattern w = none := by
  have hm : higher.match? u.getLast? w = none := by
    rcases hh with rfl | hh
    · exact hs.left u w ht hu
    · exact hs.above _ hh u w ht
  cases higher with
  | negation => exact absurd rfl hn
  | _ => exact hm

theorem not_operation (hs : First text tier site) {op : BinaryOp}
    (hop : op.tier = tier ∨ op.tier ∈ tier.above) {u : Fragment} {c t : Token}
    (hc : c.isOperand = true) (ht : t.isOperand = true)
    (htext : text = u ++ ([c] ++ .char op.symbol :: t :: w))
    (hu : u.length < site.before.length) : False :=
  operation_ne_none op (.singleton hc) ht w
    (hs.pattern_eq_none hop op.tier_ne_negation htext hu)

section Beginning

variable {u : Fragment} {c : Token}

theorem not_prolongs (hs : First text tier site) (hn : tier ≠ .negation) (ha : a.Operand)
    (hlong : ∀ c, Fragment.Operand (c :: a) →
      tier.pattern (c :: (site.matched ++ site.after)) ≠ none)
    (hb : site.before = u ++ [c]) : ∀ x ∈ a.head?, c.prolongs x = false := by
  intro x hx
  by_contra hp
  have hca := ha.cons (c := c) fun y hy => by
    rw [Option.mem_unique hy hx]
    simpa using hp
  refine hlong c hca (hs.pattern_eq_none (.inl rfl) hn (u := u) ?_ (by simp [hb]))
  simp [hs.cut,hb]

theorem operation_not_prolongs (hs : First text tier site) {op : BinaryOp} (htier : op.tier = tier)
    (hm : site.matched = a ++ .char op.symbol :: b) (ha : a.Operand) (hb : b.Operand) :
    site.before = u ++ [c] → ∀ x ∈ a.head?, c.prolongs x = false := by
  subst htier
  refine hs.not_prolongs op.tier_ne_negation ha fun d hd => ?_
  obtain ⟨t,b,rfl⟩ := List.exists_cons_of_ne_nil hb.ne_nil
  simpa [hm] using operation_ne_none op hd (hb.isOperand t (by simp)) (b ++ site.after)

theorem reference_not_prolongs (hs : First text .product site) {i : Nat} {content : Fragment}
    (hm : site.matched = a ++ [.ref i content]) (ha : a.Operand) :
    site.before = u ++ [c] → ∀ x ∈ a.head?, c.prolongs x = false := by
  refine hs.not_prolongs (by decide) ha fun d hd => ?_
  simpa [pattern,hm] using reference_ne_none hd i content site.after

theorem coefficient_not_prolongs (hs : First text .coefficient site) {t : Token}
    (hm : site.matched = a ++ [t]) (ha : a.Operand) (hn : ∀ x ∈ a, x.isLetter = false)
    (ht : t.isLetter = true) : site.before = u ++ [c] → ∀ x ∈ a.head?, c.prolongs x = false := by
  refine hs.not_prolongs (by decide) ha fun d hd => ?_
  have hdn := hd.not_isLetter_of_cons ha.ne_nil hn
  simpa [pattern,hm] using coefficient_ne_none hd hdn ht site.after

end Beginning

/-- In front of a match waits nothing that would have matched before. -/
theorem level_lt (hs : First text tier site) (hc : Scan.Context site.before ps)
    (ht : site.matched ++ site.after = a ++ w) (ha : a.Operand) {k : Nat}
    (hneg : k ≤ 2 → Tier.negation ∈ tier.above ∧ ∀ t ∈ w.head?, t ≠ .char '^')
    (hop : ∀ op : BinaryOp, k ≤ op.level → op.tier = tier ∨ op.tier ∈ tier.above) :
    ∀ p ∈ ps.head?, p.level < k := by
  have hcut := hs.cut
  rw [ht] at hcut
  refine hc.level_lt (fun u hb hu => ?_) (fun op u c hb hc => ?_)
  · by_contra hk
    obtain ⟨habove,hpow⟩ := hneg (Nat.not_lt.mp hk)
    exact (hs.above _ habove).not_minus hu ha hpow (by simp [hcut,hb])
  · by_contra hk
    obtain ⟨t,a',rfl⟩ := List.exists_cons_of_ne_nil ha.ne_nil
    exact hs.not_operation (u := u) (w := a' ++ w) (hop op (Nat.not_lt.mp hk)) hc
      (ha.isOperand t (by simp)) (by simp [hcut,hb]) (by simp [hb])

/-- The text with a reference in the place of the match is read to a related value. -/
def Kept (R : Expr → Expr → Prop) (style : Style) (site : Site) (v : Option Expr) : Prop :=
  ∃ v', (site.replace (.ref 0 site.matched)).scan? style = some v' ∧ Option.Rel R v' v

/-- Behind the second operand of a match comes nothing that would have matched before. -/
theorem level_le_of_operation (hs : First text tier site) (h : text.scan? style = some v)
    (hf : text.Flat) {op : BinaryOp} (htier : op.tier = tier)
    (hm : site.matched = a ++ .char op.symbol :: b) (hb : b.Operand) (he : b.Ends site.after) :
    ∀ t ∈ site.after.head?, t.level ≤ op.level := by
  intro t ht
  obtain ⟨rest,hrest⟩ : ∃ rest, site.after = t :: rest := by
    cases hafter : site.after with
    | nil => rw [hafter] at ht; cases ht
    | cons x rest => rw [hafter] at ht; cases ht; exact ⟨rest,rfl⟩
  have hcut : text = (site.before ++ a ++ [.char op.symbol]) ++ (b ++ t :: rest) := by
    simp [hs.cut,hm,hrest]
  have gone : ∀ op' : BinaryOp, Tier.negation ∈ tier.above → Tier.power ∈ tier.above →
      op'.tier ∈ tier.above → t ≠ .char op'.symbol := by
    rintro op' hneg hpow hop rfl
    exact symbol_not_mem h hf (hs.above _ hneg) (hs.above _ hpow) (hs.above _ hop) (by simp [hcut])
  subst htier
  have product : Tier.power ∈ op.tier.above → Tier.negation ∈ op.tier.above → t.level ≤ 2 :=
    fun hpow hneg => Token.level_le_two (gone .power hneg hpow hpow)
  have sum : op.tier = .sum → t.level ≤ 1 := by
    intro ho
    rw [ho] at gone
    rw [hrest] at he
    rcases next_of_operand h hf hcut hb he with hx | hx | ⟨op',rfl⟩
    · rw [not_isReference_of_nowhere (hs.above .product (by rw [ho]; decide)) hcut hb] at hx
      cases hx
    · rw [not_isLetter_of_nowhere (hs.above .coefficient (by rw [ho]; decide)) hcut hb he] at hx
      cases hx
    · have hop := fun hop => gone op' (by decide) (by decide) hop rfl
      cases op' with
      | plus => exact le_refl 1
      | minus => exact le_refl 1
      | times => exact absurd (by decide) hop
      | divide => exact absurd (by decide) hop
      | power => exact absurd (by decide) hop
  cases op with
  | plus => exact sum rfl
  | minus => exact sum rfl
  | times => exact product (by decide) (by decide)
  | divide => exact product (by decide) (by decide)
  | power => exact t.level_le

theorem tier_ne_sum (hs : First text tier site) {u : Fragment} {c t : Token}
    (hbefore : site.before = u ++ [c]) (hc : c.isOperand = true) (hp : c.prolongs t = false)
    (hm : site.matched = t :: w) (ht : t.isOperand = true) (hd : t.isDigit = false) :
    tier ≠ .sum := by
  rintro rfl
  have hcut : text = u ++ ([c] ++ t :: (w ++ site.after)) := by
    simp [hs.cut,hm,hbefore]
  have hends : Fragment.Ends [c] (t :: (w ++ site.after)) := by
    intro x hx y hy
    cases hx
    cases hy
    exact hp
  have href := not_isReference_of_nowhere (hs.above .product (by decide)) hcut (.singleton hc)
  have hlet := not_isLetter_of_nowhere (hs.above .coefficient (by decide)) hcut (.singleton hc) hends
  simp [Token.isOperand,href,hlet,hd] at ht

/-- The value of an operation covers its second operand with the operation waiting. -/
theorem covers_operation (hs : First text tier site) (hR : Expr.Regrouping style R) {op : BinaryOp}
    (htier : op.tier = tier) {t : Token} (hm : site.matched = (t :: a) ++ .char op.symbol :: b)
    (ha : Fragment.Operand (t :: a)) (hbeg : Begins style site.before t ps) (f g : Factor) :
    Covers R op.level ps (Expr.join? op f.value? g.value?)
      (.operation op (settle op.level ps f).2.value? :: (settle op.level ps f).1) g := by
  cases hbeg with
  | expected hc =>
    have hcut : site.matched ++ site.after = (t :: a) ++ .char op.symbol :: (b ++ site.after) := by
      simp [hm]
    refine .of_head hR.toCongruence (hs.level_lt hc hcut ha ?_ ?_) f g
    · intro hk
      subst htier
      refine ⟨op.negation_mem_above hk,fun t ht => ?_⟩
      cases ht
      exact op.symbol_ne_power hk
    · intro op' hk
      subst htier
      exact BinaryOp.tier_mem_above hk
  | juxtaposed hi hbefore hc hp hd x hl =>
    have hsum : op.tier ≠ .sum := htier ▸ hs.tier_ne_sum hbefore hc hp (w := a ++ _)
      (by rw [hm]; rfl) (ha.isOperand t (by simp)) hd
    cases op with
    | plus => exact absurd rfl hsum
    | minus => exact absurd rfl hsum
    | times => exact .regrouped hR hi rfl hl x f g
    | divide => exact .regrouped hR hi rfl hl x f g
    | power =>
      refine .of_head hR.toCongruence (fun p hp => ?_) f g
      cases hp
      exact (by decide : 2 < BinaryOp.power.level)

theorem kept_operation (hs : First text tier site) (h : text.scan? style = some v)
    (hf : text.Flat) (hR : Expr.Regrouping style R) {op : BinaryOp} (htier : op.tier = tier)
    (hm : site.matched = a ++ .char op.symbol :: b) (ha : a.Operand) (hb : b.Operand)
    (he : b.Ends site.after) : Kept R style site v := by
  obtain ⟨f,hfa⟩ := ha.reads
  obtain ⟨g,hgb⟩ := hb.reads
  obtain ⟨t,a',rfl⟩ := List.exists_cons_of_ne_nil ha.ne_nil
  have hto := ha.isOperand t (by simp)
  have hleft : ∀ u c, site.before = u ++ [c] → c.isOperand = true → c.prolongs t = false :=
    fun u c hbefore _ => hs.operation_not_prolongs htier hm ha hb hbefore t rfl
  obtain ⟨ps,hbeg,hrun,hrep⟩ := hs.begins h hf (w := a' ++ .char op.symbol :: b) hm hto hleft
  have hval : site.matched.assembled? = Expr.join? op f.value? g.value? := by
    rw [hm,Fragment.assembled?_operation op ha hb,hfa.value,hgb.value]
  have hcover := hs.covers_operation hR htier hm ha hbeg f g
  rw [Kept,hrep,hval]
  rw [hm] at hrun
  exact hcover.run hR.toCongruence op.level_pos (fun t ht => hf t (by simp [hs.cut,ht]))
    (fun t ht => ⟨hgb.ends he t ht,hs.level_le_of_operation h hf htier hm hb he t ht⟩)
    (run_operation hfa hgb hrun)

theorem kept_juxtaposition (hs : First text tier site) (h : text.scan? style = some v)
    (hf : text.Flat) (hR : Expr.Regrouping style R) {t : Token} {g : Factor}
    (hm : site.matched = a ++ [t]) (ha : a.Operand) (hg : Reads [t] g)
    (ht : t.isReference = true ∨ t.isLetter = true) (he : a.Ends [t])
    (hneg : Tier.negation ∈ tier.above) (hpow : Tier.power ∈ tier.above)
    (hop : ∀ op : BinaryOp, 2 ≤ op.level → op.tier = tier ∨ op.tier ∈ tier.above)
    (hleft : ∀ u c, site.before = u ++ [c] → ∀ x ∈ a.head?, c.prolongs x = false)
    (htakes : ∀ qs,
      (follow (Scan.step .implicit) ⟨qs, some g⟩ site.after).bind (Scan.finish .implicit) =
      some v → ∀ u ∈ site.after.head?, g.takes u = false) : Kept R style site v := by
  obtain ⟨f,hfa⟩ := ha.reads
  obtain ⟨x,a',rfl⟩ := List.exists_cons_of_ne_nil ha.ne_nil
  have hd : t.isDigit = false := by
    rcases ht with ht | ht
    · cases t with
      | char c => cases ht
      | ref i content => rfl
    · exact Token.not_isDigit_of_isLetter ht
  have ho : t.isOperand = true := Token.isOperand_of_second ht
  obtain ⟨ps,hbeg,hrun,hrep⟩ := hs.begins h hf (w := a' ++ [t]) hm (ha.isOperand x (by simp))
    (fun u c hb _ => hleft u c hb x rfl)
  have hnext : ∀ y ∈ (t :: site.after).head?, y ≠ .char '^' := by
    rintro y hy rfl
    cases hy
    simp [Token.isOperand_char] at ho
  rw [hm] at hrun
  obtain ⟨hi,hw,hrun⟩ := run_juxtaposition hfa hg ho hd he hrun
  have hval : site.matched.assembled? = Expr.join? .times f.value? g.value? := by
    rw [hm,Fragment.assembled?_juxtaposition ha (hfa.whole hw) ht he,hfa.value,hg.value]
  have hcover : Covers R 2 ps (Expr.join? .times f.value? g.value?)
      (.operation .times (settle 2 ps f).2.value? :: (settle 2 ps f).1) g := by
    cases hbeg with
    | expected hc =>
      have hlt := hs.level_lt (w := t :: site.after) hc (by simp [hm]) ha (fun _ => ⟨hneg,hnext⟩) hop
      exact @Covers.of_head R .times ps hR.toCongruence hlt f g
    | juxtaposed hi _ _ _ _ y hl => exact @Covers.regrouped _ R .times _ hR hi rfl hl y f g
  have hpower : .char '^' ∉ text :=
    @symbol_not_mem _ _ _ h hf (hs.above _ hneg) (hs.above _ hpow) .power (hs.above _ hpow)
  rw [Kept,hrep,hval]
  subst hi
  refine hcover.run hR.toCongruence (by decide) (fun t ht => hf t (by simp [hs.cut,ht])) ?_ hrun
  refine fun u hu => ⟨htakes _ hrun u hu,Token.level_le_two ?_⟩
  rintro rfl
  refine hpower ?_
  rw [hs.cut]
  exact List.mem_append_right _ (List.mem_append_right _ (List.mem_of_mem_head? hu))

theorem minus_expected (hs : First text .negation site) (h : text.scan? style = some v)
    (hf : text.Flat) (hm : site.matched = .char '-' :: a) :
    ∃ ps,
      (follow (Scan.step style) ⟨.minus :: ps, none⟩ (a ++ site.after)).bind (Scan.finish style) =
        some v ∧
      ∀ i, (site.replace (.ref i site.matched)).scan? style =
        (follow (Scan.step style) ⟨ps, some (.value site.matched.assembled?)⟩ site.after).bind
          (Scan.finish style) := by
  obtain ⟨⟨ps,x⟩,s',hr,hw,hfin⟩ := Fragment.scan?_split h hs.cut
  have hfb : Fragment.Flat site.before := fun t hm => hf t (by simp [hs.cut,hm])
  have hsome := Scan.isSome_factor_run hr hfb
  have hop : Fragment.endsOperand site.before = false := by
    rw [Fragment.endsOperand]
    cases hlast : site.before.getLast? with
    | none => rfl
    | some t => exact Token.not_isOperand_of_isOperator (hs.isOperator_of_negation t hlast)
  rw [hop] at hsome
  cases x with
  | some f => cases hsome
  | none =>
    rw [hm] at hw
    refine ⟨ps,?_,fun i => ?_⟩
    · rw [show follow (Scan.step style) ⟨.minus :: ps, none⟩ (a ++ site.after) = some s' from hw]
      exact hfin
    · rw [Fragment.scan?,Site.replace,follow_append,hr]
      rfl

theorem kept_negation (hs : First text .negation site) (h : text.scan? style = some v)
    (hf : text.Flat) (hR : Expr.Regrouping style R) (hm : site.matched = .char '-' :: a)
    (ha : a.Operand) (he : a.Ends site.after) (hp : ∀ t ∈ site.after.head?, t ≠ .char '^') :
    Kept R style site v := by
  obtain ⟨f,hfa⟩ := ha.reads
  obtain ⟨ps,hrun,hrep⟩ := hs.minus_expected h hf hm
  rw [follow_append,hfa.run,Option.bind_some] at hrun
  have hsettle : ∀ {j}, j ≤ 2 → settle j (.minus :: ps) f = settle j ps (.value f.negated?) :=
    fun hj => settle_cons_of_le (p := .minus) hj ps f
  have hcover : Covers R 2 ps f.negated? (.minus :: ps) f := by
    constructor
    · intro j hj
      rw [hsettle hj]
      exact List.forall₂_same.mpr fun p _ => .refl hR.toCongruence p
    · intro j hj
      rw [hsettle hj]
      exact .refl hR.toCongruence _
  rw [Kept,hrep,hm,← hfa.negated]
  exact hcover.run hR.toCongruence (by decide) (fun t ht => hf t (by simp [hs.cut,ht]))
    (fun t ht => ⟨hfa.ends he t ht,Token.level_le_two (hp t ht)⟩) hrun

theorem not_cut (hs : First text .negation site) (h : text.scan? style = some v)
    (hf : text.Flat) {x : Token} (hm : site.matched = .char '-' :: a) (hn : a ≠ [])
    (ha : Fragment.Operand (a ++ [x])) : site.after ≠ x :: .char '^' :: w := by
  intro hafter
  obtain ⟨f,hfa⟩ := ha.reads
  obtain ⟨ps,hrun,-⟩ := hs.minus_expected h hf hm
  have hlong : f.isLong = true := by
    refine hfa.long ?_
    have hl := List.length_pos_iff.mpr hn
    rw [List.length_append,List.length_singleton]
    omega
  rw [hafter,show a ++ x :: .char '^' :: w = (a ++ [x]) ++ .char '^' :: w by simp,
    follow_append,hfa.run,Option.bind_some,follow_cons,Scan.step_some] at hrun
  obtain ⟨s,hs,-⟩ := Option.bind_eq_some_iff.mp hrun
  obtain ⟨m,hm,-⟩ := Option.bind_eq_some_iff.mp hs
  have hm : Scan.operate style (.minus :: ps) f .power = some m := hm
  exact (Scan.operate_eq_some hm).2.2 ⟨rfl,hlong,rfl⟩

/-- What a group or a call is read to does not depend on what is around it. -/
theorem kept_close (hR : Expr.Congruence R) {s s' : Scan}
    (head : Fragment) (log : Bool) {inner : Fragment} (hm : site.matched = head ++ (inner ++ [.char ')']))
    (hf : inner.Flat) (hval : site.matched.assembled? =
      if log then inner.parsed?.map .ln else inner.parsed?)
    (ih : ∀ v, inner.scan? style = some v → Option.Rel R inner.parsed? v)
    (hr : follow (Scan.step style) Scan.init site.before = some s)
    (hw : follow (Scan.step style) s (site.matched ++ site.after) = some s')
    (hfin : s'.finish style = some v)
    (hopen : ∀ m, follow (Scan.step style) s head = some m → ∃ qs, m = ⟨.group log :: qs, none⟩ ∧
      ∀ (i : Nat) (content : Fragment),
        s.step style (.ref i content) = some ⟨qs, some (.value content.assembled?)⟩) :
    Kept R style site v := by
  rw [hm,List.append_assoc] at hw
  obtain ⟨m,hhead,hw⟩ := follow_append_eq_some hw
  obtain ⟨n,hinner,hw⟩ := follow_append_eq_some hw
  obtain ⟨qs,rfl,href⟩ := hopen m hhead
  obtain ⟨x,hx,rfl⟩ := Fragment.scan?_of_close hf hinner
  have hl : Scan.Like R ⟨qs, some (.value site.matched.assembled?)⟩
      ⟨qs, some (.value (if log then x.map .ln else x))⟩ := by
    refine ⟨List.forall₂_same.mpr fun p _ => .refl hR p,.some (.value ?_)⟩
    rw [hval]
    cases log with
    | false => exact ih x hx
    | true => exact rel_map hR.ln (ih x hx)
  obtain ⟨v',hv',hrel⟩ := rel_finish_run hR hl hw hfin
  refine ⟨v',?_,hrel⟩
  rw [Fragment.scan?,Site.replace,follow_append,hr,Option.bind_some,follow_cons,href]
  exact hv'

theorem kept_group (hs : First text .group site) (h : text.scan? style = some v)
    (hR : Expr.Congruence R) {inner : Fragment}
    (hm : site.matched = .char '(' :: inner ++ [.char ')']) (hf : inner.Flat)
    (ih : ∀ v, inner.scan? style = some v → Option.Rel R inner.parsed? v) :
    Kept R style site v := by
  obtain ⟨s,s',hr,hw,hfin⟩ := Fragment.scan?_split h hs.cut
  refine kept_close hR [.char '('] false hm hf ?_ ih hr hw hfin ?_
  · rw [hm,Fragment.assembled?_group hf]
    rfl
  · intro m hhead
    obtain ⟨m',hstep,he⟩ := Option.bind_eq_some_iff.mp hhead
    cases he
    refine Scan.step_group hstep fun f hfac => ?_
    by_contra hcall
    obtain ⟨front,rfl⟩ := Factor.beforeCall?_ne_none hcall
    obtain ⟨-,-,u,hu⟩ := Scan.endOf_init hr _ hfac
    have hn := hs.above .logarithm (by decide) (u ++ front.map .char)
      (.char 'l' :: .char 'n' :: (.char '(' :: inner ++ .char ')' :: site.after))
      (by simp [hs.cut,hm,← hu])
    exact logarithm_ne_none hf site.after hn

theorem kept_logarithm (hs : First text .logarithm site) (h : text.scan? style = some v)
    (hR : Expr.Congruence R) {inner : Fragment}
    (hm : site.matched = .char 'l' :: .char 'n' :: .char '(' :: inner ++ [.char ')'])
    (hf : inner.Flat) (ih : ∀ v, inner.scan? style = some v → Option.Rel R inner.parsed? v) :
    Kept R style site v := by
  obtain ⟨s,s',hr,hw,hfin⟩ := Fragment.scan?_split h hs.cut
  refine kept_close hR [.char 'l', .char 'n', .char '('] true hm hf ?_ ih hr hw hfin ?_
  · rw [hm,Fragment.assembled?_logarithm hf]
    rfl
  · intro m hhead
    exact Scan.run_call hhead (Scan.endOf_init hr)

/-- A text with a match has the same value with a reference in its place. -/
theorem kept (hs : First text tier site) (h : text.scan? style = some v)
    (hR : Expr.Regrouping style R)
    (ih : ∀ part : Fragment, part.length < text.length → ∀ v, part.scan? style = some v →
      Option.Rel R part.parsed? v) : Kept R style site v := by
  obtain ⟨before,matched,after⟩ := site
  have hlen := congrArg List.length hs.cut
  have hm : tier.Match matched after := hs.match
  have hflat : Tier.group ∈ tier.above → text.Flat := fun hg =>
    Fragment.flat_of_nowhere h (hs.above _ hg)
  cases hm with
  | logarithm hf =>
    refine hs.kept_logarithm h hR.toCongruence rfl hf (ih _ ?_)
    simp at hlen
    omega
  | group hf =>
    refine hs.kept_group h hR.toCongruence rfl hf (ih _ ?_)
    simp at hlen
    omega
  | negation ha he hp => exact hs.kept_negation h (hflat (by decide)) hR rfl ha he hp
  | cut hn ha w => exact absurd rfl (hs.not_cut h (hflat (by decide)) rfl hn ha)
  | operation op ha hb he =>
    exact hs.kept_operation h (hflat (by cases op <;> decide)) hR rfl rfl ha hb he
  | @reference a ha i content =>
    refine hs.kept_juxtaposition h (hflat (by decide)) hR rfl ha (reads_reference i content)
      (.inl rfl) (a.ends_ref i content []) (by decide) (by decide) ?_
      (fun _ _ => hs.reference_not_prolongs rfl ha) fun _ _ _ _ => rfl
    intro op hop
    cases op <;> first | decide | (exact absurd hop (by decide))
  | @coefficient a x ha hn hx =>
    have hf := hflat (by decide)
    obtain ⟨x,rfl,hc⟩ := Token.exists_char_of_isLetter hx
    have hread : Reads ([x].map .char) (.name [x]) :=
      reads_name (by simp) (List.forall_mem_singleton.mpr hc)
    refine hs.kept_juxtaposition h hf hR rfl ha hread (.inr hx)
      (Fragment.ends_letter hn hx []) (by decide) (by decide) ?_
      (fun _ _ => hs.coefficient_not_prolongs rfl ha hn hx)
      fun qs hrun => Scan.takes_of_single (fun t ht => hf t (by simp [hs.cut,ht])) hrun
    intro op hop
    cases op <;> first | decide | (exact absurd hop (by decide))

end Tier.First

theorem Fragment.rel_parsed? {style : Style} {R : Expr → Expr → Prop}
    (hR : Expr.Regrouping style R) {text : Fragment} {v : Option Expr}
    (h : text.scan? style = some v) : Option.Rel R text.parsed? v := by
  induction hn : text.length using Nat.strongRecOn generalizing text v with
  | ind n ih =>
    cases hfirst : Tier.first? text with
    | none =>
      obtain ⟨f,hf⟩ := (operand_of_nowhere h (Tier.nowhere_of_first? hfirst)).reads
      rw [parsed?_of_none hfirst,← hf.value]
      rw [scan?,Scan.init,hf.run,Option.bind_some] at h
      obtain ⟨g,g',hg,-,hs,rfl⟩ := Scan.finish_eq_some h
      cases hg
      cases hs
      exact rel_refl hR.toCongruence _
    | some r =>
      obtain ⟨tier,site⟩ := r
      obtain ⟨v',hv',hrel⟩ := (Tier.first_of_first? hfirst).kept h hR fun part hp v hv =>
        ih _ (hn ▸ hp) hv rfl
      rw [parsed?_of_some hfirst 0]
      exact rel_trans (R := R) hR.trans (ih _ (hn ▸ Tier.length_replace_lt hfirst _) hv' rfl) hrel

theorem Fragment.parsed?_of_scan? {text : Fragment} {v : Option Expr}
    (h : text.scan? .explicit = some v) : text.parsed? = v :=
  rel_eq_iff.mp (rel_parsed? Expr.regrouping_eq h)

end Formula
end Fluxion
