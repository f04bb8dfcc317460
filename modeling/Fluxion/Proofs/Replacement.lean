import Fluxion.Proofs.Cover

/-! A match in a text that can be read, and a reference in its place. Where operations
match, nothing that binds as tightly waits in front of them or comes after them, so
completing them first changes nothing but the order in which products are taken. -/
namespace Fluxion.Formula

/-- Where a match begins: an operand is expected, or the sign of a product is left out. -/
inductive Begins (style : Style) (before : Fragment) (t : Token) : List Pending → Prop
  | expected {ps : List Pending} (h : Scan.Context before ps) : Begins style before t ps
  | juxtaposed (hs : style = .implicit) {u : Fragment} {c : Token} (hb : before = u ++ [c])
    (hc : c.isOperand = true) (hp : c.prolongs t = false) (hd : t.isDigit = false)
    (x : Option Expr) {ps : List Pending} (hl : ∀ p ∈ ps.head?, p.level < 2) :
    Begins style before t (.operation .times x :: ps)

section Begins

variable {style : Style} {before : Fragment} {t : Token} {s m : Scan}

theorem exists_begins (h : follow (Scan.step style) Scan.init before = some s) (hf : before.Flat)
    (ho : t.isOperand = true) (hm : s.step style t = some m)
    (hleft : ∀ u c, before = u ++ [c] → c.isOperand = true → c.prolongs t = false) :
    ∃ ps, Begins style before t ps ∧ Scan.start ps t = some m ∧
      ∀ (i : Nat) (content : Fragment),
        s.step style (.ref i content) = some ⟨ps, some (.value content.assembled?)⟩ := by
  obtain ⟨ps,x⟩ := s
  cases x with
  | none => exact ⟨ps,.expected (Scan.context_of_run h hf rfl),hm,fun _ _ => rfl⟩
  | some f =>
    have hp := Token.not_isParenthesis_of_isOperand ho
    rcases Scan.next_eq_some hm hp with ⟨hk,-⟩ | ⟨-,hd,-,n,hj,hs⟩ | ⟨op,rfl,-⟩
    · obtain ⟨u,c,hb,hpro,hc⟩ := Scan.exists_prolongs (Scan.endOf_init h f rfl) hk
      rw [hleft u c hb hc] at hpro
      cases hpro
    · obtain ⟨u,c,hb,hc⟩ := Fragment.eq_concat_of_endsOperand (Scan.isSome_factor_run h hf).symm
      have href : ∀ (i : Nat) (content : Fragment), Scan.step style ⟨ps, some f⟩ (.ref i content) =
          some ⟨n.pending, some (.value content.assembled?)⟩ := by
        intro i content
        rw [Scan.step_ref,hj]
        rfl
      obtain ⟨hi,rfl,-⟩ := Scan.juxtapose_eq_some hj
      exact ⟨_,.juxtaposed hi hb hc (hleft u c hb hc) hd _ (level_head_settle ps f),hs,href⟩
    · rw [Scan.not_isOperand_symbol] at ho
      cases ho

end Begins

namespace Tier.First

variable {style : Style} {text : Fragment} {v : Option Expr} {tier : Tier} {site : Site}

/-- A text with a match at an operand, read up to the match, and with a reference there. -/
theorem begins (hs : First text tier site) (h : text.scan? style = some v) (hf : text.Flat)
    {t : Token} {w : Fragment} (ht : site.matched = t :: w) (ho : t.isOperand = true)
    (hleft : ∀ u c, site.before = u ++ [c] → c.isOperand = true → c.prolongs t = false) :
    ∃ ps, Begins style site.before t ps ∧
      (follow (Scan.step style) ⟨ps, none⟩ (site.matched ++ site.after)).bind (Scan.finish style) =
        some v ∧
      ∀ i, (site.replace (.ref i site.matched)).scan? style =
        (follow (Scan.step style) ⟨ps, some (.value site.matched.assembled?)⟩ site.after).bind
          (Scan.finish style) := by
  obtain ⟨s,s',hr,hw,hfin⟩ := Fragment.scan?_split h hs.cut
  rw [ht,List.cons_append,follow_cons] at hw
  obtain ⟨m,hm,hw⟩ := Option.bind_eq_some_iff.mp hw
  have hfb : Fragment.Flat site.before := fun t hm => hf t (by simp [hs.cut,hm])
  obtain ⟨ps,he,hst,href⟩ := exists_begins hr hfb ho hm hleft
  refine ⟨ps,he,?_,fun i => ?_⟩
  · rw [ht,List.cons_append,follow_cons,Scan.step_none,hst,Option.bind_some,hw]
    exact hfin
  · rw [Fragment.scan?,Site.replace,follow_append,hr,Option.bind_some,follow_cons,href]
    rfl

end Tier.First

theorem Scan.Context.level_lt {before : Fragment} {ps : List Pending} {k : Nat}
    (hc : Context before ps)
    (hminus : ∀ u, before = u ++ [.char '-'] → (∀ t ∈ u.getLast?, t.isOperator = true) → 2 < k)
    (hop : ∀ (op : BinaryOp) u c, before = u ++ [c] ++ [.char op.symbol] → c.isOperand = true →
      op.level < k) :
    ∀ p ∈ ps.head?, p.level < k := by
  cases hc with
  | start => simp
  | minus hu ps =>
    intro p hp
    cases hp
    exact hminus _ rfl hu
  | operation op u hc x _ =>
    intro p hp
    cases hp
    exact hop op u _ rfl hc

namespace Covers

variable {style : Style} {R : Expr → Expr → Prop} {op : BinaryOp} {ps : List Pending}

theorem of_head (hR : Expr.Congruence R) (hp : ∀ p ∈ ps.head?, p.level < op.level)
    (f g : Factor) :
    Covers R op.level ps (Expr.join? op f.value? g.value?)
      (.operation op (settle op.level ps f).2.value? :: (settle op.level ps f).1) g := by
  have hs : ∀ {j}, j ≤ op.level → settle j (.operation op f.value? :: ps) g =
      settle j ps (.value (Expr.join? op f.value? g.value?)) := fun hj =>
    settle_cons_of_le (p := .operation op f.value?) hj ps g
  have hl : ∀ j, List.Forall₂ (Pending.Like R)
      (settle j ps (.value (Expr.join? op f.value? g.value?))).1
      (settle j ps (.value (Expr.join? op f.value? g.value?))).1 := fun j =>
    List.forall₂_same.mpr fun p _ => .refl hR p
  rw [settle_of_head hp]
  constructor
  · intro j hj
    rw [hs hj]
    exact hl j
  · intro j hj
    rw [hs hj]
    exact .refl hR _

theorem regrouped (hR : Expr.Regrouping style R) (hs : style = .implicit) (hop : op.level = 2)
    (hp : ∀ p ∈ ps.head?, p.level < 2) (x : Option Expr) (f g : Factor) :
    Covers R op.level (.operation .times x :: ps) (Expr.join? op f.value? g.value?)
      (.operation op (settle op.level (.operation .times x :: ps) f).2.value? ::
        (settle op.level (.operation .times x :: ps) f).1) g := by
  have hf : settle op.level (.operation .times x :: ps) f =
      (ps, .value (Expr.join? .times x f.value?)) := by
    rw [hop,settle_cons_of_le (p := .operation .times x) (le_refl 2),settle_of_head hp]
    rfl
  have hl : ∀ {j}, j ≤ op.level →
      settle j (.operation .times x :: ps) (.value (Expr.join? op f.value? g.value?)) =
        settle j ps (.value (Expr.join? .times x (Expr.join? op f.value? g.value?))) := fun hj =>
    settle_cons_of_le (p := .operation .times x) (hj.trans hop.le) ps _
  have hr : ∀ {j}, j ≤ op.level →
      settle j (.operation op (Expr.join? .times x f.value?) :: ps) g =
        settle j ps (.value (Expr.join? op (Expr.join? .times x f.value?) g.value?)) := fun hj =>
    settle_cons_of_le (p := .operation op _) hj ps g
  have hlike := fun j => settle_like hR.toCongruence j
    (List.forall₂_same.mpr fun p _ => .refl hR.toCongruence p : List.Forall₂ (Pending.Like R) ps ps)
    (.value (hR.join? hs hop x f.value? g.value?))
  rw [hf]
  constructor
  · intro j hj
    rw [hl hj,Factor.value?,hr hj]
    exact (hlike j).1
  · intro j hj
    rw [hl hj,Factor.value?,hr hj]
    exact (hlike j).2

end Covers

section Matches

variable {style : Style} {ps : List Pending} {a b after : Fragment} {f g : Factor}
  {v : Option Expr}

theorem run_operation (ha : Reads a f) (hb : Reads b g) {op : BinaryOp}
    (h : (follow (Scan.step style) ⟨ps, none⟩ (a ++ .char op.symbol :: b ++ after)).bind
      (Scan.finish style) = some v) :
    (follow (Scan.step style)
      ⟨.operation op (settle op.level ps f).2.value? :: (settle op.level ps f).1,
      some g⟩ after).bind (Scan.finish style) = some v := by
  rw [List.append_assoc,List.cons_append,follow_append,ha.run,Option.bind_some,follow_cons,
    Scan.step_some,Scan.next_sign] at h
  obtain ⟨s,hs,hfin⟩ := Option.bind_eq_some_iff.mp h
  obtain ⟨m,hm,hs⟩ := Option.bind_eq_some_iff.mp hs
  obtain ⟨rfl,-⟩ := Scan.operate_eq_some hm
  rw [follow_append,hb.run,Option.bind_some] at hs
  rw [hs]
  exact hfin

theorem run_juxtaposition (ha : Reads a f) {t : Token} (hb : Reads [t] g)
    (ho : t.isOperand = true) (hd : t.isDigit = false) (he : a.Ends [t])
    (h : (follow (Scan.step style) ⟨ps, none⟩ (a ++ [t] ++ after)).bind (Scan.finish style) =
      some v) :
    style = .implicit ∧ f.isWhole .implicit = true ∧
      (follow (Scan.step style) ⟨.operation .times (settle 2 ps f).2.value? :: (settle 2 ps f).1,
        some g⟩ after).bind (Scan.finish style) = some v := by
  rw [List.append_assoc,follow_append,ha.run,Option.bind_some,List.cons_append,List.nil_append,
    follow_cons,Scan.step_some,Scan.next_operand ho hd (ha.ends he t rfl)] at h
  obtain ⟨s,hs,hfin⟩ := Option.bind_eq_some_iff.mp h
  obtain ⟨m,hm,hs⟩ := Option.bind_eq_some_iff.mp hs
  obtain ⟨n,hn,hm⟩ := Option.bind_eq_some_iff.mp hm
  obtain ⟨rfl,rfl,hw⟩ := Scan.juxtapose_eq_some hn
  have hg := hb.run .implicit (.operation .times (settle 2 ps f).2.value? :: (settle 2 ps f).1)
  rw [follow_cons,Scan.step_none,hm,Option.bind_some,follow_nil] at hg
  cases hg
  rw [hs]
  exact ⟨rfl,hw,hfin⟩

end Matches

end Fluxion.Formula
