import Fluxion.Proofs.Stage

/-! Groups in a text and groups on the stack. A parenthesis that is closed has been opened
before, so a text that can be read and in which no group matches has no parentheses, and
the inside of a group is read as it would be on its own. -/
namespace Fluxion.Formula

/-- A group waits for its parenthesis. -/
def InGroup (ps : List Pending) : Prop := ∃ log, Pending.group log ∈ ps

theorem not_inGroup_nil : ¬InGroup [] := by
  rintro ⟨log,h⟩
  cases h

@[simp] theorem inGroup_group (log : Bool) (ps : List Pending) : InGroup (.group log :: ps) :=
  ⟨log,by simp⟩

theorem inGroup_cons {p : Pending} (h : p.level ≠ 0) (ps : List Pending) :
    InGroup (p :: ps) ↔ InGroup ps := by
  constructor
  · rintro ⟨log,hm⟩
    rcases List.mem_cons.mp hm with rfl | hm
    · exact absurd rfl h
    · exact ⟨log,hm⟩
  · rintro ⟨log,hm⟩
    exact ⟨log,List.mem_cons_of_mem _ hm⟩

theorem inGroup_settle {k : Nat} (hk : 0 < k) (ps : List Pending) (f : Factor) :
    InGroup (settle k ps f).1 ↔ InGroup ps := by
  induction ps generalizing f with
  | nil => rfl
  | cons p ps ih =>
    by_cases h : k ≤ p.level
    · rw [settle_cons_of_le h,ih,inGroup_cons (Nat.ne_of_gt (Nat.lt_of_lt_of_le hk h))]
    · rw [settle_cons_of_lt (Nat.not_le.mp h)]

namespace Scan

variable {style : Style} {ps : List Pending} {f : Factor} {s s' : Scan} {t : Token}

theorem inGroup_operate {op : BinaryOp} (h : operate style ps f op = some s) :
    InGroup s.pending ↔ InGroup ps := by
  rw [(operate_eq_some h).1]
  have hl : (Pending.operation op (settle op.level ps f).2.value?).level ≠ 0 :=
    Nat.ne_of_gt op.level_pos
  rw [inGroup_cons hl,inGroup_settle op.level_pos]

theorem inGroup_juxtapose (h : juxtapose style ps f = some s) :
    InGroup s.pending ↔ InGroup ps := by
  cases style with
  | explicit => cases h
  | implicit => exact inGroup_operate h

theorem inGroup_start (h : start ps t = some s) :
    InGroup s.pending ↔ InGroup ps ∨ t = .char '(' := by
  by_cases hp : t.isParenthesis = true
  · rcases Token.eq_of_isParenthesis hp with rfl | rfl
    · cases h
      simp
    · cases h
  · have hp : t.isParenthesis = false := by simpa using hp
    have ht : t ≠ .char '(' := by
      rintro rfl
      cases hp
    rcases start_eq_some h hp with ⟨-,rfl,-⟩ | ⟨-,rfl⟩
    · simp [ht]
    · simp [ht,inGroup_cons (p := .minus) (by decide)]

theorem openGroup_eq_some (h : openGroup style ps f = some s) :
    ∃ log qs, s = ⟨.group log :: qs, none⟩ := by
  unfold openGroup at h
  split at h
  · cases h
    exact ⟨_,_,rfl⟩
  · obtain ⟨m,-,rfl⟩ := Option.map_eq_some_iff.mp h
    exact ⟨_,_,rfl⟩
  · obtain ⟨m,-,rfl⟩ := Option.map_eq_some_iff.mp h
    exact ⟨_,_,rfl⟩

theorem inGroup_step (h : s.step style t = some s') (ht : t ≠ .char ')') :
    InGroup s'.pending ↔ InGroup s.pending ∨ t = .char '(' := by
  obtain ⟨ps,x⟩ := s
  cases x with
  | none => exact inGroup_start h
  | some f =>
    by_cases hp : t.isParenthesis = true
    · rcases Token.eq_of_isParenthesis hp with rfl | rfl
      · have ho : openGroup style ps f = some s' := h
        obtain ⟨log,qs,rfl⟩ := openGroup_eq_some ho
        simp
      · exact absurd rfl ht
    · have hp : t.isParenthesis = false := by simpa using hp
      rcases next_eq_some h hp with ⟨hk,hs,-⟩ | ⟨ho,-,-,m,hj,hs⟩ | ⟨op,rfl,ho⟩
      · have hq : t ≠ .char '(' := by
          rintro rfl
          cases hp
        rw [hs]
        simp [hq]
      · rw [inGroup_start hs,inGroup_juxtapose hj]
      · have hq : Token.char op.symbol ≠ .char '(' := by cases op <;> simp [BinaryOp.symbol]
        rw [inGroup_operate ho]
        simp [hq]

theorem inGroup_run {u : Fragment} (h : follow (Scan.step style) s u = some s')
    (hc : .char ')' ∉ u) :
    InGroup s'.pending ↔ InGroup s.pending ∨ .char '(' ∈ u := by
  induction u generalizing s with
  | nil =>
    cases h
    simp
  | cons t u ih =>
    rw [follow_cons] at h
    obtain ⟨m,hm,hr⟩ := Option.bind_eq_some_iff.mp h
    rw [ih hr (by simp_all),inGroup_step hm (by rintro rfl; simp at hc),List.mem_cons,or_assoc,
      eq_comm (a := t)]

end Scan

namespace Scan

variable {style : Style} {ps : List Pending} {f : Factor} {s s' : Scan} {t : Token}

theorem closeGroup_eq_some (h : closeGroup style ps f = some s) :
    ∃ log rest g, settle 1 ps f = (.group log :: rest, g) ∧ f.isWhole style = true ∧
      s = ⟨rest, some (.value ((Pending.group log).close g))⟩ := by
  unfold closeGroup at h
  split at h
  · rename_i log rest g hs
    split at h
    · rename_i hw
      cases h
      exact ⟨log,rest,g,hs,hw,rfl⟩
    · cases h
  · cases h

theorem step_close (h : s.step style (.char ')') = some s') :
    ∃ f, s.factor = some f ∧ closeGroup style s.pending f = some s' := by
  obtain ⟨ps,x⟩ := s
  cases x with
  | none => cases h
  | some f => exact ⟨f,rfl,h⟩

theorem inGroup_of_close (h : s.step style (.char ')') = some s') : InGroup s.pending := by
  obtain ⟨f,-,hc⟩ := step_close h
  obtain ⟨log,rest,g,hs,-⟩ := closeGroup_eq_some hc
  rw [← inGroup_settle Nat.one_pos s.pending f,hs]
  exact inGroup_group log rest

theorem finish_eq_some {v : Option Expr} (h : s.finish style = some v) :
    ∃ f g, s.factor = some f ∧ f.isWhole style = true ∧ settle 1 s.pending f = ([], g) ∧
      v = g.value? := by
  unfold finish at h
  split at h
  · cases h
  · rename_i f hf
    split at h
    · rename_i g hs
      split at h
      · rename_i hw
        cases h
        exact ⟨f,g,hf,hw,hs,rfl⟩
      · cases h
    · cases h

theorem not_inGroup_of_finish {v : Option Expr} (h : s.finish style = some v) :
    ¬InGroup s.pending := by
  obtain ⟨f,g,-,-,hs,-⟩ := finish_eq_some h
  rw [← inGroup_settle Nat.one_pos s.pending f,hs]
  exact not_inGroup_nil

end Scan

theorem Fragment.scan?_eq_some {style : Style} {text : Fragment} {v : Option Expr} :
    text.scan? style = some v ↔
      ∃ s, follow (Scan.step style) Scan.init text = some s ∧ s.finish style = some v :=
  Option.bind_eq_some_iff

theorem exists_last_append {α : Type} {a : α} {l : List α} (h : a ∈ l) :
    ∃ u v, l = u ++ a :: v ∧ a ∉ v := by
  obtain ⟨u,v,he,hn⟩ := List.eq_append_cons_of_mem (List.mem_reverse.mpr h)
  refine ⟨v.reverse,u.reverse,?_,by simpa using hn⟩
  rw [← List.reverse_reverse l,he]
  simp

theorem Fragment.flat_iff {text : Fragment} :
    text.Flat ↔ .char '(' ∉ text ∧ .char ')' ∉ text := by
  constructor
  · intro h
    refine ⟨fun hm => ?_,fun hm => ?_⟩ <;> cases h _ hm
  · rintro ⟨ho,hc⟩ t ht
    cases t with
    | ref i a => rfl
    | char c =>
      have h : c ≠ '(' ∧ c ≠ ')' := ⟨by rintro rfl; exact ho ht,by rintro rfl; exact hc ht⟩
      simp [Token.isParenthesis,h]

/-- Where no group matches, none that is closed has been opened. -/
theorem Tier.Nowhere.not_mem_open {text u w : Fragment} (hn : group.Nowhere text)
    (h : text = u ++ .char ')' :: w) : .char '(' ∉ u := by
  intro ho
  obtain ⟨u,v,rfl,-⟩ := List.eq_append_cons_of_mem ho
  obtain ⟨b,w',hb,hc⟩ := List.eq_append_cons_of_mem (by simp : .char ')' ∈ v ++ .char ')' :: w)
  obtain ⟨front,inner,hi,ho⟩ := exists_last_append (by simp : .char '(' ∈ .char '(' :: b)
  have hflat : Fragment.Flat inner := Fragment.flat_iff.mpr ⟨ho,fun hm => hc ?_⟩
  · refine group_ne_none hflat w' (hn (u ++ front) (.char '(' :: inner ++ .char ')' :: w') ?_)
    rw [h,List.append_assoc,List.cons_append,hb,← List.cons_append,hi]
    simp
  · have hm : .char ')' ∈ .char '(' :: b := by
      rw [hi]
      simp [hm]
    simpa using hm

/-- Where parentheses are closed there is a group without any inside. -/
theorem Fragment.flat_of_nowhere {style : Style} {text : Fragment} {v : Option Expr}
    (h : text.scan? style = some v) (hn : Tier.group.Nowhere text) : text.Flat := by
  obtain ⟨s,hr,hf⟩ := scan?_eq_some.mp h
  have hc : .char ')' ∉ text := by
    intro hc
    obtain ⟨u,w,rfl,hu⟩ := List.eq_append_cons_of_mem hc
    obtain ⟨m,hm,hw⟩ := follow_append_eq_some hr
    obtain ⟨m',hc',-⟩ := Option.bind_eq_some_iff.mp hw
    have ho := (Scan.inGroup_run hm hu).mp (Scan.inGroup_of_close hc')
    exact hn.not_mem_open rfl (ho.resolve_left not_inGroup_nil)
  have ho : .char '(' ∉ text := fun ho =>
    Scan.not_inGroup_of_finish hf ((Scan.inGroup_run hr hc).mpr (.inr ho))
  exact flat_iff.mpr ⟨ho,hc⟩

namespace Scan

variable {style : Style} {ps base : List Pending} {f : Factor} {s s' : Scan} {t : Token}

/-- The same with more at the bottom of the stack. -/
def above (base : List Pending) (s : Scan) : Scan := ⟨s.pending ++ base, s.factor⟩

variable {log : Bool}

theorem operate_above (op : BinaryOp) (ps : List Pending) (f : Factor) :
    operate style (ps ++ .group log :: base) f op =
      (operate style ps f op).map (above (.group log :: base)) := by
  have hm : (ps ++ .group log :: base).head?.any Pending.isMinus =
      ps.head?.any Pending.isMinus := by
    cases ps <;> rfl
  simp only [operate,hm,settle_append_group op.level_pos]
  split <;> rfl

theorem juxtapose_above (ps : List Pending) (f : Factor) :
    juxtapose style (ps ++ .group log :: base) f =
      (juxtapose style ps f).map (above (.group log :: base)) := by
  cases style with
  | explicit => rfl
  | implicit => exact operate_above .times ps f

theorem start_above (ps : List Pending) (t : Token) :
    start (ps ++ base) t = (start ps t).map (above base) := by
  cases t with
  | ref i a => rfl
  | char c =>
    simp only [start]
    split
    · rfl
    · split
      · rfl
      · split
        · rfl
        · split <;> rfl

theorem step_above (hf : t.isParenthesis = false) (s : Scan) :
    (above (.group log :: base) s).step style t =
      (s.step style t).map (above (.group log :: base)) := by
  obtain ⟨ps,x⟩ := s
  cases x with
  | none => exact start_above ps t
  | some f =>
    have hj : ((juxtapose style (ps ++ .group log :: base) f).bind fun s => start s.pending t) =
        ((juxtapose style ps f).bind fun s => start s.pending t).map
          (above (.group log :: base)) := by
      rw [juxtapose_above]
      cases juxtapose style ps f with
      | none => rfl
      | some m => exact start_above m.pending t
    cases t with
    | ref i a => cases f <;> exact hj
    | char c =>
      simp only [Token.isParenthesis,Bool.or_eq_false_iff,decide_eq_false_iff_not] at hf
      simp only [above,step,next,if_neg hf.1,if_neg hf.2]
      split
      · cases f <;> rfl
      · split
        · cases f with
          | name letters => rfl
          | number digits => exact hj
          | value e => exact hj
        · cases BinaryOp.ofSymbol? c with
          | none => rfl
          | some op => exact operate_above op ps f

theorem run_above {inner : Fragment} (hf : inner.Flat) (s : Scan) :
    follow (Scan.step style) (above (.group log :: base) s) inner =
      (follow (Scan.step style) s inner).map (above (.group log :: base)) := by
  induction inner generalizing s with
  | nil => rfl
  | cons t inner ih =>
    rw [follow_cons,follow_cons,step_above (hf t (by simp))]
    cases s.step style t with
    | none => rfl
    | some m => exact ih (fun u hu => hf u (by simp [hu])) m

end Scan

/-- Behind what is complete there is nothing or an open group. -/
theorem settle_one_cases (ps : List Pending) (f : Factor) :
    (settle 1 ps f).1 = [] ∨ ∃ log qs, (settle 1 ps f).1 = .group log :: qs := by
  have hl := level_head_settle (k := 1) ps f
  cases hs : (settle 1 ps f).1 with
  | nil => exact .inl rfl
  | cons p qs =>
    rw [hs] at hl
    have hp := hl p rfl
    cases p with
    | minus => exact absurd hp (by decide)
    | operation op x => exact absurd hp (Nat.not_lt.mpr op.level_pos)
    | group log => exact .inr ⟨log,qs,rfl⟩

theorem settle_eq_nil {ps : List Pending} (h : ¬InGroup ps) (f : Factor) :
    (settle 1 ps f).1 = [] := by
  refine (settle_one_cases ps f).resolve_right ?_
  rintro ⟨log,qs,hs⟩
  rw [← inGroup_settle Nat.one_pos ps f,hs] at h
  exact h (inGroup_group log qs)

/-- A group that is read stands for its inside. -/
theorem Fragment.scan?_of_close {style : Style} {inner : Fragment} (hf : inner.Flat) {log : Bool}
    {base : List Pending} {s : Scan}
    (h : follow (Scan.step style) ⟨.group log :: base, none⟩ (inner ++ [.char ')']) = some s) :
    ∃ v, inner.scan? style = some v ∧
      s = ⟨base, some (.value (if log then v.map .ln else v))⟩ := by
  obtain ⟨m,hm,hc⟩ := follow_append_eq_some h
  obtain ⟨m',hc,he⟩ := Option.bind_eq_some_iff.mp hc
  cases he
  have ha : follow (Scan.step style) ⟨.group log :: base, none⟩ inner =
      (follow (Scan.step style) Scan.init inner).map (Scan.above (.group log :: base)) :=
    Scan.run_above hf Scan.init
  rw [hm] at ha
  obtain ⟨n,hn,rfl⟩ := Option.map_eq_some_iff.mp ha.symm
  obtain ⟨f,hfac,hclose⟩ := Scan.step_close hc
  obtain ⟨log',rest,g,hs,hw,rfl⟩ := Scan.closeGroup_eq_some hclose
  obtain ⟨ps,x⟩ := n
  cases hfac
  simp only [Scan.above,settle_append_group Nat.one_pos] at hs
  have ho : ¬InGroup ps := by
    have hin := Scan.inGroup_run hn (flat_iff.mp hf).2
    exact fun h => (hin.mp h).elim not_inGroup_nil (flat_iff.mp hf).1
  have hnil := settle_eq_nil ho f
  rw [hnil] at hs
  simp only [List.nil_append,Prod.mk.injEq,List.cons.injEq,Pending.group.injEq] at hs
  obtain ⟨⟨rfl,rfl⟩,rfl⟩ := hs
  refine ⟨(settle 1 ps f).2.value?,scan?_eq_some.mpr ⟨_,hn,?_⟩,?_⟩
  · have hp : settle 1 ps f = ([], (settle 1 ps f).2) := by rw [← hnil]
    simp only [Scan.finish]
    rw [hp]
    simp only [hw,if_true]
  · rfl

end Fluxion.Formula
