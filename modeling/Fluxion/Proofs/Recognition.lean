import Fluxion.Proofs.Simulation
import Fluxion.Proofs.Situation

/-! Setting a part aside does not change whether a text can be read. What a part may stand
behind is seen from the place in front of it, and what it completes too early would have
matched before. -/
namespace Fluxion.Formula

namespace Spot

variable {text u w : Fragment} {s q : Spot}

theorem accepts_cons_eq_true {t : Token} (h : s.accepts (t :: w) = true) :
    ∃ q, s.next t = some q ∧ q.accepts w = true := by
  rw [accepts_cons] at h
  cases hn : s.next t with
  | none => rw [hn] at h; cases h
  | some q =>
    rw [hn] at h
    exact ⟨q,rfl,h⟩

section Expected

variable (hf : text.Flat) (hn : Tier.negation.Nowhere text) (hp : Tier.power.Nowhere text)
include hf hn hp

/-- Where an operand must follow, one does: no minus is left in front of it. -/
theorem operand_of_accepts {front : Front} (ht : text = u ++ w)
    (hu : ∀ t ∈ u.getLast?, t.isOperator = true) (h : (operand front).accepts w = true) :
    ∃ t w', w = t :: w' ∧ t.isOperand = true := by
  induction hl : w.length using Nat.strongRecOn generalizing u w front with
  | ind n ih =>
    cases w with
    | nil => cases h
    | cons t w =>
      obtain ⟨q,hq,h⟩ := accepts_cons_eq_true h
      rcases next_eq_some hq (hf t (by simp [ht])) with ⟨ho,-⟩ | ⟨c,rfl,hc,-⟩ | ⟨ho,-⟩ |
        ⟨rfl,-,rfl⟩ | ⟨op,-,ho⟩
      · exact ⟨t,w,rfl,by simp [Token.isOperand,ho]⟩
      · exact ⟨_,w,rfl,by simp [Token.isOperand_char,hc]⟩
      · exact ⟨t,w,rfl,by simp [Token.isOperand,ho]⟩
      · exfalso
        have ht' : text = u ++ [.char '-'] ++ w := by simp [ht]
        obtain ⟨t,w',rfl,hto⟩ := ih _ (by simp [← hl]) ht' (by simp [Token.isOperator]) h rfl
        obtain ⟨rest,rfl⟩ := hn.power_of_minus hu hto ht
        have hao : Fragment.Operand [t] := .singleton hto
        obtain ⟨q,hr,hq⟩ := run_operand (s := operand .tight) rfl hao
        rw [show t :: .char '^' :: rest = [t] ++ .char '^' :: rest from rfl,accepts_append,hr,
          Option.any_some,accepts_cons,
          show q.next (.char '^') = some (operand .tight) from hq.sign .power] at h
        obtain ⟨t',w'',rfl,hto'⟩ := ih rest.length (by simp [← hl]; omega)
          (u := u ++ [.char '-'] ++ [t] ++ [.char '^']) (by simp [ht])
          (by simp [Token.isOperator]) h rfl
        exact Tier.operation_ne_none .power hao hto' w''
          (hp (u ++ [.char '-']) ([t] ++ .char '^' :: t' :: w'') (by simp [ht]))
      · cases ho

theorem not_accepts_sign (hm : Tier.product.Nowhere text) {x : Token} {op : BinaryOp}
    (ht : text = u ++ x :: .char op.symbol :: w) (hx : x.isOperand = true) (ho : 2 ≤ op.level)
    {front : Front} : (operand front).accepts w = false := by
  by_contra h
  obtain ⟨t,w,rfl,hto⟩ := operand_of_accepts hf hn hp (u := u ++ [x] ++ [.char op.symbol])
    (w := w) (by simp [ht]) (by cases op <;> simp [BinaryOp.symbol,Token.isOperator]) (by simpa using h)
  have hop : op.tier.Nowhere text := by
    cases op with
    | power => exact hp
    | times => exact hm
    | divide => exact hm
    | _ => exact absurd ho (by decide)
  exact Tier.operation_ne_none op (.singleton hx) hto w (hop.operation (u := u) (by simp [ht]))

/-- Places that only a text with a match tells apart. -/
inductive Alike : Spot → Spot → Prop
  | stray : Alike (stray .chain) (stray .free)
  | sum : Alike (stray .sum) (stray .free)
  | chain (letters : List Char) : Alike chain (name .factor letters)
  | name {letters : List Char} (h : 2 ≤ letters.length) (letters' : List Char) :
    Alike (name .factor letters) (name .factor letters')

theorem accepts_of_alike (hm : Tier.product.Nowhere text) {x : Token} (ht : text = u ++ x :: w)
    (hx : x.isOperand = true) (h : Alike s q)
    (hsum : s = stray .sum → x.isDigit = true ∧ Tier.coefficient.Nowhere text) :
    s.accepts w = q.accepts w := by
  induction w generalizing u x s q with
  | nil => cases h <;> rfl
  | cons t w ih =>
    have ht' : text = (u ++ [x]) ++ t :: w := by simp [ht]
    have he : s.isExpected = false ∧ q.isExpected = false := by cases h <;> exact ⟨rfl,rfl⟩
    rw [accepts_cons,accepts_cons]
    rcases Token.cases_flat (hf t (by simp [ht])) with ho | ⟨op,rfl⟩ | ⟨c,rfl,ha,hd,hl,hr,hs⟩
    · cases t with
      | ref i content => exact absurd (hm u _ ht) (Tier.reference_ne_none (.singleton hx) i content w)
      | char c =>
        rw [Token.isOperand_char] at ho
        by_cases ha : c.isAlpha = true
        · rw [next_letter ha,next_letter ha]
          have hto : (Token.char c).isOperand = true := by simp [Token.isOperand_char,ha]
          cases h with
          | stray => exact ih ht' hto (.chain [c]) nofun
          | chain letters => exact ih ht' hto (.chain (letters ++ [c])) nofun
          | name hlong letters' => exact ih ht' hto (.name (by simp; omega) _) nofun
          | sum =>
            obtain ⟨hxd,hcoef⟩ := hsum rfl
            have hxl : ∀ y ∈ [x], y.isLetter = false :=
              List.forall_mem_singleton.mpr (Token.not_isLetter_of_isDigit hxd)
            have hl : (Token.char c).isLetter = true := ha
            exact absurd (hcoef u _ ht) (Tier.coefficient_ne_none (.singleton hx) hxl hl w)
        · have hd : c.isDigit = true := by simpa [ha] using ho
          rw [next_digit hd,next_digit hd]
          have hto : (Token.char c).isOperand = true := by simp [Token.isOperand_char,hd]
          cases h with
          | stray => exact ih ht' hto .stray nofun
          | sum => exact ih ht' hto .sum fun hs => ⟨hd,(hsum hs).2⟩
          | chain letters =>
            simp only [digit]
            split
            · exact ih ht' hto .stray nofun
            · rfl
          | name hlong letters' =>
            simp only [digit,if_neg (Nat.not_le.mpr hlong)]
            split
            · exact ih ht' hto .stray nofun
            · rfl
    · rw [next_sign op he.1,next_sign op he.2,sign,sign,he.1,he.2]
      by_cases hop : op.level = 1
      · simp only [if_pos hop]
      · have hlevel : 2 ≤ op.level := by have := op.level_pos; omega
        have hfalse : (operand .tight).accepts w = false :=
          not_accepts_sign hf hn hp hm (u := u) ht hx hlevel
        cases h <;> simp [hop,isBound,hfalse]
    · simp [next,ha,hd,hl,hr,hs,he.1,he.2]

theorem accepts_name_factor (hm : Tier.product.Nowhere text) {c : Char}
    (ht : text = u ++ .char c :: w) : (name .factor [c]).accepts w = factor.accepts w := by
  cases w with
  | nil => rfl
  | cons t w =>
    by_cases hl : t.isLetter = true
    · cases t with
      | ref i content => cases hl
      | char d =>
        have hd : d.isAlpha = true := hl
        rw [accepts_cons,accepts_cons,next_letter hd,next_letter hd]
        exact accepts_of_alike hf hn hp hm (u := u ++ [.char c]) (x := .char d) (by simp [ht])
          (by simp [Token.isOperand_char,hd]) (.name (by simp) [d]) nofun
    · refine accepts_of_isFree rfl fun x hx => ?_
      cases hx
      simpa [takes] using hl

/-- The second operand of a sum counts as one summand with the first. -/
theorem accepts_summand (hm : Tier.product.Nowhere text) (hcoef : Tier.coefficient.Nowhere text)
    {b : Fragment} (hb : (operand .sum).Behind b q) (he : b.Ends w)
    (ht : text = u ++ (b ++ w)) : q.accepts w = factor.accepts w := by
  have htake := hb.takes he
  by_cases hfree : q.isFree = true
  · exact accepts_of_isFree hfree htake
  · cases hb with
    | number hne hc hs hq =>
      cases hs
      exact absurd rfl hfree
    | reference i content => exact absurd rfl hfree
    | @name cs letters hne hc hl =>
      have hl : letters = [] := hl.resolve_right nofun
      subst hl
      simp only [isFree,front,List.nil_append,Bool.or_eq_true,decide_eq_true_eq] at hfree
      obtain ⟨ds,c,rfl⟩ := List.eq_nil_or_concat' cs |>.resolve_left hne
      have hco : (Token.char c).isOperand = true := by simp [Token.isOperand_char,hc c]
      have ht' : text = (u ++ ds.map .char) ++ .char c :: w := by simp [ht]
      cases w with
      | nil => rfl
      | cons t w =>
        rw [accepts_cons,accepts_cons]
        rcases Token.cases_flat (hf t (by simp [ht])) with ho | ⟨op,rfl⟩ | ⟨d,rfl,ha,hd,hl,hr,hs⟩
        · cases t with
          | ref i content =>
            exact absurd (hm _ _ ht') (Tier.reference_ne_none (.singleton hco) i content w)
          | char d =>
            have hda : d.isAlpha = false := htake (.char d) rfl
            have hd : d.isDigit = true := by simpa [Token.isOperand_char,hda] using ho
            have hdig : (name .sum (ds ++ [c])).digit = some (stray .sum) := by
              simp only [digit]
              rw [if_neg fun h => hfree (.inl h)]
            rw [next_digit hd,next_digit hd,
              show (name (operand .sum).front ([] ++ (ds ++ [c]))).digit = some (stray .sum) from hdig]
            have halike := accepts_of_alike hf hn hp hm (u := u ++ (ds ++ [c]).map .char)
              (x := .char d) (w := w) (by simp [ht]) (by simp [Token.isOperand_char,hd]) .sum
              fun _ => ⟨hd,hcoef⟩
            exact halike
        · rw [next_sign op rfl,next_sign op rfl]
          rfl
        · simp [next,ha,hd,hl,hr,hs,isExpected]

end Expected

theorem accepts_close (s : Spot) (after : Fragment) :
    s.accepts (.char ')' :: after) = (s.isComplete && factor.accepts after) := by
  rw [accepts_cons,next_close]
  cases s.isComplete <;> rfl

theorem accepts_inner (inner after : Fragment) :
    (operand .nothing).accepts (inner ++ .char ')' :: after) =
      ((operand .nothing).accepts inner && factor.accepts after) := by
  rw [accepts_append,accepts]
  cases follow Spot.next (operand .nothing) inner with
  | none => rfl
  | some q => exact accepts_close q after

theorem accepts_group (h : s.beforeCall = s) (inner after : Fragment) (i : Nat)
    (content : Fragment) : s.accepts (.char '(' :: inner ++ .char ')' :: after) =
      ((operand .nothing).accepts inner && s.accepts (.ref i content :: after)) := by
  rw [List.cons_append,accepts_cons,next_open,h,accepts_ref]
  cases s.isFactor with
  | false => simp
  | true => exact accepts_inner inner after

theorem run_call (s : Spot) : follow next s [.char 'l', .char 'n', .char '('] =
    if s.isFactor then some (operand .nothing) else none := by
  cases s with
  | name front letters =>
    have hn : follow next (name front letters) (['l', 'n'].map .char) =
        some (name front (letters ++ ['l', 'n'])) :=
      run_name (List.forall_mem_cons.mpr ⟨rfl,List.forall_mem_singleton.mpr rfl⟩) front letters
    have hcall : (name front (letters ++ ['l', 'n'])).beforeCall.isFactor =
        (name front letters).isFactor := by
      rcases List.eq_nil_or_concat' letters with rfl | ⟨cs,c,rfl⟩
      · rfl
      · simp [beforeCall]
    rw [show [Token.char 'l', .char 'n', .char '('] = ['l', 'n'].map .char ++ [.char '('] from rfl,
      follow_append,hn,Option.bind_some,follow_cons,next_open,hcall]
    cases (name front letters).isFactor <;> rfl
  | stray bound => cases bound <;> rfl
  | _ => rfl

theorem accepts_logarithm (s : Spot) (inner after : Fragment) (i : Nat) (content : Fragment) :
    s.accepts (.char 'l' :: .char 'n' :: .char '(' :: inner ++ .char ')' :: after) =
      ((operand .nothing).accepts inner && s.accepts (.ref i content :: after)) := by
  rw [show .char 'l' :: .char 'n' :: .char '(' :: inner ++ .char ')' :: after =
    [.char 'l', .char 'n', .char '('] ++ (inner ++ .char ')' :: after) from rfl,accepts_append,
    run_call,accepts_ref]
  cases s.isFactor with
  | false => simp
  | true => exact accepts_inner inner after

end Spot

namespace Tier.First

variable {text before matched after a b : Fragment} {tier : Tier} {s q : Spot}

theorem not_joined (hs : First text tier ⟨before, matched, after⟩)
    (hh : .coefficient = tier ∨ .coefficient ∈ tier.above) : ¬before.Joined := by
  rintro ⟨v,y,x,w,rfl,hy,hx⟩
  have hyo : y.isOperand = true := by rcases hy with hy | hy <;> simp [Token.isOperand,hy]
  have hyl : ∀ t ∈ [y], t.isLetter = false := by
    refine List.forall_mem_singleton.mpr ?_
    rcases hy with hy | hy
    · exact Token.not_isLetter_of_isDigit hy
    · cases y with
      | ref i content => rfl
      | char c => cases hy
  refine coefficient_ne_none (.singleton hyo) hyl hx (w ++ (matched ++ after))
    (hs.pattern_eq_none hh (by decide) (u := v) ?_ (by simp))
  simp [hs.cut]

theorem not_added (hs : First text .sum ⟨before, matched, after⟩) : ¬before.Added := by
  rintro ⟨v,c,t,w,op,rfl,hc,ho,ht⟩
  have hop : op.tier = .sum := by cases op <;> first | rfl | cases ho
  exact hs.not_operation (u := v) (w := w ++ (matched ++ after)) (.inl hop) hc ht (by simp [hs.cut])
    (by simp)

theorem not_tight (hs : First text .product ⟨before, matched, after⟩)
    (hsit : Spot.Situation before (.operand .tight)) {w : Fragment} (ha : a.Operand)
    (hm : matched ++ after = a ++ w) (hw : ∀ t ∈ w.head?, t ≠ .char '^') : False := by
  cases hsit with
  | @minus u hu =>
    exact (hs.above .negation (by decide)).not_minus hu ha hw (by simp [hs.cut,← hm])
  | @tight u c op ho hc =>
    obtain ⟨t,a',rfl⟩ := List.exists_cons_of_ne_nil ha.ne_nil
    have hop : op.tier = .product ∨ op.tier ∈ Tier.product.above := by
      cases op <;> first | decide | exact absurd ho (by decide)
    refine hs.not_operation (u := u) (w := a' ++ w) hop hc (ha.isOperand t (by simp)) ?_ (by simp)
    simp at hm
    simp [hs.cut,hm]

theorem isFactor_or (hs : First text tier ⟨before, matched, after⟩)
    (hsit : Spot.Situation before s) (hh : .coefficient = tier ∨ .coefficient ∈ tier.above) :
    s.isFactor = true ∨ (∃ letters, s = .name .nothing letters ∧ 2 ≤ letters.length) ∨
      before.Added ∧ ((∃ letters, s = .name .sum letters ∧ 2 ≤ letters.length) ∨ s = .stray .sum) := by
  have hj := hs.not_joined hh
  cases hsit with
  | name front letters hc hjoin hadd =>
    by_cases hl : letters.length ≤ 1
    · exact .inl (by simp [Spot.isFactor,hl])
    · cases front with
      | nothing => exact .inr (.inl ⟨letters,rfl,by omega⟩)
      | tight => exact .inl (by simp [Spot.isFactor])
      | sum => exact .inr (.inr ⟨hadd rfl,.inl ⟨letters,rfl,by omega⟩⟩)
      | factor => exact absurd (hjoin rfl) hj
  | stray bound hc hjoin hadd =>
    cases bound with
    | free => exact .inl rfl
    | chain => exact absurd (hjoin rfl) hj
    | sum => exact .inr (.inr ⟨hadd rfl,.inr rfl⟩)
  | chain hc hjoin => exact absurd hjoin hj
  | _ => exact .inl rfl

theorem run_name_nothing {letters : List Char} (hl : 2 ≤ letters.length) (ha : a.Operand)
    (ht : ∀ t ∈ a.head?, Spot.takes (.name .nothing letters) t = false) :
    follow Spot.next (.name .nothing letters) a = none := by
  have hlong : ¬letters.length ≤ 1 := by omega
  cases ha with
  | @name cs hn hc =>
    obtain ⟨c,cs,rfl⟩ := List.exists_cons_of_ne_nil hn
    have ht : c.isAlpha = false := ht (.char c) rfl
    rw [hc c (by simp)] at ht
    cases ht
  | number hn hc =>
    rw [Spot.run_digits hn hc]
    simp [Spot.digit,hlong]
  | reference i content => simp [follow_cons,Spot.next_ref,Spot.isFactor,hlong]

section Replacement

variable (hf : text.Flat)
include hf

theorem accepts_coefficient {x : Token} (hs : First text .coefficient ⟨before, a ++ [x], after⟩)
    (hsit : Spot.Situation before s) (ha : a.Operand) (hn : ∀ t ∈ a, t.isLetter = false)
    (hx : x.isLetter = true) (i : Nat) (content : Fragment) :
    s.accepts (a ++ x :: after) = s.accepts (.ref i content :: after) := by
  obtain ⟨c,rfl,hc⟩ := Token.exists_char_of_isLetter hx
  rw [Spot.accepts_append,Spot.accepts_ref]
  have htake : ∀ t ∈ a.head?, s.takes t = false :=
    hsit.takes_eq_false fun _ _ => hs.coefficient_not_prolongs rfl ha hn hx
  have hneg : Tier.negation.Nowhere text := hs.above _ (by decide)
  have hpow : Tier.power.Nowhere text := hs.above _ (by decide)
  have hprod : Tier.product.Nowhere text := hs.above _ (by decide)
  rcases hs.isFactor_or hsit (.inl rfl) with hfac | ⟨letters,rfl,hl⟩ | ⟨-,hadd⟩
  · obtain ⟨q,hr,hq⟩ := Spot.run_operand hfac ha
    rw [hr,Option.any_some,Spot.accepts_cons,Spot.next_letter hc,hq.letter hn,Option.any_some,hfac,
      Bool.true_and]
    exact Spot.accepts_name_factor hf hneg hpow hprod (u := before ++ a) (by simp [hs.cut])
  · rw [run_name_nothing hl ha htake,show Spot.isFactor (.name .nothing letters) = false by
      simp [Spot.isFactor]; omega]
    rfl
  · have hfac : s.isFactor = false := by
      rcases hadd with ⟨letters,rfl,hl⟩ | rfl
      · simp [Spot.isFactor]
        omega
      · rfl
    rw [hfac,Bool.false_and]
    cases ha with
    | name hne hcs => exact absurd hn (Fragment.has_letter hne hcs)
    | number hne hcs =>
      have hdig : s.digit = some (.stray .sum) := by
        rcases hadd with ⟨letters,rfl,hl⟩ | rfl
        · simp [Spot.digit,Nat.not_le.mpr hl]
        · rfl
      rw [Spot.run_digits hne hcs,hdig,Option.any_some,Spot.accepts_cons,Spot.next_letter hc]
      rfl
    | reference i content =>
      rw [follow_cons,Spot.next_ref,hfac]
      rfl

theorem accepts_operation {op : BinaryOp}
    (hs : First text op.tier ⟨before, a ++ .char op.symbol :: b, after⟩)
    (hsit : Spot.Situation before s) (ha : a.Operand) (hb : b.Operand) (he : b.Ends after) (i : Nat)
    (content : Fragment) :
    s.accepts (a ++ .char op.symbol :: (b ++ after)) = s.accepts (.ref i content :: after) := by
  have htake : ∀ t ∈ a.head?, s.takes t = false :=
    hsit.takes_eq_false fun _ _ => hs.operation_not_prolongs rfl rfl ha hb
  by_cases ho : op.level = 1
  · have htier : op.tier = .sum := by cases op <;> first | rfl | cases ho
    rw [htier] at hs
    rw [Spot.accepts_append,Spot.accepts_ref]
    rcases hs.isFactor_or hsit (.inr (by decide)) with hfac | ⟨letters,rfl,hl⟩ | ⟨hadd,-⟩
    · obtain ⟨q,hr,hq⟩ := Spot.run_operand hfac ha
      obtain ⟨r,hr',hb⟩ := Spot.run_operand (s := .operand .sum) rfl hb
      rw [hr,Option.any_some,Spot.accepts_cons,hq.sign,if_pos ho,Option.any_some,
        Spot.accepts_append,hr',Option.any_some,hfac,Bool.true_and]
      exact Spot.accepts_summand hf (hs.above _ (by decide)) (hs.above _ (by decide))
        (hs.above _ (by decide)) (hs.above _ (by decide)) hb he
        (u := before ++ a ++ [.char op.symbol]) (by simp [hs.cut])
    · rw [run_name_nothing hl ha htake,show Spot.isFactor (.name .nothing letters) = false by
        simp [Spot.isFactor]; omega]
      rfl
    · exact absurd hadd hs.not_added
  · exact Spot.accepts_operation (by have := op.level_pos; omega) ha hb he htake i content

omit hf in
/-- A name of several letters is a factor of a product without a sign only where something
in front of it has taken it before. -/
theorem accepts_reference {i : Nat} {content : Fragment}
    (hs : First text .product ⟨before, a ++ [.ref i content], after⟩)
    (hsit : Spot.Situation before s) (ha : a.Operand) (j : Nat) (c : Fragment) :
    s.accepts (a ++ .ref i content :: after) =
      (decide (a.length = 1 ∨ a.all Token.isDigit = true) && s.accepts (.ref j c :: after)) := by
  have htake : ∀ t ∈ a.head?, s.takes t = false :=
    hsit.takes_eq_false fun _ _ => hs.reference_not_prolongs rfl ha
  rw [Spot.accepts_append,Spot.accepts_ref]
  cases hfac : s.isFactor with
  | false =>
    rw [Bool.false_and,Bool.and_false]
    cases hr : follow Spot.next s a with
    | none => rfl
    | some q =>
      have hq : q.isBound = true := Spot.isBound_of_run hfac ha htake hr
      have hqf : q.isFactor = false := by
        cases q with
        | name front letters => cases hq
        | _ => simpa [Spot.isFactor] using hq
      rw [Option.any_some,Spot.accepts_ref,hqf,Bool.false_and]
  | true =>
    obtain ⟨q,hr,hq⟩ := Spot.run_operand hfac ha
    rw [hr,Option.any_some,Spot.accepts_ref,Bool.true_and]
    congr 1
    cases hq with
    | reference k d => rfl
    | number hne hc hd hq =>
      rw [Fragment.all_isDigit_of_number hc]
      rcases hq with rfl | rfl <;> simp [Spot.isFactor,Spot.isBound]
    | @name cs letters hne hc hl =>
      have hname : ∀ front letters, s ≠ .name front letters := by
        rintro front letters rfl
        obtain ⟨d,cs,rfl⟩ := List.exists_cons_of_ne_nil hne
        have ht : d.isAlpha = false := htake (.char d) rfl
        rw [hc d (by simp)] at ht
        cases ht
      have hl : letters = [] := hl.resolve_right (hname _ _)
      subst hl
      have hlen : 0 < cs.length := List.length_pos_iff.mpr hne
      have htight : ¬(2 ≤ cs.length ∧ s.front = .tight) := by
        rintro ⟨-,hfront⟩
        have hs' : s = .operand .tight := by
          cases s with
          | operand front => exact congrArg _ hfront
          | name front letters => exact absurd rfl (hname front letters)
          | _ => cases hfront
        subst hs'
        exact hs.not_tight hsit ha (List.append_assoc _ _ _) (by simp)
      rw [Fragment.all_isDigit_of_name hne hc]
      by_cases hlong : cs.length ≤ 1
      · have hone : cs.length = 1 := by omega
        simp [Spot.isFactor,hone]
      · have hfront : s.front ≠ .tight := fun hfront => htight ⟨by omega,hfront⟩
        have hone : cs.length ≠ 1 := by omega
        simp [Spot.isFactor,hlong,hfront,hone]

end Replacement

/-- A minus of its own stands where an operand is expected. -/
theorem exists_operand (hs : First text .negation ⟨before, matched, after⟩)
    (hsit : Spot.Situation before s) : ∃ front, s = .operand front := by
  cases he : s.isExpected with
  | true =>
    cases s with
    | operand front => exact ⟨front,rfl⟩
    | _ => cases he
  | false =>
    obtain ⟨v,c,rfl,hc⟩ := hsit.isOperand he
    have ho := hs.isOperator_of_negation c (by simp)
    rw [Token.not_isOperand_of_isOperator ho] at hc
    cases hc

theorem beforeCall_eq_self {inner : Fragment}
    (hs : First text .group ⟨before, .char '(' :: inner ++ [.char ')'], after⟩) (hi : inner.Flat)
    (hr : follow Spot.next (Spot.operand .nothing) before = some s) : s.beforeCall = s := by
  by_contra hcall
  cases s with
  | name front letters =>
    have hl : ∃ ls, letters = ls ++ ['l', 'n'] := by
      rw [Spot.beforeCall] at hcall
      split at hcall
      · rename_i hl
        exact ⟨[],by rw [← List.reverse_reverse letters,hl]; rfl⟩
      · rename_i rest _ hl
        exact ⟨rest.reverse,by rw [← List.reverse_reverse letters,hl]; simp⟩
      · exact absurd rfl hcall
    obtain ⟨ls,rfl⟩ := hl
    obtain ⟨u,rfl⟩ := Spot.suffix_of_run hr
    have hn := hs.above .logarithm (by decide) (u ++ ls.map .char)
      (.char 'l' :: .char 'n' :: (.char '(' :: inner ++ .char ')' :: after)) (by simp [hs.cut])
    exact logarithm_ne_none hi after hn
  | _ => exact hcall rfl

end Tier.First

end Fluxion.Formula
