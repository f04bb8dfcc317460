import Fluxion.Proofs.Outline
import Fluxion.Proofs.Precedence

/-! Products without a sign and the same products with one. Both texts are read from left
to right through the same stages, and what makes the second one well-formed is that it is
read at all. -/
namespace Fluxion.Formula

/-- Whether a factor can end with a character. -/
def endsFactor (c : Char) : Bool := c.isAlpha || c.isDigit || c = ')'

/-- Whether a character begins a factor right behind another one: a letter behind a digit or
a group, or a group behind anything. -/
def isJuxtaposed (previous : Option Char) (c : Char) : Bool :=
  c.isAlpha && previous.any (fun p => p.isDigit || p = ')') || c = '(' && previous.any endsFactor

/-- A text with `*` wherever factors follow each other without a sign, `previous` being the
character in front of the text. -/
def star (previous : Option Char) : List Char → List Char
  | 'l' :: 'n' :: '(' :: s =>
    (if previous.any endsFactor then ['*'] else []) ++ 'l' :: 'n' :: '(' :: star (some '(') s
  | c :: s => (if isJuxtaposed previous c then ['*'] else []) ++ c :: star (some c) s
  | [] => []

/-- Names are single letters, and no digit follows a letter or a group. -/
def isSpaced (previous : Option Char) : List Char → Bool
  | 'l' :: 'n' :: '(' :: s => isSpaced (some '(') s
  | c :: s =>
    !(c.isDigit && previous.any (fun p => p.isAlpha || p = ')')) &&
      !(c.isAlpha && previous.any Char.isAlpha) && isSpaced (some c) s
  | [] => true

theorem mem_star {c : Char} {previous : Option Char} {s : List Char} (h : c ∈ s) :
    c ∈ star previous s := by
  fun_induction star previous s with
  | case1 previous s ih =>
    simp only [List.mem_cons] at h
    rcases h with rfl | rfl | rfl | h
    · simp
    · simp
    · simp
    · simp [ih h]
  | case2 previous d s _ ih =>
    rcases List.mem_cons.mp h with rfl | h
    · simp
    · simp [ih h]
  | case3 previous => cases h

def openGroups (ps : List Pending) : Nat := ps.countP (·.level = 0)

theorem openGroups_cons_of_pos {p : Pending} (h : 0 < p.level) (ps : List Pending) :
    openGroups (p :: ps) = openGroups ps := by
  rw [openGroups,List.countP_cons_of_neg (by simpa using Nat.ne_of_gt h)]
  rfl

@[simp] theorem openGroups_group (log : Bool) (ps : List Pending) :
    openGroups (.group log :: ps) = openGroups ps + 1 := by
  rw [openGroups,List.countP_cons_of_pos (by simp [Pending.level])]
  rfl

theorem openGroups_settle {k : Nat} (hk : 0 < k) (ps : List Pending) (f : Factor) :
    openGroups (settle k ps f).1 = openGroups ps := by
  induction ps generalizing f with
  | nil => rfl
  | cons p ps ih =>
    by_cases h : k ≤ p.level
    · rw [settle_cons_of_le h,ih,openGroups_cons_of_pos (Nat.lt_of_lt_of_le hk h)]
    · rw [settle_cons_of_lt (Nat.not_le.mp h)]

theorem settle_one (ps : List Pending) (f : Factor) :
    (settle 1 ps f).1 = [] ∧ openGroups ps = 0 ∨
      ∃ log qs, (settle 1 ps f).1 = .group log :: qs ∧ openGroups ps = openGroups qs + 1 := by
  rw [← openGroups_settle Nat.one_pos ps f]
  rcases settle_one_cases ps f with hs | ⟨log,qs,hs⟩
  · rw [hs]
    exact .inl ⟨rfl,rfl⟩
  · rw [hs]
    exact .inr ⟨log,qs,rfl,openGroups_group log qs⟩

/-- Both texts are read to the end with the same value. -/
def Agree (m : Scan) (a b : List Char) : Prop :=
  ∃ v, (follow (Scan.step .implicit) m (a.map .char)).bind (Scan.finish .implicit) = some v ∧
    (follow (Scan.step .explicit) m (b.map .char)).bind (Scan.finish .explicit) = some v

theorem Agree.step {m n : Scan} {a b a' b' : List Char} (h : Agree n a b)
    (hi : follow (Scan.step .implicit) m (a'.map .char) = some n)
    (he : follow (Scan.step .explicit) m (b'.map .char) = some n) :
    Agree m (a' ++ a) (b' ++ b) := by
  obtain ⟨v,ha,hb⟩ := h
  refine ⟨v,?_,?_⟩
  · rw [List.map_append,follow_append,hi]
    exact ha
  · rw [List.map_append,follow_append,he]
    exact hb

/-- The stage of reading, what is known of the characters in front of it and behind it, and
where it stands in the outline of the text. -/
inductive Linked (previous : Option Char) (s : List Char) : Scan → Place → Prop
  | operator {ps : List Pending} (hp : isUnaryAfter previous = true)
    (hm : ps.head?.any Pending.isMinus = true → isLongPower s = false) :
    Linked previous s ⟨ps, none⟩ .operator
  | number {ps : List Pending} {ds : List Char} {c : Char} (hp : previous = some c)
    (hc : c.isDigit = true) (hd : ∀ c ∈ ds, c.isDigit = true)
    (hm : ps.head?.any Pending.isMinus = true → isLongPower (ds ++ s) = false) :
    Linked previous s ⟨ps, some (.number ds)⟩ .number
  | letter {ps : List Pending} {c : Char} (hp : previous = some c) (hc : c.isAlpha = true) :
    Linked previous s ⟨ps, some (.name [c])⟩ .factor
  | value {ps : List Pending} (x : Option Expr) (hp : previous = some ')') :
    Linked previous s ⟨ps, some (.value x)⟩ .factor

def waiting (ps : List Pending) (f : Factor) (op : BinaryOp) : Scan :=
  ⟨.operation op (settle op.level ps f).2.value? :: (settle op.level ps f).1, none⟩

theorem openGroups_waiting (ps : List Pending) (f : Factor) (op : BinaryOp) :
    openGroups (waiting ps f op).pending = openGroups ps := by
  have hl : 0 < (Pending.operation op (settle op.level ps f).2.value?).level := op.level_pos
  rw [waiting,openGroups_cons_of_pos hl,openGroups_settle op.level_pos]

namespace Linked

variable {previous : Option Char} {s : List Char} {c : Char} {m : Scan} {q : Place}
  {ps : List Pending} {f : Factor}

theorem isWhole (h : Linked previous s ⟨ps, some f⟩ q) (style : Style) :
    f.isWhole style = true := by
  cases h with
  | number hp hc hd hm => rfl
  | letter hp hc => simp [Factor.isWhole]
  | value x hp => rfl

theorem operate {op : BinaryOp} (h : Linked previous s ⟨ps, some f⟩ q)
    (ho : op = .power → ∃ w, s = '^' :: w) (style : Style) :
    Scan.operate style ps f op = some (waiting ps f op) := by
  refine if_pos ⟨h.isWhole style,?_⟩
  rintro ⟨hop,hlong,hminus⟩
  obtain ⟨w,rfl⟩ := ho hop
  cases h with
  | @number _ ds _ hp hc hd hm =>
    have hrun : Phrase.LongRun ds := ⟨by simpa [Factor.isLong] using hlong,.inr hd⟩
    have hl := hrun.isLongPower w
    rw [hm hminus] at hl
    cases hl
  | letter hp hc => simp [Factor.isLong] at hlong
  | value x hp => cases hlong

theorem any_endsFactor (h : Linked previous s m q) :
    previous.any endsFactor = m.factor.isSome := by
  cases h with
  | operator hp hm =>
    cases previous with
    | none => rfl
    | some p =>
      have hp : p ∈ ['+', '-', '*', '/', '^', '('] := by simpa [isUnaryAfter] using hp
      simp only [List.mem_cons,List.not_mem_nil,or_false] at hp
      rcases hp with rfl | rfl | rfl | rfl | rfl | rfl <;> rfl
  | number hp hc hd hm => simp [hp,endsFactor,hc]
  | letter hp hc => simp [hp,endsFactor,hc]
  | value x hp => simp [hp,endsFactor]

theorem operate_times (h : Linked previous s ⟨ps, some f⟩ q) (style : Style) :
    Scan.operate style ps f .times = some (waiting ps f .times) :=
  h.operate (fun hc : BinaryOp.times = .power => nomatch hc) style

theorem next_operand (h : Linked previous s ⟨ps, some f⟩ q) {t : Token}
    (ho : t.isOperand = true) (hd : t.isDigit = false) (ht : f.takes t = false) :
    Scan.next .implicit ps f t = Scan.start (waiting ps f .times).pending t := by
  rw [Scan.next_operand ho hd ht,
    show Scan.juxtapose .implicit ps f = some (waiting ps f .times) from h.operate_times .implicit]
  rfl

theorem run_sign (h : Linked previous s ⟨ps, some f⟩ q) (cs : List Char) :
    follow (Scan.step .explicit) ⟨ps, some f⟩ (('*' :: cs).map .char) =
      follow (Scan.step .explicit) (waiting ps f .times) (cs.map .char) := by
  rw [List.map_cons,follow_cons,Scan.step_some,
    show Scan.next .explicit ps f (.char '*') = Scan.operate .explicit ps f .times from
      Scan.next_sign .times ps f,h.operate_times]
  rfl

theorem run_call (h : Linked previous ('l' :: 'n' :: '(' :: s) m q) :
    ∃ n, follow (Scan.step .implicit) m (['l', 'n', '('].map .char) = some n ∧
      follow (Scan.step .explicit) m (((if previous.any endsFactor then ['*'] else []) ++
        ['l', 'n', '(']).map .char) = some n ∧
      Linked (some '(') s n .operator ∧ openGroups n.pending = openGroups m.pending + 1 := by
  have hlinked : ∀ qs, Linked (some '(') s ⟨.group true :: qs, none⟩ .operator := fun qs =>
    .operator rfl fun hm => by cases hm
  obtain ⟨ps,x⟩ := m
  rw [h.any_endsFactor]
  cases x with
  | none => exact ⟨⟨.group true :: ps, none⟩,rfl,rfl,hlinked ps,openGroups_group true ps⟩
  | some f =>
    refine ⟨⟨.group true :: (waiting ps f .times).pending, none⟩,?_,?_,hlinked _,?_⟩
    · have hn : f.takes (.char 'l') = false → Scan.next .implicit ps f (.char 'l') =
          Scan.start (waiting ps f .times).pending (.char 'l') := h.next_operand rfl rfl
      have hj : Scan.juxtapose .implicit ps f = some (waiting ps f .times) :=
        h.operate_times .implicit
      cases h with
      | number hp hc hd hm =>
        rw [List.map_cons,follow_cons,Scan.step_some,hn rfl]
        rfl
      | value x hp =>
        rw [List.map_cons,follow_cons,Scan.step_some,hn rfl]
        rfl
      | @letter _ c hp hc =>
        have ho : Scan.openGroup .implicit ps (.name ([c] ++ ['l', 'n'])) =
            some ⟨.group true :: (waiting ps (.name [c]) .times).pending, none⟩ := by
          unfold Scan.openGroup
          rw [Factor.beforeCall?_append (by simp)]
          simp only [hj]
          rfl
        rw [show ['l', 'n', '('] = ['l', 'n'] ++ ['('] from rfl,List.map_append,follow_append,
          run_letters .implicit ps [c] (List.forall_mem_cons.mpr ⟨rfl,List.forall_mem_singleton.mpr rfl⟩),
          Option.bind_some,List.map_singleton,follow_cons,Scan.step_some,
          show ∀ f, Scan.next .implicit ps f (.char '(') = Scan.openGroup .implicit ps f from
            fun f => rfl,ho]
        rfl
    · have hs := h.run_sign ['l', 'n', '(']
      exact hs
    · rw [openGroups_group,openGroups_waiting]

end Linked

/-- What stands between a character and the one in front of it. -/
def signBefore (previous : Option Char) (c : Char) : List Char :=
  if isJuxtaposed previous c then ['*'] else []

/-- A character is read to the same stage with and without a sign in front. -/
structure Step (previous : Option Char) (c : Char) (s : List Char) (m n : Scan) (q : Place)
    (depth : Nat) : Prop where
  implicit : follow (Scan.step .implicit) m ([c].map .char) = some n
  explicit : follow (Scan.step .explicit) m ((signBefore previous c ++ [c]).map .char) = some n
  linked : Linked (some c) s n q
  depth : openGroups n.pending = depth

namespace Linked

variable {previous : Option Char} {s : List Char} {c : Char} {m : Scan} {q : Place}
  {ps : List Pending}

theorem signBefore_letter (h : Linked previous (c :: s) m q) (hc : c.isAlpha = true)
    (hs : previous.any Char.isAlpha = false) :
    signBefore previous c = if m.factor.isSome then ['*'] else [] := by
  have hp : c ≠ '(' := by
    rintro rfl
    cases hc
  have he : isJuxtaposed previous c = previous.any endsFactor := by
    cases previous with
    | none => simp [isJuxtaposed]
    | some p =>
      have hs : p.isAlpha = false := hs
      simp [isJuxtaposed,endsFactor,hc,hp,hs]
  rw [signBefore,he,h.any_endsFactor]

theorem signBefore_group (h : Linked previous ('(' :: s) m q) :
    signBefore previous '(' = if m.factor.isSome then ['*'] else [] := by
  have he : isJuxtaposed previous '(' = previous.any endsFactor := by
    simp [isJuxtaposed,show '('.isAlpha = false from rfl]
  rw [signBefore,he,h.any_endsFactor]

theorem signBefore_other (hc : c.isAlpha = false) (hp : c ≠ '(') : signBefore previous c = [] := by
  simp [signBefore,isJuxtaposed,hc,hp]

theorem step_letter (h : Linked previous (c :: s) m q) (hc : c.isAlpha = true)
    (hs : previous.any Char.isAlpha = false) :
    ∃ n, Step previous c s m n .factor (openGroups m.pending) := by
  have hstart : ∀ ps, Scan.start ps (.char c) = some ⟨ps, some (.name [c])⟩ := fun ps => by
    simp [Scan.start,hc]
  obtain ⟨ps,x⟩ := m
  cases x with
  | none =>
    refine ⟨⟨ps, some (.name [c])⟩,?_,?_,.letter rfl hc,rfl⟩
    · rw [List.map_singleton,follow_cons,Scan.step_none,hstart]
      rfl
    · rw [h.signBefore_letter hc hs]
      exact (Option.bind_eq_some_iff.mpr ⟨_,hstart ps,rfl⟩)
  | some f =>
    have ht : f.takes (.char c) = false := by
      cases h with
      | number hp hd hds hm => exact Token.not_isDigit_of_isLetter (t := .char c) hc
      | letter hp hc => simp [hp,hc] at hs
      | value x hp => rfl
    have hd : (Token.char c).isDigit = false := Token.not_isDigit_of_isLetter (t := .char c) hc
    have ho : (Token.char c).isOperand = true := by simp [Token.isOperand_char,hc]
    refine ⟨⟨(waiting ps f .times).pending, some (.name [c])⟩,?_,?_,.letter rfl hc,
      openGroups_waiting ps f .times⟩
    · rw [List.map_singleton,follow_cons,Scan.step_some,h.next_operand ho hd ht,hstart]
      rfl
    · have hsign := h.run_sign [c]
      rw [h.signBefore_letter hc hs]
      exact hsign.trans (Option.bind_eq_some_iff.mpr ⟨_,hstart _,rfl⟩)

theorem step_digit (h : Linked previous (c :: s) m q) (hc : c.isDigit = true)
    (hs : previous.any (fun p => p.isAlpha || p = ')') = false) :
    ∃ n, Step previous c s m n q.digit (openGroups m.pending) := by
  have ha : c.isAlpha = false := Token.not_isLetter_of_isDigit (t := .char c) hc
  have hp : c ≠ '(' := by
    rintro rfl
    cases hc
  cases h with
  | @operator ps hu hm =>
    have hstart : ∀ style, follow (Scan.step style) ⟨ps, none⟩ ([c].map .char) =
        some ⟨ps, some (.number [c])⟩ := fun style => by
      simp [follow_cons,Scan.step,Scan.start,ha,hc]
    refine ⟨⟨ps, some (.number [c])⟩,hstart .implicit,?_,?_,rfl⟩
    · rw [signBefore_other ha hp]
      exact hstart .explicit
    · exact .number rfl hc (List.forall_mem_singleton.mpr hc) hm
  | @number ps ds d hq hd hds hm =>
    have hrun : ∀ style, follow (Scan.step style) ⟨ps, some (.number ds)⟩ ([c].map .char) =
        some ⟨ps, some (.number (ds ++ [c]))⟩ := fun style => by
      rw [List.map_singleton,follow_cons,Scan.step_some,next_number style ps ds hc]
      rfl
    refine ⟨⟨ps, some (.number (ds ++ [c]))⟩,hrun .implicit,?_,?_,rfl⟩
    · rw [signBefore_other ha hp]
      exact hrun .explicit
    · exact .number rfl hc (by simpa [or_imp,forall_and] using ⟨hds,hc⟩) (by simpa using hm)
  | letter hp hc => simp [hp,hc] at hs
  | value x hp => simp [hp] at hs

theorem step_group (h : Linked previous ('(' :: s) m q) :
    ∃ n, Step previous '(' s m n .operator (openGroups m.pending + 1) := by
  have hlinked : ∀ qs, Linked (some '(') s ⟨.group false :: qs, none⟩ .operator := fun qs =>
    .operator rfl fun hm => by cases hm
  have hsign := h.signBefore_group
  obtain ⟨ps,x⟩ := m
  cases x with
  | none =>
    refine ⟨⟨.group false :: ps, none⟩,rfl,?_,hlinked ps,openGroups_group false ps⟩
    rw [hsign]
    rfl
  | some f =>
    refine ⟨⟨.group false :: (waiting ps f .times).pending, none⟩,?_,?_,hlinked _,?_⟩
    · have hb : f.beforeCall? = none := by
        cases h <;> simp [Factor.beforeCall?]
      have hj : Scan.juxtapose .implicit ps f = some (waiting ps f .times) :=
        h.operate_times .implicit
      have ho : Scan.openGroup .implicit ps f =
          some ⟨.group false :: (waiting ps f .times).pending, none⟩ := by
        unfold Scan.openGroup
        rw [hb]
        simp only [hj]
        rfl
      rw [List.map_singleton,follow_cons,Scan.step_some,
        show Scan.next .implicit ps f (.char '(') = Scan.openGroup .implicit ps f from rfl,ho]
      rfl
    · rw [hsign]
      exact h.run_sign ['(']
    · rw [openGroups_group,openGroups_waiting]

theorem step_close (h : Linked previous (')' :: s) m q) (hf : m.factor.isSome = true)
    (hd : openGroups m.pending ≠ 0) :
    ∃ n, Step previous ')' s m n .factor (openGroups m.pending - 1) := by
  obtain ⟨ps,x⟩ := m
  cases x with
  | none => cases hf
  | some f =>
    obtain ⟨log,qs,hs,ho⟩ := (settle_one ps f).resolve_left fun hz => hd hz.2
    have hclose : ∀ style, follow (Scan.step style) ⟨ps, some f⟩ ([')'].map .char) =
        some ⟨qs, some (.value ((Pending.group log).close (settle 1 ps f).2))⟩ := by
      intro style
      have hc : Scan.closeGroup style ps f =
          some ⟨qs, some (.value ((Pending.group log).close (settle 1 ps f).2))⟩ := by
        have he : settle 1 ps f = (.group log :: qs, (settle 1 ps f).2) := Prod.ext hs rfl
        unfold Scan.closeGroup
        rw [he]
        simp only [h.isWhole style,if_true]
      rw [List.map_singleton,follow_cons,Scan.step_some,
        show Scan.next style ps f (.char ')') = Scan.closeGroup style ps f from rfl,hc]
      rfl
    refine ⟨_,hclose .implicit,?_,.value _ rfl,by simp [ho]⟩
    rw [signBefore_other rfl (by decide)]
    exact hclose .explicit

theorem step_minus (h : Linked previous ('-' :: s) ⟨ps, none⟩ q)
    (hn : negatesLongPower previous ('-' :: s) = false) :
    ∃ n, Step previous '-' s ⟨ps, none⟩ n .operator (openGroups ps) := by
  cases h with
  | operator hu hm =>
    refine ⟨⟨.minus :: ps, none⟩,rfl,?_,.operator rfl fun _ => ?_,?_⟩
    · rw [signBefore_other rfl (by decide)]
      rfl
    · simp only [negatesLongPower,hu,Bool.or_eq_false_iff] at hn
      simpa using hn.1
    · exact openGroups_cons_of_pos (by decide) ps

theorem step_operation {op : BinaryOp} (h : Linked previous (op.symbol :: s) m q)
    (hf : m.factor.isSome = true) :
    ∃ n, Step previous op.symbol s m n .operator (openGroups m.pending) := by
  obtain ⟨ps,x⟩ := m
  cases x with
  | none => cases hf
  | some f =>
    have ho : op = .power → ∃ w, op.symbol :: s = '^' :: w := by
      rintro rfl
      exact ⟨s,rfl⟩
    have hop : ∀ style, follow (Scan.step style) ⟨ps, some f⟩ ([op.symbol].map .char) =
        some (waiting ps f op) := fun style => by
      rw [List.map_singleton,follow_cons,Scan.step_some,Scan.next_sign,h.operate ho]
      rfl
    refine ⟨waiting ps f op,hop .implicit,?_,.operator ?_ fun hm => (by cases hm),
      openGroups_waiting ps f op⟩
    · rw [signBefore_other (by cases op <;> rfl) (by cases op <;> decide)]
      exact hop .explicit
    · cases op <;> rfl

theorem depth?_singleton {t : Token} (h : t.isParenthesis = false) (d : Nat) :
    Fragment.depth? d [t] = some d :=
  Fragment.depth?_flat (Fragment.flat_cons h (List.forall_mem_nil _)) d

theorem depth?_sign (b : Bool) (d : Nat) :
    Fragment.depth? d ((if b then ['*'] else []).map .char) = some d := by
  cases b <;> rfl

theorem isSome_iff (h : Linked previous s m q) : m.factor.isSome = true ↔ q ≠ .operator := by
  cases h <;> simp

theorem step_sign (h : Linked previous (c :: s) m q) (ha : c.isAlpha = false)
    (hd : c.isDigit = false) (hopen : c ≠ '(') (hclose : c ≠ ')')
    (hn : negatesLongPower previous (c :: s) = false) {q' : Place}
    (hq : q.next (.char c) = some q') :
    ∃ n, Step previous c s m n q' (openGroups m.pending) := by
  obtain ⟨ps,x⟩ := m
  have hs : x.isSome = true ↔ q ≠ .operator := h.isSome_iff
  cases x with
  | none =>
    have ho : q = .operator := by
      by_contra ho
      cases hs.mpr ho
    subst ho
    have hc : c = '-' := by
      by_contra hc
      simp [Place.next,ha,hd,hopen,hclose,hc] at hq
    subst hc
    cases hq
    exact h.step_minus hn
  | some f =>
    have ho : q ≠ .operator := hs.mp rfl
    have hop : ∃ op, BinaryOp.ofSymbol? c = some op ∧ q' = .operator := by
      by_cases hc : c = '-'
      · subst hc
        cases hq
        exact ⟨.minus,rfl,rfl⟩
      · simp only [Place.next,ha,hd,hopen,hclose,hc,ho,or_self,if_false,Bool.false_eq_true] at hq
        obtain ⟨op,hop,hq⟩ := Option.map_eq_some_iff.mp hq
        exact ⟨op,hop,hq.symm⟩
    obtain ⟨op,hop,rfl⟩ := hop
    have hsym := BinaryOp.symbol_of_ofSymbol? hop
    subst hsym
    exact h.step_operation rfl

theorem step_close_of_next (h : Linked previous (')' :: s) m q) {q' : Place} {d : Nat}
    (hq : q.next (.char ')') = some q')
    (hd : Fragment.depth? (openGroups m.pending) [.char ')'] = some d) :
    ∃ n, Step previous ')' s m n q' d := by
  have hcomplete : q.isComplete = true := by
    by_contra hc
    simp [Place.next,hc,show ')'.isAlpha = false from rfl,show ')'.isDigit = false from rfl] at hq
  have hpos : openGroups m.pending ≠ 0 := by
    intro hz
    rw [hz] at hd
    cases hd
  have hf : m.factor.isSome = true := h.isSome_iff.mpr (by rintro rfl; cases hcomplete)
  simp only [Place.next,show ')'.isAlpha = false from rfl,show ')'.isDigit = false from rfl,
    hcomplete] at hq
  simp only [Fragment.depth?_cons,if_neg hpos] at hd
  cases hq
  cases hd
  exact h.step_close hf hpos

theorem exists_step (h : Linked previous (c :: s) m q)
    (hdigit : (c.isDigit && previous.any (fun p => p.isAlpha || p = ')')) = false)
    (hletter : (c.isAlpha && previous.any Char.isAlpha) = false)
    (hn : negatesLongPower previous (c :: s) = false) {q' : Place} {d : Nat}
    (hq : follow Place.next q ((signBefore previous c ++ [c]).map .char) = some q')
    (hd : Fragment.depth? (openGroups m.pending) ((signBefore previous c ++ [c]).map .char) = some d) :
    ∃ n, Step previous c s m n q' d := by
  rw [List.map_append,follow_append] at hq
  obtain ⟨p,hp,hq⟩ := Option.bind_eq_some_iff.mp hq
  rw [List.map_singleton,follow_cons] at hq
  obtain ⟨r,hr,hq⟩ := Option.bind_eq_some_iff.mp hq
  cases hq
  rw [List.map_append,Fragment.depth?_append,signBefore,depth?_sign,Option.bind_some,
    List.map_singleton] at hd
  by_cases hopen : c = '('
  · subst hopen
    cases hr
    cases hd
    exact h.step_group
  · by_cases ha : c.isAlpha = true
    · rw [Place.next_letter (t := .char c) ha] at hr
      cases hr
      rw [depth?_singleton (Token.not_isParenthesis_of_isOperand
        (by simp [Token.isOperand_char,ha]))] at hd
      cases hd
      exact h.step_letter ha (by simpa [ha] using hletter)
    · have ha : c.isAlpha = false := by simpa using ha
      rw [signBefore_other ha hopen] at hp
      cases hp
      by_cases hdg : c.isDigit = true
      · rw [Place.next_digit (t := .char c) hdg] at hr
        cases hr
        rw [depth?_singleton (Token.not_isParenthesis_of_isOperand
          (by simp [Token.isOperand_char,hdg]))] at hd
        cases hd
        exact h.step_digit hdg (by simpa [hdg] using hdigit)
      · have hdg : c.isDigit = false := by simpa using hdg
        by_cases hclose : c = ')'
        · subst hclose
          exact h.step_close_of_next hr hd
        · have hpar : (Token.char c).isParenthesis = false := by
            simp [Token.isParenthesis,hopen,hclose]
          rw [depth?_singleton hpar] at hd
          cases hd
          exact h.step_sign ha hdg hopen hclose hn hr

theorem agree_nil (h : Linked previous [] m q) (hf : m.factor.isSome = true)
    (hz : openGroups m.pending = 0) : Agree m [] [] := by
  obtain ⟨ps,x⟩ := m
  cases x with
  | none => cases hf
  | some f =>
    have hs : (settle 1 ps f).1 = [] := by
      rcases settle_one ps f with hs | ⟨log,qs,-,ho⟩
      · exact hs.1
      · rw [show openGroups ps = 0 from hz] at ho
        cases ho
    have he : settle 1 ps f = ([], (settle 1 ps f).2) := Prod.ext hs rfl
    have hfin : ∀ style, Scan.finish style ⟨ps, some f⟩ = some (settle 1 ps f).2.value? := by
      intro style
      simp only [Scan.finish]
      rw [he]
      simp only [h.isWhole style,if_true]
    exact ⟨_,hfin .implicit,hfin .explicit⟩

end Linked

/-- A text with signs and the same text without them are read to the same value, if
operands and groups of the text with signs are complete. -/
theorem agree_star {previous : Option Char} {s : List Char} {m : Scan} {q : Place}
    (h : Linked previous s m q) (hs : isSpaced previous s = true)
    (hn : negatesLongPower previous s = false)
    (hq : ∃ r, follow Place.next q ((star previous s).map .char) = some r ∧ r.isComplete = true)
    (hd : Fragment.depth? (openGroups m.pending) ((star previous s).map .char) = some 0) :
    Agree m s (star previous s) := by
  obtain ⟨r,hq,hr⟩ := hq
  fun_induction star previous s generalizing m q with
  | case1 previous s ih =>
    obtain ⟨n,hi,he,hl,ho⟩ := h.run_call
    rw [List.map_append,follow_append] at hq
    obtain ⟨p,-,hq⟩ := Option.bind_eq_some_iff.mp hq
    rw [List.map_append,Fragment.depth?_append,Linked.depth?_sign,Option.bind_some] at hd
    simp only [negatesLongPower,Bool.or_eq_false_iff] at hn
    have hq : follow Place.next .operator ((star (some '(') s).map .char) = some r := hq
    have hd : Fragment.depth? (openGroups n.pending) ((star (some '(') s).map .char) = some 0 := by
      rw [ho]
      exact hd
    have hrest : Agree n s (star (some '(') s) := ih hl hs hn.2.2.2 hd hq
    simpa using hrest.step hi he
  | case2 previous c s hcall ih =>
    simp only [isSpaced,Bool.and_eq_true,Bool.not_eq_true'] at hs
    obtain ⟨⟨hdigit,hletter⟩,hs⟩ := hs
    have hsplit : (if isJuxtaposed previous c then ['*'] else []) ++ c :: star (some c) s =
        (signBefore previous c ++ [c]) ++ star (some c) s := by
      simp [signBefore]
    rw [hsplit,List.map_append] at hq hd
    rw [follow_append] at hq
    rw [Fragment.depth?_append] at hd
    obtain ⟨p,hp,hq⟩ := Option.bind_eq_some_iff.mp hq
    obtain ⟨d,hdepth,hd⟩ := Option.bind_eq_some_iff.mp hd
    obtain ⟨n,hstep⟩ := h.exists_step hdigit hletter hn hp hdepth
    rw [negatesLongPower,Bool.or_eq_false_iff] at hn
    have hrest : Agree n s (star (some c) s) :=
      ih hstep.linked hs hn.2 (by rw [hstep.depth]; exact hd) hq
    rw [hsplit]
    exact hrest.step hstep.implicit hstep.explicit
  | case3 previous =>
    cases hq
    have hf : m.factor.isSome = true := h.isSome_iff.mpr (by rintro rfl; cases hr)
    exact h.agree_nil hf (by simpa [Fragment.depth?] using hd)

end Fluxion.Formula
