import Fluxion.Proofs.Form
import Fluxion.Proofs.Scan

/-! What a scan knows about the text behind it. The last token tells whether an operand
is expected, and the top of the stack tells the sign that is waiting for it. -/
namespace Fluxion

theorem BinaryOp.level_pos (op : BinaryOp) : 0 < op.level := by
  cases op <;> decide

namespace Formula

theorem Token.isLetter_char (c : Char) : (Token.char c).isLetter = c.isAlpha := rfl

theorem Token.isDigit_char (c : Char) : (Token.char c).isDigit = c.isDigit := rfl

theorem Token.isOperand_char {c : Char} :
    (Token.char c).isOperand = (c.isAlpha || c.isDigit) := by
  simp [Token.isOperand,Token.isLetter,Token.isDigit,Token.isReference]

theorem Token.cases_flat {t : Token} (h : t.isParenthesis = false) :
    t.isOperand = true ∨ (∃ op : BinaryOp, t = .char op.symbol) ∨
      ∃ c : Char, t = .char c ∧ c.isAlpha = false ∧ c.isDigit = false ∧ c ≠ '(' ∧ c ≠ ')' ∧
        BinaryOp.ofSymbol? c = none := by
  cases t with
  | ref i a => exact .inl rfl
  | char c =>
    cases ho : (Token.char c).isOperand with
    | true => exact .inl rfl
    | false =>
      simp only [Token.isOperand_char,Bool.or_eq_false_iff] at ho
      simp only [Token.isParenthesis,Bool.or_eq_false_iff,decide_eq_false_iff_not] at h
      cases hs : BinaryOp.ofSymbol? c with
      | some op => exact .inr (.inl ⟨op,by rw [BinaryOp.symbol_of_ofSymbol? hs]⟩)
      | none => exact .inr (.inr ⟨c,rfl,ho.1,ho.2,h.1,h.2,hs⟩)

namespace Factor

/-- Whether the factor is a run that a token goes on with. -/
def takes : Factor → Token → Bool
  | number _, t => t.isDigit
  | name _, t => t.isLetter
  | value _, _ => false

end Factor

namespace Scan

variable {style : Style} {ps : List Pending} {f : Factor} {s s' : Scan} {t : Token}

@[simp] theorem step_none (ps : List Pending) (t : Token) :
    step style ⟨ps, none⟩ t = start ps t := rfl

@[simp] theorem step_some (ps : List Pending) (f : Factor) (t : Token) :
    step style ⟨ps, some f⟩ t = next style ps f t := rfl

theorem start_sign (op : BinaryOp) (ps : List Pending) :
    start ps (.char op.symbol) = if op = .minus then some ⟨.minus :: ps, none⟩ else none := by
  cases op <;> rfl

theorem next_sign (op : BinaryOp) (ps : List Pending) (f : Factor) :
    next style ps f (.char op.symbol) = operate style ps f op := by
  cases op <;> rfl

theorem start_operand (h : t.isOperand = true) (ps : List Pending) :
    ∃ f, start ps t = some ⟨ps, some f⟩ := by
  cases t with
  | ref i a => exact ⟨_,rfl⟩
  | char c =>
    rw [Token.isOperand_char,Bool.or_eq_true] at h
    simp only [start]
    split
    · exact ⟨_,rfl⟩
    · rw [if_pos (by simpa [*] using h)]
      exact ⟨_,rfl⟩

theorem start_eq_some (h : start ps t = some s) (hf : t.isParenthesis = false) :
    (t.isOperand = true ∧ s.pending = ps ∧ ∃ f, s.factor = some f) ∨
      t = .char '-' ∧ s = ⟨.minus :: ps, none⟩ := by
  rcases Token.cases_flat hf with ho | ⟨op,rfl⟩ | ⟨c,rfl,ha,hd,hp,-,hs⟩
  · obtain ⟨f,hs⟩ := start_operand ho ps
    rw [hs] at h
    cases h
    exact .inl ⟨ho,rfl,f,rfl⟩
  · rw [start_sign] at h
    split at h
    · rename_i hop
      subst hop
      cases h
      exact .inr ⟨rfl,rfl⟩
    · cases h
  · have hm : c ≠ '-' := by
      rintro rfl
      cases hs
    simp [start,ha,hd,hp,hm] at h

theorem operate_eq_some {op : BinaryOp} (h : operate style ps f op = some s) :
    s = ⟨.operation op (settle op.level ps f).2.value? :: (settle op.level ps f).1, none⟩ ∧
      f.isWhole style = true ∧
      ¬(op = .power ∧ f.isLong = true ∧ ps.head?.any Pending.isMinus = true) := by
  simp only [operate] at h
  split at h
  · rename_i hc
    cases h
    exact ⟨rfl,hc⟩
  · cases h

theorem juxtapose_eq_some (h : juxtapose style ps f = some s) :
    style = .implicit ∧
      s = ⟨.operation .times (settle 2 ps f).2.value? :: (settle 2 ps f).1, none⟩ ∧
      f.isWhole style = true := by
  cases style with
  | explicit => cases h
  | implicit =>
    obtain ⟨hs,hw,-⟩ := operate_eq_some h
    exact ⟨rfl,hs,hw⟩

/-- Behind a factor there is more of its run, a factor of a product or a sign. -/
theorem next_eq_some (h : next style ps f t = some s) (hf : t.isParenthesis = false) :
    (f.takes t = true ∧ s.pending = ps ∧ ∃ g, s.factor = some g) ∨
      (t.isOperand = true ∧ t.isDigit = false ∧ f.takes t = false ∧
        ∃ m, juxtapose style ps f = some m ∧ start m.pending t = some s) ∨
      ∃ op : BinaryOp, t = .char op.symbol ∧ operate style ps f op = some s := by
  cases t with
  | ref i a =>
    simp only [next] at h
    obtain ⟨m,hm,hs⟩ := Option.bind_eq_some_iff.mp h
    exact .inr (.inl ⟨rfl,rfl,by cases f <;> rfl,m,hm,hs⟩)
  | char c =>
    simp only [next] at h
    split at h
    · rename_i hd
      split at h
      · cases h
        exact .inl ⟨hd,rfl,_,rfl⟩
      · cases h
    · rename_i hd
      have hd : c.isDigit = false := by simpa using hd
      split at h
      · rename_i ha
        have ho : (Token.char c).isOperand = true := by simp [Token.isOperand_char,ha]
        cases f with
        | name letters =>
          cases h
          exact .inl ⟨ha,rfl,_,rfl⟩
        | number digits =>
          obtain ⟨m,hm,hs⟩ := Option.bind_eq_some_iff.mp h
          exact .inr (.inl ⟨ho,hd,hd,m,hm,hs⟩)
        | value e =>
          obtain ⟨m,hm,hs⟩ := Option.bind_eq_some_iff.mp h
          exact .inr (.inl ⟨ho,hd,rfl,m,hm,hs⟩)
      · simp only [Token.isParenthesis,Bool.or_eq_false_iff,decide_eq_false_iff_not] at hf
        rw [if_neg hf.1,if_neg hf.2] at h
        obtain ⟨op,hop,hs⟩ := Option.bind_eq_some_iff.mp h
        exact .inr (.inr ⟨op,by rw [BinaryOp.symbol_of_ofSymbol? hop],hs⟩)

theorem isOperand_of_takes (h : f.takes t = true) : t.isOperand = true := by
  cases f with
  | number digits => simp [Token.isOperand,show t.isDigit = true from h]
  | name letters => simp [Token.isOperand,show t.isLetter = true from h]
  | value e => cases h

theorem not_isOperand_symbol (op : BinaryOp) : (Token.char op.symbol).isOperand = false := by
  cases op <;> rfl

theorem isSome_factor_start (h : start ps t = some s) (hf : t.isParenthesis = false) :
    s.factor.isSome = t.isOperand := by
  rcases start_eq_some h hf with ⟨ho,-,f,hs⟩ | ⟨rfl,rfl⟩
  · rw [hs,ho]; rfl
  · rfl

theorem isSome_factor_step (h : s.step style t = some s') (hf : t.isParenthesis = false) :
    s'.factor.isSome = t.isOperand := by
  obtain ⟨ps,x⟩ := s
  cases x with
  | none => exact isSome_factor_start h hf
  | some f =>
    rcases next_eq_some h hf with ⟨ht,-,g,hs⟩ | ⟨-,-,-,m,-,hs⟩ | ⟨op,rfl,hs⟩
    · rw [hs,isOperand_of_takes ht]; rfl
    · exact isSome_factor_start hs hf
    · rw [(operate_eq_some hs).1,not_isOperand_symbol]; rfl

end Scan

def Fragment.endsOperand (u : Fragment) : Bool := u.getLast?.any Token.isOperand

theorem Fragment.eq_concat_of_endsOperand {u : Fragment} (h : u.endsOperand = true) :
    ∃ v c, u = v ++ [c] ∧ c.isOperand = true := by
  rcases List.eq_nil_or_concat' u with rfl | ⟨v,c,rfl⟩
  · cases h
  · exact ⟨v,c,rfl,by simpa [endsOperand] using h⟩

theorem Scan.isSome_factor_run {style : Style} {u : Fragment} {s : Scan}
    (h : follow (Scan.step style) Scan.init u = some s) (hf : u.Flat) :
    s.factor.isSome = u.endsOperand := by
  rcases List.eq_nil_or_concat' u with rfl | ⟨u,t,rfl⟩
  · cases h; rfl
  · obtain ⟨m,-,ht⟩ := follow_concat_eq_some h
    rw [isSome_factor_step ht (hf t (by simp))]
    simp [Fragment.endsOperand]

/-- Where an operand is expected: at the start, behind a minus of its own or behind a
sign that has an operand in front. The stack shows which. -/
inductive Scan.Context : Fragment → List Pending → Prop
  | start : Context [] []
  | minus {u : Fragment} (hu : ∀ t ∈ u.getLast?, t.isOperator = true) (ps : List Pending) :
    Context (u ++ [.char '-']) (.minus :: ps)
  | operation (op : BinaryOp) (u : Fragment) {c : Token} (hc : c.isOperand = true)
    (x : Option Expr) {ps : List Pending} (hp : ∀ p ∈ ps.head?, p.level < op.level) :
    Context (u ++ [c] ++ [.char op.symbol]) (.operation op x :: ps)

namespace Scan

variable {style : Style} {u : Fragment} {s : Scan}

theorem isOperator_of_expected (h : follow (Scan.step style) init u = some s) (hf : u.Flat)
    (hn : s.factor = none) : ∀ t ∈ u.getLast?, t.isOperator = true := by
  intro t ht
  obtain ⟨u,rfl⟩ : ∃ v, u = v ++ [t] := ⟨u.dropLast,(List.dropLast_append_getLast? t ht).symm⟩
  obtain ⟨⟨ps,x⟩,-,hs⟩ := follow_concat_eq_some h
  have hp := hf t (by simp)
  cases x with
  | none =>
    rcases start_eq_some hs hp with ⟨-,-,f,hf⟩ | ⟨rfl,-⟩
    · rw [hn] at hf; cases hf
    · rfl
  | some f =>
    rcases next_eq_some hs hp with ⟨-,-,g,hg⟩ | ⟨ho,-,-,m,-,hm⟩ | ⟨op,rfl,-⟩
    · rw [hn] at hg; cases hg
    · have := isSome_factor_start hm hp
      simp [hn,ho] at this
    · cases op <;> rfl

/-- The stack where an operand is expected. -/
theorem context_of_run (h : follow (step style) init u = some s) (hf : u.Flat)
    (hn : s.factor = none) :
    Context u s.pending := by
  rcases List.eq_nil_or_concat' u with rfl | ⟨u,t,rfl⟩
  · cases h; exact .start
  · obtain ⟨⟨ps,x⟩,hu,hs⟩ := follow_concat_eq_some h
    have hp := hf t (by simp)
    have hfu : Fragment.Flat u := fun v hv => hf v (by simp [hv])
    cases x with
    | none =>
      rcases start_eq_some hs hp with ⟨-,-,f,hf⟩ | ⟨rfl,rfl⟩
      · rw [hn] at hf; cases hf
      · exact .minus (isOperator_of_expected hu hfu rfl) ps
    | some f =>
      have he := isSome_factor_run hu hfu
      rcases next_eq_some hs hp with ⟨-,-,g,hg⟩ | ⟨ho,-,-,m,-,hm⟩ | ⟨op,rfl,ho⟩
      · rw [hn] at hg; cases hg
      · have := isSome_factor_start hm hp
        simp [hn,ho] at this
      · obtain ⟨u,c,rfl,hco⟩ := Fragment.eq_concat_of_endsOperand he.symm
        obtain ⟨rfl,-,-⟩ := operate_eq_some ho
        exact .operation op u hco _ (level_head_settle ps f)

end Scan
end Formula
end Fluxion
