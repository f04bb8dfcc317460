import Fluxion.Expr.Basic
import Fluxion.Proofs.Built
import Fluxion.Proofs.Precedence

/-! Printing and reading again. In the text of an expression every operand is a group of
its own, so whatever the operation is, the phrases of the grammar fit. -/
namespace Fluxion.Formula

namespace Phrase

variable {s : List Char} {t : Expr}

theorem reads_signed (h : ReadsPrimary s t) : Reads .signed s t := reads_tower (reads_base h)

theorem reads_sum_of_signed (h : Reads .signed s t) : Reads .sum s t := by
  intro ps hp
  have hp' : ∀ p ∈ ps.head?, p.level < 2 := fun p hq => (hp p hq).trans (by decide)
  exact (reads_single h ps hp').weaken (by decide)

theorem reads_negated_group (h : Reads .sum s t) :
    Reads .negative ('-' :: '(' :: s ++ [')']) (.neg t) := by
  refine reads_negate (reads_signed (reads_group h)) ⟨'(',by simp,rfl⟩ ?_
  simp [isLongPower]

theorem reads_int (v : Int64) : Reads .sum (Decimal.ofInt v.toInt) (.const v) := by
  have hd : ∀ c ∈ Decimal.ofNat v.toInt.natAbs, c.isDigit = true := fun c hc =>
    Decimal.isDigit_of_mem_ofNat hc
  have hn := Decimal.ofNat_ne_nil v.toInt.natAbs
  by_cases hv : v.toInt < 0
  · rw [Decimal.ofInt_of_neg hv]
    refine reads_sum_of_signed fun ps _ _ => reads_literal hn hd ?_ ps
    rw [Decimal.toNat_ofNat]
    omega
  · rw [Decimal.ofInt_of_nonneg (Int.not_lt.mp hv)]
    refine reads_sum_of_signed (reads_signed (reads_number hn hd ?_))
    rw [Decimal.toNat_ofNat]
    omega

theorem reads_operation {a b : Expr} (op : BinaryOp) (hz : ¬(op = .divide ∧ b = .const 0))
    (ha : Reads .sum a.chars a) (hb : Reads .sum b.chars b) :
    Reads .sum (Expr.binary op a b).chars (.binary op a b) := by
  have hl := reads_group ha
  have hr := reads_group hb
  have hc : (Expr.binary op a b).chars =
      ('(' :: a.chars ++ [')']) ++ op.symbol :: ('(' :: b.chars ++ [')']) := by
    simp [Expr.chars]
  have left : Reads .product ('(' :: a.chars ++ [')']) a := reads_single (reads_signed hl)
  have right : Reads .product ('(' :: b.chars ++ [')']) b := reads_single (reads_signed hr)
  have sum : op = .plus ∨ op = .minus → Reads .sum (Expr.binary op a b).chars (.binary op a b) := by
    intro ho
    rw [hc]
    exact reads_sum ho (reads_sum_of_signed (reads_signed hl)) right
  have product : op = .times ∨ op = .divide →
      Reads .sum (Expr.binary op a b).chars (.binary op a b) := by
    intro ho ps hp
    rw [hc]
    have hp' : ∀ p ∈ ps.head?, p.level < 2 := fun p hq => (hp p hq).trans (by decide)
    have hd := reads_product ho left (reads_signed hr) fun h hb => hz ⟨h,hb⟩
    exact (hd ps hp').weaken (by decide)
  cases op with
  | plus => exact sum (.inl rfl)
  | minus => exact sum (.inr rfl)
  | times => exact product (.inl rfl)
  | divide => exact product (.inr rfl)
  | power =>
    rw [hc]
    exact reads_sum_of_signed (reads_tower (reads_power (reads_base hl) hr))

end Phrase

variable {e : Expr}

theorem reads_chars (h : e.Writable) : Phrase.Reads .sum e.chars e := by
  induction e with
  | const v => exact Phrase.reads_int v
  | var name =>
    obtain ⟨hn,hc⟩ := h.lettered name (by simp [Expr.occurrences])
    have hp := Phrase.reads_name (by simpa using hn) hc
    rw [String.ofList_toList] at hp
    exact Phrase.reads_sum_of_signed (Phrase.reads_signed hp)
  | neg a ih =>
    have ha := ih ⟨h.proper,h.lettered⟩
    exact Phrase.reads_sum_of_signed fun ps _ _ => Phrase.reads_negated_group ha ps
  | binary op a b iha ihb => exact Phrase.reads_operation op h.proper.2.2 (iha h.left) (ihb h.right)
  | ln a ih =>
    have ha := ih ⟨h.proper,h.lettered⟩
    exact Phrase.reads_sum_of_signed (Phrase.reads_signed (Phrase.reads_logarithm ha))

theorem isAllowed_chars (h : e.Lettered) : ∀ c ∈ e.chars, isAllowed c = true := by
  have digit : ∀ {n : Nat} {c : Char}, c ∈ Decimal.ofNat n → isAllowed c = true := fun hc =>
    isAllowed_of_isDigit (Decimal.isDigit_of_mem_ofNat hc)
  induction e with
  | const v =>
    intro c hc
    by_cases hv : v.toInt < 0
    · rw [Expr.chars,Decimal.ofInt_of_neg hv] at hc
      rcases List.mem_cons.mp hc with rfl | hc
      · rfl
      · exact digit hc
    · rw [Expr.chars,Decimal.ofInt_of_nonneg (Int.not_lt.mp hv)] at hc
      exact digit hc
  | var name =>
    intro c hc
    exact isAllowed_of_isAlpha ((h name (by simp [Expr.occurrences])).2 c hc)
  | neg a ih =>
    have ha := ih h
    simpa [Expr.chars,or_imp,forall_and] using ⟨rfl,rfl,ha,rfl⟩
  | ln a ih =>
    have ha := ih h
    simpa [Expr.chars,or_imp,forall_and] using ⟨rfl,rfl,rfl,ha,rfl⟩
  | binary op a b iha ihb =>
    have ha := iha h.left
    have hb := ihb h.right
    simpa [Expr.chars,or_imp,forall_and] using
      ⟨rfl,ha,rfl,isAllowed_symbol op,rfl,hb,rfl⟩

theorem parse_text_of_writable (h : e.Writable) : parse e.text = .ok e := by
  refine parse_eq_ok_iff.mpr ⟨by simpa using isAllowed_chars h.lettered,?_⟩
  have hs := scan?_of_delivers (reads_chars h [] (by simp))
  rw [Fragment.ofString,Expr.toList_text]
  exact Fragment.parsed?_of_scan? hs

/-- Printing and reading give the same expression back: for everything that can be built
with names that are runs of letters, and so for what has been read from a formula and for
all of its derivatives. -/
theorem parse_text :
    (∀ e : Expr, e.Built → e.Lettered → parse e.text = .ok e) ∧
      ∀ (s : String) (e : Expr), parse s = .ok e →
        parse e.text = .ok e ∧
          ∀ (n : Nat) (d : Expr), e.nthDerivative n = .ok d → parse d.text = .ok d := by
  refine ⟨fun e hb hl => parse_text_of_writable ⟨hb.proper,hl⟩,fun s e hs => ?_⟩
  have he := writable_of_parse hs
  exact ⟨parse_text_of_writable he,fun n d hd => parse_text_of_writable (he.nthDerivative hd)⟩

theorem parse_text_quotient :
    parse (Expr.binary .divide (.const Int64.minValue) (.var "ln")).text =
        .ok (.binary .divide (.const Int64.minValue) (.var "ln")) ∧
      parse (Expr.binary .divide (.binary .minus (.binary .times (.const 0) (.var "ln"))
          (.binary .times (.const Int64.minValue) (.const 1)))
        (.binary .power (.var "ln") (.const 2))).text =
        .ok (.binary .divide (.binary .minus (.binary .times (.const 0) (.var "ln"))
          (.binary .times (.const Int64.minValue) (.const 1)))
        (.binary .power (.var "ln") (.const 2))) := by
  have hb : (Expr.binary .divide (.const Int64.minValue) (.var "ln")).Built :=
    .divide (.constant Int64.minValue) (.named "ln") rfl
  have hl : (Expr.binary .divide (.const Int64.minValue) (.var "ln")).Lettered := by
    intro name hn
    cases List.mem_singleton.mp hn
    have hs : "ln".toList = ['l', 'n'] := by decide
    refine ⟨by decide,?_⟩
    rw [hs]
    exact List.forall_mem_cons.mpr ⟨rfl,List.forall_mem_singleton.mpr rfl⟩
  have hp := parse_text.1 _ hb hl
  exact ⟨hp,(parse_text.2 _ _ hp).2 1 _ rfl⟩

end Fluxion.Formula
