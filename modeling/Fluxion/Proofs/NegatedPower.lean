import Fluxion.Proofs.Precedence
import Fluxion.Proofs.Runs
import Fluxion.Proofs.Spelling

/-! A minus in front of a power of a number. It waits for the power if the number is a single
digit; of a longer number it takes all digits but the last, which is left to the power. -/
namespace Fluxion.Formula

section Steps

variable {ds : List Char} {d : Char} {b : Fragment}

theorem parsed?_minus_digit_power (hd : d.isDigit = true) (hb : b.Operand) :
    Fragment.parsed? (.char '-' :: .char d :: .char '^' :: b) =
      (Expr.join? .power ((integer? false [d]).map .const) b.assembled?).map .neg := by
  obtain ⟨f,hf⟩ := hb.reads
  have hl : d.isAlpha = false := Token.not_isLetter_of_isDigit (t := .char d) hd
  have hr : follow (Scan.step .explicit) .init [.char '-', .char d, .char '^'] =
      some ⟨[.operation .power ((integer? false [d]).map .const), .minus], none⟩ := by
    simp [follow_cons,Scan.step,Scan.init,Scan.start,hd,hl]
    rfl
  have hrun : follow (Scan.step .explicit) .init (.char '-' :: .char d :: .char '^' :: b) =
      some ⟨[.operation .power ((integer? false [d]).map .const), .minus], some f⟩ := by
    have ha := follow_append (Scan.step .explicit) .init [.char '-', .char d, .char '^'] b
    rw [hr,Option.bind_some,hf.run] at ha
    exact ha
  refine Fragment.parsed?_of_scan? (Fragment.scan?_eq_some.mpr ⟨_,hrun,?_⟩)
  rw [← hf.value]
  cases f <;> rfl

theorem first?_power_behind_reference (hd : d.isDigit = true) (hb : b.Operand) (i : Nat)
    (x : Fragment) : Tier.first? ([.ref i x] ++ (.char d :: .char '^' :: b)) =
      some (.power, ⟨[.ref i x], .char d :: .char '^' :: b, []⟩) := by
  have hdo : Fragment.Operand [.char d] := .singleton (by simp [Token.isOperand_char,hd])
  have hm : Tier.power.match? (some (.ref i x)) (.char d :: .char '^' :: b) =
      some (.char d :: .char '^' :: b, []) :=
    (Tier.Match.operation .power hdo hb (Fragment.Operand.ends_nil b)).match?_self
  have hsigned : Fragment.Signed ['^'] ([.ref i x] ++ (.char d :: .char '^' :: b)) := by
    refine Fragment.signed_append.mpr ⟨(Fragment.Operand.reference i x).signed _,?_⟩
    exact Fragment.signed_append.mpr ⟨hdo.signed _,(hb.signed _).cons (by decide)⟩
  have hne : d ≠ '^' := by
    rintro rfl
    cases hd
  have hnone : Tier.power.match? none ([.ref i x] ++ (.char d :: .char '^' :: b)) = none :=
    Pattern.operation_eq_none (.reference i x) (Fragment.reference_ends i x _) (by simpa using hne)
  have hleft : ∀ u v, [Token.ref i x] = u ++ v → v ≠ [] →
      Tier.power.match? u.getLast? (v ++ (.char d :: .char '^' :: b)) = none := by
    intro u v hu hv
    obtain ⟨rfl,rfl⟩ : u = [] ∧ v = [.ref i x] := by
      cases u <;> simp_all
    exact hnone
  exact Tier.first?_of_match hm hleft (Tier.nowhere_above hsigned
    (by simp [Tier.above,Tier.all,Tier.signs]) (by decide) (by decide))

/-- A minus takes all digits but the last, and the last one is the base of the power. -/
theorem parsed?_minus_digits_power (hn : ds ≠ []) (hds : ∀ c ∈ ds, c.isDigit = true)
    (hd : d.isDigit = true) (hb : b.Operand) :
    Fragment.parsed? (.char '-' :: (ds.map .char ++ .char d :: .char '^' :: b)) =
      Expr.join? .times ((integer? true ds).map .const)
        (Expr.join? .power ((integer? false [d]).map .const) b.assembled?) := by
  have hdo : Fragment.Operand [.char d] := .singleton (by simp [Token.isOperand_char,hd])
  have hrun : Fragment.Operand (ds.map .char ++ [.char d]) := by
    rw [← List.map_singleton,← List.map_append]
    exact .number (by simp) (List.forall_mem_append.mpr ⟨hds,List.forall_mem_singleton.mpr hd⟩)
  have hm : Tier.negation.match? none (.char '-' :: ds.map .char ++ .char d :: .char '^' :: b) =
      some (.char '-' :: ds.map .char, .char d :: .char '^' :: b) := by
    have ho := Tier.operand_sign hrun (c := '^') rfl b
    rw [List.append_assoc,List.singleton_append] at ho
    have hl : ds.map Token.char ≠ [] := by simpa using hn
    rw [Tier.match?,List.cons_append,Tier.pattern,Pattern.negation,ho]
    simp [hl,Tier.allowedAfter]
  have hsigned : Fragment.Signed ['-', '^']
      (.char '-' :: ds.map .char ++ .char d :: .char '^' :: b) := by
    refine Fragment.Signed.cons (Fragment.signed_append.mpr ⟨?_,?_⟩) (by simp)
    · exact (Fragment.Operand.number hn hds).signed _
    · exact Fragment.signed_append.mpr ⟨hdo.signed _,(hb.signed _).cons (by simp)⟩
  have hfirst : Tier.first? (.char '-' :: (ds.map .char ++ .char d :: .char '^' :: b)) =
      some (.negation, ⟨[], .char '-' :: ds.map .char, .char d :: .char '^' :: b⟩) :=
    Tier.first?_of_start hm (Tier.nowhere_above hsigned
      (by simp [Tier.above,Tier.all,Tier.signs]) (by decide) (by decide))
  have hdigit : Fragment.assembled? [.char d] = (integer? false [d]).map .const :=
    Fragment.assembled?_number (List.cons_ne_nil d []) (List.forall_mem_singleton.mpr hd)
  have hpower : Fragment.assembled? (.char d :: .char '^' :: b) =
      Expr.join? .power ((integer? false [d]).map .const) b.assembled? :=
    hdigit ▸ Fragment.assembled?_operation .power hdo hb
  rw [Fragment.parsed?_of_some hfirst 0,Site.replace,List.nil_append,← List.singleton_append,
    Fragment.parsed?_of_some (first?_power_behind_reference hd hb 0 _) 0,Site.replace,
    List.singleton_append,parsed?_juxtaposition,Fragment.assembled?_minus_number hn hds,hpower]

end Steps

/-- What an exponent is as it is written: digits, letters, or a group that can be read. -/
inductive Exponent : List Char → Prop
  | number {ds : List Char} (hn : ds ≠ []) (hd : ∀ c ∈ ds, c.isDigit = true) : Exponent ds
  | name {cs : List Char} (hn : cs ≠ []) (hc : ∀ c ∈ cs, c.isAlpha = true) : Exponent cs
  | group {t : String} {T : Expr} (h : parse t = .ok T) : Exponent ('(' :: (t.toList ++ [')']))

theorem exists_integer? (negative : Bool) {ds : List Char} (v : Int64)
    (h : (Decimal.toNat ds : Int) ≤ v.toInt) : ∃ u, integer? negative ds = some u := by
  have hmax := Int64.toInt_le v
  have hmin : Int64.minValue.toInt ≤ -Int64.maxValue.toInt := by decide
  have hzero : Int64.minValue.toInt ≤ 0 := by decide
  refine ⟨_,if_pos ?_⟩
  cases negative with
  | false => exact ⟨hzero.trans (Int.natCast_nonneg _),h.trans hmax⟩
  | true =>
    simp only [if_true]
    omega

section Front

variable {s q : List Char} {Q : Expr}

theorem Framed.append {skeleton : Fragment} (h : Framed q skeleton)
    (hs : ∀ c ∈ s, c.isDigit = true ∨ ∃ op : BinaryOp, c = op.symbol) :
    Framed (s ++ q) (s.map .char ++ skeleton) := by
  induction s with
  | nil => exact h
  | cons c s ih =>
    obtain ⟨hc,hs⟩ := List.forall_mem_cons.mp hs
    have h := ih hs
    rcases hc with hc | ⟨op,rfl⟩
    · have ha : c.isAlpha = false := Token.not_isLetter_of_isDigit (t := .char c) hc
      have hp : c ≠ '(' ∧ c ≠ ')' := by
        constructor <;> rintro rfl <;> cases hc
      exact ⟨List.forall_mem_cons.mpr ⟨isAllowed_of_isDigit hc,h.allowed⟩,
        .char ha hp.1 hp.2 h.grouped⟩
    · exact h.sign op

/-- A text that is read as an operand when it stands behind digits and signs. -/
structure StandsFor (q : List Char) (b : Fragment) (Q : Expr) : Prop where
  operand : b.Operand
  assembled : b.assembled? = some Q
  parse_behind : ∀ s : List Char, (∀ c ∈ s, c.isDigit = true ∨ ∃ op : BinaryOp, c = op.symbol) →
    ∀ e, Fragment.parsed? (s.map .char ++ b) = some e → parse (String.ofList (s ++ q)) = .ok e

theorem StandsFor.of_run (ho : Fragment.Operand (q.map .char))
    (hq : parse (String.ofList q) = .ok Q) : StandsFor q (q.map .char) Q := by
  obtain ⟨ha,hp⟩ := parse_eq_ok_iff.mp hq
  rw [Fragment.ofString,String.toList_ofList,Fragment.parsed?_operand ho] at hp
  refine ⟨ho,hp,fun s hs e he => parse_eq_ok_iff.mpr ⟨?_,?_⟩⟩
  · rw [String.toList_ofList] at ha ⊢
    refine List.forall_mem_append.mpr ⟨fun c hc => ?_,ha⟩
    rcases hs c hc with hd | ⟨op,rfl⟩
    · exact isAllowed_of_isDigit hd
    · exact isAllowed_symbol op
  · rwa [Fragment.ofString,String.toList_ofList,List.map_append]

theorem StandsFor.of_group {t : String} {T : Expr} (ht : parse t = .ok T)
    (hq : parse (String.ofList ('(' :: (t.toList ++ [')']))) = .ok Q) :
    ∃ x, StandsFor ('(' :: (t.toList ++ [')'])) [.ref 0 x] Q := by
  obtain ⟨x,hx,hf⟩ := Framed.nil.group ht
  have whole : ∀ {s : List Char} {skeleton : Fragment} {e : Expr}, Framed s skeleton →
      skeleton.parsed? = some e → parse (String.ofList s) = .ok e := fun hs he =>
    Framed.parse_eq_ok (by rwa [String.toList_ofList]) he
  have hT : T = Q := by
    have hp := whole hf ((parsed?_reference 0 x).trans hx)
    exact Except.ok.inj (hp.symm.trans hq)
  subst hT
  exact ⟨x,.reference 0 x,by rwa [Fragment.assembled?_ref],
    fun s hs e he => whole (hf.append hs) he⟩

theorem Exponent.exists_standsFor (h : Exponent q) (hq : parse (String.ofList q) = .ok Q) :
    ∃ b, StandsFor q b Q := by
  cases h with
  | number hn hd => exact ⟨_,.of_run (.number hn hd) hq⟩
  | name hn hc => exact ⟨_,.of_run (.name hn hc) hq⟩
  | group ht =>
    obtain ⟨x,hx⟩ := StandsFor.of_group ht hq
    exact ⟨_,hx⟩

end Front

section Texts

variable {n q : String} {v : Int64} {Q : Expr}

/-- A power behind a minus. The power of a single digit is negated as a whole. A longer number
comes apart: all its digits but the last are a negative constant, and it is multiplied by the
power of the last digit. -/
theorem parse_negated_power (hd : ∀ c ∈ n.toList, c.isDigit = true)
    (hv : v.toInt = Decimal.toNat n.toList) (hq : Exponent q.toList) (hQ : parse q = .ok Q) :
    (n.toList.length = 1 →
      parse ("-" ++ n ++ "^" ++ q) = .ok (.neg (.binary .power (.const v) Q))) ∧
    ∀ ds d, n.toList = ds ++ [d] → ds ≠ [] → ∃ u w : Int64,
      u.toInt = -Decimal.toNat ds ∧ w.toInt = Decimal.toNat [d] ∧
      parse ("-" ++ n ++ "^" ++ q) =
        .ok (.binary .times (.const u) (.binary .power (.const w) Q)) := by
  obtain ⟨b,hb,hB,hparse⟩ := hq.exists_standsFor (by rwa [String.ofList_toList])
  have hfront : ∀ c ∈ '-' :: (n.toList ++ ['^']),
      c.isDigit = true ∨ ∃ op : BinaryOp, c = op.symbol :=
    List.forall_mem_cons.mpr ⟨.inr ⟨.minus,rfl⟩,List.forall_mem_append.mpr
      ⟨fun c hc => .inl (hd c hc),List.forall_mem_singleton.mpr (.inr ⟨.power,rfl⟩)⟩⟩
  have htext : "-" ++ n ++ "^" ++ q = String.ofList ('-' :: (n.toList ++ ['^']) ++ q.toList) := by
    rw [← String.toList_inj]
    simp
  rw [htext]
  refine ⟨fun hl => hparse _ hfront _ ?_,fun ds d hds hne => ?_⟩
  · obtain ⟨d,hs⟩ := List.length_eq_one_iff.mp hl
    rw [hs] at hd hv ⊢
    have hp := parsed?_minus_digit_power (hd d (by simp)) hb
    rw [integer?_eq_some hv,hB] at hp
    exact hp
  · rw [hds] at hd hv hfront
    obtain ⟨hd,hlast⟩ := List.forall_mem_append.mp hd
    have hlast := hlast d (by simp)
    have hcut : Decimal.toNat (ds ++ [d]) = 10 * Decimal.toNat ds + Decimal.toNat [d] := by
      simp [Decimal.toNat,Nat.ofDigitChars_append,Nat.ofDigitChars_cons]
    obtain ⟨u,hu⟩ : ∃ u, integer? true ds = some u := exists_integer? true v (by omega)
    obtain ⟨w,hw⟩ : ∃ w, integer? false [d] = some w := exists_integer? false v (by omega)
    refine ⟨u,w,toInt_of_integer? hu,toInt_of_integer? hw,hparse _ (hds ▸ hfront) _ ?_⟩
    have hp := parsed?_minus_digits_power hne hd hlast hb
    rw [hu,hw,hB] at hp
    rw [hds]
    simp only [List.map_cons,List.map_append,List.map_nil,List.cons_append,List.append_assoc,
      List.nil_append]
    exact hp

/-- The exponent is a group. -/
theorem parse_negated_power_of_twelve :
    (∀ c ∈ "12".toList, c.isDigit = true) ∧ Exponent "(x+1)".toList ∧
      parse "(x+1)" = .ok (.binary .plus (.var "x") (.const 1)) ∧
      parse ("-" ++ "12" ++ "^" ++ "(x+1)") = .ok (.binary .times (.const (-1))
        (.binary .power (.const 2) (.binary .plus (.var "x") (.const 1)))) := by
  have hd : ∀ c ∈ "12".toList, c.isDigit = true := by
    have ht : "12".toList = ['1', '2'] := by decide
    simp [ht]
  have hq : Exponent "(x+1)".toList := by
    have hx : parse "x+1" = .ok (.binary .plus (.var "x") (.const 1)) := by cbv
    have ht : "(x+1)".toList = '(' :: ("x+1".toList ++ [')']) := by decide
    exact ht ▸ .group hx
  have hQ : parse "(x+1)" = .ok (.binary .plus (.var "x") (.const 1)) := by cbv
  have h12 : (12 : Int64).toInt = Decimal.toNat "12".toList := by decide
  obtain ⟨u,w,hu,hw,hp⟩ := (parse_negated_power hd h12 hq hQ).2 ['1'] '2' (by decide) (by simp)
  have hu : u = -1 := Int64.toInt_inj.mp (hu.trans (by decide))
  have hw : w = 2 := Int64.toInt_inj.mp (hw.trans (by decide))
  rw [hu,hw] at hp
  exact ⟨hd,hq,hQ,hp⟩

/-- The minus in front of twelve squared does not wait for the power. -/
theorem parse_minus_twelve_squared :
    parse "12" = .ok (.const 12) ∧ parse "2" = .ok (.const 2) ∧
      parse ("-" ++ "12" ++ "^" ++ "2") =
        .ok (.binary .times (.const (-1)) (.binary .power (.const 2) (.const 2))) ∧
      parse ("-" ++ "12" ++ "^" ++ "2") ≠
        .ok (.neg (.binary .power (.const 12) (.const 2))) := by
  have hp : parse ("-" ++ "12" ++ "^" ++ "2") =
      .ok (.binary .times (.const (-1)) (.binary .power (.const 2) (.const 2))) := by cbv
  refine ⟨by cbv,by cbv,hp,?_⟩
  rw [hp]
  simp

end Texts
end Fluxion.Formula
