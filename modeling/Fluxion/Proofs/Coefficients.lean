import Fluxion.Proofs.Runs
import Fluxion.Proofs.Starred
import Fluxion.Proofs.Terms

/-! Letters behind a number. They are factors one by one, unless a sign of a product follows: then
they are one name, and that is an operand of the product before the number is. -/
namespace Fluxion.Formula

/-- An expression times some letters, each of them a variable. -/
def timesLetters (A : Expr) (cs : List Char) : Expr :=
  cs.foldl (fun e c => .binary .times e (.var (String.ofList [c]))) A

section Steps

variable {a b : Fragment} {ds cs : List Char} {A : Expr}

theorem first?_coefficient (ha : a.Operand) (hn : ∀ t ∈ a, t.isLetter = false) {c : Char}
    (hc : c.isAlpha = true) (hcs : ∀ c ∈ cs, c.isAlpha = true) :
    Tier.first? (a ++ .char c :: cs.map .char) =
      some (.coefficient, ⟨[], a ++ [.char c], cs.map .char⟩) := by
  have hletter : (Token.char c).isLetter = true := hc
  have hm : Tier.coefficient.match? none (a ++ .char c :: cs.map .char) =
      some (a ++ [.char c], cs.map .char) := by
    have hl : Pattern.letter (.char c :: cs.map .char) = some ([.char c], cs.map .char) := by
      simp [Pattern.letter,Pattern.single,hletter]
    exact Pattern.seq_of_some (Tier.coefficient_factor ha hn hletter _) hl
  have hname : Fragment.Operand (.char c :: cs.map .char) :=
    .name (List.cons_ne_nil c cs) (List.forall_mem_cons.mpr ⟨hc,hcs⟩)
  have hsigned : Fragment.Signed [] (a ++ .char c :: cs.map .char) :=
    Fragment.signed_append.mpr ⟨ha.signed [],hname.signed []⟩
  have htail : ∀ t ∈ (a ++ (c :: cs).map Token.char).tail, t.isReference = false := by
    rw [List.tail_append_of_ne_nil ha.ne_nil]
    refine List.forall_mem_append.mpr ⟨fun t ht => ha.not_isReference_of_mem_tail ht,?_⟩
    exact fun t ht => Fragment.not_isReference_of_mem_chars ht
  exact Tier.first?_of_start hm fun higher hh => Tier.nowhere_of_signed hsigned (by simp)
    (fun _ => htail) fun he => absurd (he ▸ hh) (by decide)

theorem parsed?_letters (ha : a.Operand) (hn : ∀ t ∈ a, t.isLetter = false)
    (hA : a.assembled? = some A) (hc : ∀ c ∈ cs, c.isAlpha = true) :
    Fragment.parsed? (a ++ cs.map .char) = some (timesLetters A cs) := by
  induction cs generalizing a A with
  | nil =>
    rw [List.map_nil,List.append_nil,Fragment.parsed?_operand ha,hA]
    rfl
  | cons c cs ih =>
    obtain ⟨hc,hcs⟩ := List.forall_mem_cons.mp hc
    have hletter : (Token.char c).isLetter = true := hc
    have hfactor : a.length = 1 ∨ a.all Token.isDigit = true := by
      cases ha with
      | reference i content => exact .inl rfl
      | number hne hd => exact .inr (Fragment.all_isDigit_of_number hd)
      | name hne hl => exact absurd hn (Fragment.has_letter hne hl)
    have hproduct : Fragment.assembled? (a ++ [.char c]) =
        some (.binary .times A (.var (String.ofList [c]))) := by
      have hname : Fragment.assembled? [.char c] = some (.var (String.ofList [c])) :=
        Fragment.assembled?_name (List.cons_ne_nil c []) (List.forall_mem_singleton.mpr hc)
      rw [Fragment.assembled?_juxtaposition ha hfactor (.inr hletter)
        (Fragment.ends_letter hn hletter []),hA,hname]
      rfl
    rw [List.map_cons,Fragment.parsed?_of_some (first?_coefficient ha hn hc hcs) 0]
    exact ih (.reference 0 _) (by simp [Token.isLetter])
      (by rw [Fragment.assembled?_ref,hproduct]) hcs

theorem parsed?_number_reference (hds : ds ≠ []) (hd : ∀ c ∈ ds, c.isDigit = true) (i : Nat)
    (x : Fragment) : Fragment.parsed? (ds.map .char ++ [.ref i x]) =
      Expr.join? .times ((integer? false ds).map .const) x.assembled? := by
  have hno : Fragment.Operand (ds.map .char) := .number hds hd
  have hm : Tier.product.match? none (ds.map Token.char ++ [.ref i x]) =
      some (ds.map Token.char ++ [.ref i x], []) :=
    (Tier.Match.reference hno i x []).match?_self
  have hsigned : Fragment.Signed [] (ds.map Token.char ++ [.ref i x]) :=
    Fragment.signed_append.mpr ⟨hno.signed [],(Fragment.Operand.reference i x).signed []⟩
  have hfirst := Tier.first?_of_start hm
    (Tier.nowhere_above hsigned (by simp) (by decide) (by decide))
  rw [Fragment.parsed?_of_some hfirst 0,Site.replace,List.nil_append,parsed?_reference,
    Fragment.assembled?_juxtaposition hno (.inr (Fragment.all_isDigit_of_number hd)) (.inl rfl)
      (Fragment.ends_ref _ i x []),
    Fragment.assembled?_number hds hd,Fragment.assembled?_ref]

section Product

variable {op : BinaryOp} (hop : op = .times ∨ op = .divide) (hds : ds ≠ [])
  (hd : ∀ c ∈ ds, c.isDigit = true) (hcs : cs ≠ []) (hc : ∀ c ∈ cs, c.isAlpha = true)
  (hb : b.Operand)
include hop hds hd hcs hc hb

theorem first?_product_of_letters :
    Tier.first? (ds.map .char ++ (cs.map .char ++ .char op.symbol :: b)) =
      some (.product, ⟨ds.map .char, cs.map .char ++ .char op.symbol :: b, []⟩) := by
  have hm : Tier.product.match? (ds.map Token.char).getLast?
      (cs.map .char ++ .char op.symbol :: b) = some (cs.map .char ++ .char op.symbol :: b, []) := by
    have hself :=
      (Tier.Match.operation op (.name hcs hc) hb (Fragment.Operand.ends_nil b)).match?_self
    rcases hop with rfl | rfl <;> exact hself
  have hsigned : Fragment.Signed [op.symbol]
      (ds.map .char ++ (cs.map .char ++ .char op.symbol :: b)) := by
    refine Fragment.signed_append.mpr ⟨(Fragment.Operand.number hds hd).signed _,?_⟩
    exact Fragment.signed_append.mpr ⟨(Fragment.Operand.name hcs hc).signed _,
      (hb.signed _).cons (by simp)⟩
  refine Tier.first?_of_match hm ?_ (Tier.nowhere_above hsigned ?_ (by decide) (by decide))
  · intro u v hu hv
    obtain ⟨us,es,rfl,-,rfl⟩ := List.map_eq_append_iff.mp hu
    have hes : ∀ c ∈ es, c.isDigit = true := fun c hm => hd c (by simp [hm])
    have hno : Fragment.Operand (es.map .char) := .number (by simpa using hv) hes
    obtain ⟨c,cs,rfl⟩ := List.exists_cons_of_ne_nil hcs
    have hl : (Token.char c).isLetter = true := hc c (by simp)
    have hdigits := Fragment.not_isLetter_of_mem_digits hes
    refine Pattern.product_eq_none hno (Fragment.ends_letter hdigits hl _) ?_ ?_
    · simp only [List.map_cons,List.cons_append,List.head?_cons]
      rintro d hm he
      cases he
      rcases List.mem_pair.mp hm with rfl | rfl <;> cases hl
    · intro t ht
      cases ht
      rfl
  · rcases hop with rfl | rfl <;> simp [Tier.above,Tier.all,Tier.signs,BinaryOp.symbol]

theorem parsed?_product_of_letters :
    Fragment.parsed? (ds.map .char ++ (cs.map .char ++ .char op.symbol :: b)) =
      Expr.join? .times ((integer? false ds).map .const)
        (Expr.join? op (some (.var (String.ofList cs))) b.assembled?) := by
  rw [Fragment.parsed?_of_some (first?_product_of_letters hop hds hd hcs hc hb) 0,Site.replace,
    parsed?_number_reference hds hd,Fragment.assembled?_operation op (.name hcs hc) hb,
    Fragment.assembled?_name hcs hc]

end Product

theorem parsed?_group_in_front {inner rest : Fragment} (hf : inner.Flat)
    (hr : .char '(' ∉ rest) : Fragment.parsed? (.char '(' :: (inner ++ .char ')' :: rest)) =
      Fragment.parsed? (.ref 0 (.char '(' :: inner ++ [.char ')']) :: rest) := by
  have hm : Tier.group.match? none (.char '(' :: (inner ++ .char ')' :: rest)) =
      some (.char '(' :: inner ++ [.char ')'], rest) := Tier.pattern_group_of_flat hf rest
  have hn : .char '(' ∉ inner ++ .char ')' :: rest := by
    have hi : .char '(' ∉ inner := fun hm => by cases hf _ hm
    simp [hi,hr]
  have hfirst := Tier.first?_of_start hm fun higher hh => by
    rw [List.mem_singleton.mp (show higher ∈ [.logarithm] from hh)]
    exact Tier.nowhere_logarithm_of_tail hn
  rw [Fragment.parsed?_of_some hfirst 0]
  rfl

end Steps

universe u

section Value

variable {K : Type u} [Field K] (pow : K → K → K) (ln : K → K) (x : K)

theorem valueIn_timesLetters (A : Expr) (cs : List Char) :
    (timesLetters A cs).valueIn (.field pow ln) x =
      A.valueIn (.field pow ln) x * x ^ cs.length := by
  induction cs generalizing A with
  | nil => simp [timesLetters]
  | cons c cs ih =>
    have hc : (Expr.binary .times A (.var (String.ofList [c]))).valueIn (.field pow ln) x =
        A.valueIn (.field pow ln) x * x := rfl
    have hs : timesLetters A (c :: cs) =
        timesLetters (.binary .times A (.var (String.ofList [c]))) cs := rfl
    rw [hs,ih,hc,List.length_cons,pow_succ']
    ring

/-- As one name the letters are one factor, and one by one they are as many as there are. -/
theorem valueIn_letters_of_product {op : BinaryOp} (hop : op = .times ∨ op = .divide) (A B : Expr)
    {cs : List Char} (hcs : cs ≠ []) (name : String) :
    (Expr.binary op (timesLetters A cs) B).valueIn (.field pow ln) x =
      x ^ (cs.length - 1) *
        (Expr.binary .times A (.binary op (.var name) B)).valueIn (.field pow ln) x := by
  obtain ⟨c,cs,rfl⟩ := List.exists_cons_of_ne_nil hcs
  have hl := valueIn_timesLetters pow ln x A (c :: cs)
  rcases hop with rfl | rfl
  · calc (timesLetters A (c :: cs)).valueIn (.field pow ln) x * B.valueIn (.field pow ln) x
        = A.valueIn (.field pow ln) x * x ^ (cs.length + 1) * B.valueIn (.field pow ln) x := by
          rw [hl,List.length_cons]
      _ = x ^ cs.length * (A.valueIn (.field pow ln) x * (x * B.valueIn (.field pow ln) x)) := by
          ring
  · calc (timesLetters A (c :: cs)).valueIn (.field pow ln) x * (B.valueIn (.field pow ln) x)⁻¹
        = A.valueIn (.field pow ln) x * x ^ (cs.length + 1) * (B.valueIn (.field pow ln) x)⁻¹ := by
          rw [hl,List.length_cons]
      _ = x ^ cs.length * (A.valueIn (.field pow ln) x * (x * (B.valueIn (.field pow ln) x)⁻¹)) := by
          ring

end Value

theorem Fragment.isTerm_of_isOperand {a : Fragment} (h : ∀ t ∈ a, t.isOperand = true)
    (previous : Option Token) (depth : Nat) : isTerm previous depth a = true := by
  induction a generalizing previous depth with
  | nil => rfl
  | cons t a ih =>
    obtain ⟨ht,h⟩ := List.forall_mem_cons.mp h
    have hs : t.addsAfter previous = false := by
      unfold Token.addsAfter
      split
      · cases ht
      · cases ht
      · rfl
    simp [isTerm,hs,ih h]

theorem join?_of_ne_zero {op : BinaryOp} {B : Expr} (hz : op = .divide → B ≠ .const 0) (A : Expr) :
    Expr.join? op (some A) (some B) = some (.binary op A B) := by
  have hne : ¬(op = .divide ∧ B = .const 0) := fun he => hz he.1 he.2
  simp [Expr.join?,Expr.combine,hne,Except.toOption]

section Operand

variable {a b : String} {A B : Expr} {op : BinaryOp} (hb : Fragment.Operand (.ofString b))
  (hB : parse b = .ok B)
include hb hB

theorem assembled?_of_parse : Fragment.assembled? (.ofString b) = some B :=
  (Fragment.parsed?_operand hb).symm.trans (parse_eq_ok_iff.mp hB).2

theorem parse_group_operand (hz : op = .divide → B ≠ .const 0) (ha : parse a = .ok A)
    (hf : Fragment.Flat (.ofString a)) :
    parse ("(" ++ a ++ ")" ++ op.symbol.toString ++ b) = .ok (.binary op A B) := by
  obtain ⟨haa,hap⟩ := parse_eq_ok_iff.mp ha
  have htext : ("(" ++ a ++ ")" ++ op.symbol.toString ++ b).toList =
      '(' :: (a.toList ++ ')' :: op.symbol :: b.toList) := by
    simp
  refine parse_eq_ok_iff.mpr ⟨?_,?_⟩
  · rw [htext]
    refine List.forall_mem_cons.mpr ⟨rfl,List.forall_mem_append.mpr ⟨haa,?_⟩⟩
    exact List.forall_mem_cons.mpr ⟨rfl,List.forall_mem_cons.mpr
      ⟨isAllowed_symbol op,(parse_eq_ok_iff.mp hB).1⟩⟩
  · have hr : .char '(' ∉ Token.char op.symbol :: Fragment.ofString b := by
      have hs : op.symbol ≠ '(' := by cases op <;> decide
      simpa [hs.symm] using (hb.signed []).not_mem (c := '(') rfl (by simp)
    have hg := parsed?_group_in_front hf hr
    have hop := Fragment.parsed?_operation op
      (.reference 0 (.char '(' :: Fragment.ofString a ++ [.char ')'])) hb
    rw [Fragment.assembled?_ref,Fragment.assembled?_group hf,hap,assembled?_of_parse hb hB,
      join?_of_ne_zero hz] at hop
    rw [Fragment.ofString,htext]
    simpa [Fragment.ofString] using hg.trans hop

end Operand

section Texts

variable {n w b : String} {v : Int64} {B : Expr} {op : BinaryOp} (hn : n ≠ "")
  (hd : ∀ c ∈ n.toList, c.isDigit = true) (hv : v.toInt = Decimal.toNat n.toList)
  (hc : ∀ c ∈ w.toList, c.isAlpha = true)
include hn hd hv hc

theorem parse_number_letters : parse (n ++ w) = .ok (timesLetters (.const v) w.toList) := by
  have hds : n.toList ≠ [] := by simpa using hn
  have hinteger : integer? false n.toList = some v := integer?_eq_some hv
  have hconst : Fragment.assembled? (n.toList.map .char) = some (.const v) := by
    rw [Fragment.assembled?_number hds hd,hinteger]
    rfl
  have hletters := parsed?_letters (.number hds hd) (Fragment.not_isLetter_of_mem_digits hd)
    hconst hc
  have hallowed : ∀ c ∈ n.toList ++ w.toList, isAllowed c = true := List.forall_mem_append.mpr
    ⟨fun c hm => isAllowed_of_isDigit (hd c hm),fun c hm => isAllowed_of_isAlpha (hc c hm)⟩
  exact parse_eq_ok_iff.mpr ⟨by simpa using hallowed,by simpa [Fragment.ofString] using hletters⟩

variable (hw : w ≠ "") (hb : Fragment.Operand (.ofString b)) (hB : parse b = .ok B)
  (hz : op = .divide → B ≠ .const 0)
include hw hb hB hz

theorem parse_product_of_letters (hop : op = .times ∨ op = .divide) :
    parse (n ++ w ++ op.symbol.toString ++ b) =
      .ok (.binary .times (.const v) (.binary op (.var w) B)) := by
  have htext : (n ++ w ++ op.symbol.toString ++ b).toList =
      n.toList ++ (w.toList ++ op.symbol :: b.toList) := by
    simp
  refine parse_eq_ok_iff.mpr ⟨?_,?_⟩
  · rw [htext]
    refine List.forall_mem_append.mpr ⟨fun c hm => isAllowed_of_isDigit (hd c hm),?_⟩
    refine List.forall_mem_append.mpr ⟨fun c hm => isAllowed_of_isAlpha (hc c hm),?_⟩
    exact List.forall_mem_cons.mpr ⟨isAllowed_symbol op,(parse_eq_ok_iff.mp hB).1⟩
  · have hp := parsed?_product_of_letters hop (by simpa using hn) hd (by simpa using hw) hc hb
    rw [integer?_eq_some hv,assembled?_of_parse hb hB,join?_of_ne_zero hz,
      String.ofList_toList] at hp
    rw [Fragment.ofString,htext,List.map_append,List.map_append]
    exact hp

/-- Letters behind a number. In a group or in front of a plus or a minus they are factors one by
one. In front of the sign of a product they are one name, so that the value is less by as many
powers of the variable as there are letters behind the first one. -/
theorem parse_letters_behind_number (hop : op ≠ .power) :
    parse (n ++ w) = .ok (timesLetters (.const v) w.toList) ∧
    ∃ G P, parse ("(" ++ n ++ w ++ ")" ++ op.symbol.toString ++ b) = .ok G ∧
      parse (n ++ w ++ op.symbol.toString ++ b) = .ok P ∧
      G = .binary op (timesLetters (.const v) w.toList) B ∧
      (op = .plus ∨ op = .minus → P = G) ∧
      (op = .times ∨ op = .divide →
        P = .binary .times (.const v) (.binary op (.var w) B) ∧
        ∀ (K : Type u) [Field K] (pow : K → K → K) (ln : K → K) (x : K),
          G.valueIn (.field pow ln) x = x ^ (w.toList.length - 1) * P.valueIn (.field pow ln) x) := by
  have hfront := parse_number_letters hn hd hv hc
  have hflat : Fragment.Flat (.ofString (n ++ w)) := by
    intro t ht
    obtain ⟨c,hm,rfl⟩ := List.mem_map.mp ht
    refine Token.not_isParenthesis_of_isOperand ?_
    rw [String.toList_append] at hm
    rcases List.mem_append.mp hm with hm | hm
    · simp [Token.isOperand_char,hd c hm]
    · simp [Token.isOperand_char,hc c hm]
  have hgroup := parse_group_operand hb hB hz hfront hflat
  rw [← String.append_assoc] at hgroup
  refine ⟨hfront,?_⟩
  by_cases hsum : op = .plus ∨ op = .minus
  · refine ⟨_,_,hgroup,parse_term hsum hfront hB
      (Fragment.isTerm_of_isOperand hb.isOperand none 0),rfl,fun _ => rfl,?_⟩
    rcases hsum with rfl | rfl <;> simp
  · have hproduct : op = .times ∨ op = .divide := by
      cases op <;> simp_all
    refine ⟨_,_,hgroup,parse_product_of_letters hn hd hv hc hw hb hB hz hproduct,rfl,
      fun h => absurd h hsum,fun _ => ⟨rfl,?_⟩⟩
    intro K _ pow ln x
    exact valueIn_letters_of_product pow ln x hproduct _ B (by simpa using hw) w

end Texts

/-- The product of the name is half of what the group gives. -/
theorem parse_letters_behind_number_two : parse "3" = .ok (.const 3) ∧
    ∃ G P, parse ("(" ++ "2" ++ "xy" ++ ")" ++ BinaryOp.times.symbol.toString ++ "3") = .ok G ∧
      parse ("2" ++ "xy" ++ BinaryOp.times.symbol.toString ++ "3") = .ok P ∧
      P = .binary .times (.const 2) (.binary .times (.var "xy") (.const 3)) ∧
      ∀ x : ℚ, G.valueIn (.field (fun a _ => a) fun a => a) x =
        x * P.valueIn (.field (fun a _ => a) fun a => a) x := by
  have h2 : "2".toList = ['2'] := by decide
  have hxy : "xy".toList = ['x', 'y'] := by decide
  have h3 : "3".toList = ['3'] := by decide
  have hd : ∀ c ∈ "2".toList, c.isDigit = true := by simp [h2]
  have hc : ∀ c ∈ "xy".toList, c.isAlpha = true := by simp [hxy]
  have hb : Fragment.Operand (.ofString "3") := by
    rw [Fragment.ofString,h3]
    exact .number (by simp) (by simp)
  have hB : parse "3" = .ok (.const 3) := by cbv
  have hop : BinaryOp.times ≠ .power := by simp
  obtain ⟨-,G,P,hG,hP,-,-,hproduct⟩ := parse_letters_behind_number (by decide) hd
    (v := 2) (by decide) hc (by decide) hb hB (by simp) hop
  obtain ⟨hname,hvalue⟩ := hproduct (.inl rfl)
  refine ⟨hB,G,P,hG,hP,hname,fun x => ?_⟩
  rw [hvalue,hxy]
  norm_num

/-- At 2 the name gives 12 and the group 24. -/
theorem parse_two_letters_times_three :
    ∃ P G, parse ("2" ++ "xy" ++ "*" ++ "3") = .ok P ∧
      parse ("(" ++ "2" ++ "xy" ++ ")" ++ "*" ++ "3") = .ok G ∧
      P.valueIn (.field (fun a _ => a) fun a => a) (2 : ℚ) = 12 ∧
      G.valueIn (.field (fun a _ => a) fun a => a) (2 : ℚ) = 24 := by
  have hP : parse ("2" ++ "xy" ++ "*" ++ "3") =
      .ok (.binary .times (.const 2) (.binary .times (.var "xy") (.const 3))) := by cbv
  have hG : parse ("(" ++ "2" ++ "xy" ++ ")" ++ "*" ++ "3") = .ok (.binary .times
      (.binary .times (.binary .times (.const 2) (.var "x")) (.var "y")) (.const 3)) := by cbv
  have h2 : (2 : Int64).toInt = 2 := by decide
  have h3 : (3 : Int64).toInt = 3 := by decide
  refine ⟨_,_,hP,hG,?_,?_⟩
  · norm_num [Expr.valueIn,Arithmetic.apply,Arithmetic.field,h2,h3]
  · norm_num [Expr.valueIn,Arithmetic.apply,Arithmetic.field,h2,h3]

end Fluxion.Formula
