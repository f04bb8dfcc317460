import Fluxion.Proofs.Inline.Boundary

/-! The cascade on written texts. At the start of a token every tier scans what its pattern
matches, and inside a reference it scans nothing, so the first match of a written text is that of
the text of tokens, and reducing the one is collapsing the other. -/
namespace Fluxion.Formula.Inline

section Tiers

variable {text : Fragment}

theorem renders_power : Renders power Pattern.power := by
  have h := renders_seq (renders_seq renders_operand Pattern.operand_cuts
    (renders_sign (c := '^') (by decide))) (Pattern.seq_cuts Pattern.operand_cuts
      (Pattern.single_cuts _)) renders_operand
  simp only [Option.bind_assoc] at h
  exact h

theorem renders_sum : Renders sum Pattern.sum := by
  have h := renders_seq (renders_seq renders_operand Pattern.operand_cuts
    (renders_signs (by decide : '[' ∉ ['+', '-']))) (Pattern.seq_cuts Pattern.operand_cuts
      (Pattern.single_cuts _)) renders_operand
  simp only [Option.bind_assoc] at h
  exact h

theorem renders_coefficient : Renders coefficient Pattern.coefficient :=
  renders_seq (renders_orElse renders_digits renders_reference)
    (Pattern.orElse_cuts (Pattern.run_cuts _) (Pattern.single_cuts _)) renders_letter

theorem renders_product : Renders product Pattern.product := by
  have hs : Renders (one (· ∈ ['*', '/'])) (Pattern.sign ['*', '/']) := renders_signs (by decide)
  refine renders_seq renders_operand Pattern.operand_cuts fun pre text h => ?_
  have hb := renders_seq hs (Pattern.single_cuts _) renders_operand pre text h
  have hr := renders_reference pre text h
  cases hm : one (· ∈ ['*', '/']) (pre ++ code text) pre.length with
  | none =>
    simp only [hm,Option.bind_none] at hb
    have hn := Option.map_eq_none_iff.mp hb.symm
    simp only [Pattern.orElse,hn,← hr]
  | some right =>
    simp only [hm,Option.bind_some] at hb
    cases text with
    | nil => simp [one] at hm
    | cons t text =>
      cases t with
      | char c =>
        have hn : Pattern.reference (.char c :: text) = none := rfl
        simp only [hb,Pattern.orElse,hn]
        cases ((Pattern.sign ['*', '/']).seq Pattern.operand) (.char c :: text) <;> rfl
      | ref i content =>
        rw [code_ref,one_append,byteIs_open] at hm
        cases hm

theorem isNone_sign_power (pre : List UInt8) (h : text.Allowed) :
    (sign '^' (pre ++ code text) pre.length).isNone = true ↔ ∀ t ∈ text.head?, t ≠ .char '^' := by
  rw [renders_sign (by decide) pre text h]
  cases text with
  | nil => simp [Pattern.sign,Pattern.single]
  | cons t text =>
    cases t with
    | char c =>
      by_cases hc : c = '^' <;> simp [Pattern.sign,Pattern.single,hc]
    | ref i content => simp [Pattern.sign,Pattern.single]

theorem find?_range'_succ (p : Nat → Bool) (s n : Nat) :
    (List.range' s (n + 1)).reverse.find? p =
      if p (s + n) then some (s + n) else (List.range' s n).reverse.find? p := by
  rw [List.range'_1_concat,List.reverse_append,List.reverse_singleton,List.singleton_append,
    List.find?_cons]
  cases p (s + n) <;> rfl

/-- The last place of a run that is not in front of `^` is its end or one token before. -/
theorem find?_free {a after : Fragment} (h : (a ++ after).Allowed)
    (hc : ∀ t ∈ a, ∃ c : Char, t = .char c ∧ c ≠ '^') (hn : a ≠ []) (pre : List UInt8) :
    ((List.range' (pre.length + 1) ((pre ++ code a).length - pre.length)).reverse).find?
        (fun stop => (sign '^' (pre ++ code (a ++ after)) stop).isNone) =
      if (sign '^' (pre ++ code (a ++ after)) (pre ++ code a).length).isNone then
        some (pre ++ code a).length
      else if a.dropLast = [] then none else some (pre ++ code a.dropLast).length := by
  obtain ⟨b,x,rfl⟩ := List.eq_nil_or_concat' a |>.resolve_left hn
  obtain ⟨c,rfl,hx⟩ := hc x (by simp)
  obtain ⟨hb,ha⟩ := Fragment.allowed_append.mp h
  obtain ⟨hb,hx'⟩ := Fragment.allowed_append.mp hb
  have hx' := (Fragment.allowed_char.mp hx').1
  have hlen : (pre ++ code (b ++ [.char c])).length - pre.length = (code b).length + 1 := by
    simp [code_char hx']
  have hend : pre.length + 1 + (code b).length = (pre ++ code (b ++ [.char c])).length := by
    simp [code_char hx']
    omega
  rw [hlen,find?_range'_succ,hend,List.dropLast_concat]
  refine if_congr Iff.rfl rfl ?_
  obtain rfl | ⟨b,y,rfl⟩ := List.eq_nil_or_concat' b
  · rfl
  obtain ⟨d,rfl,-⟩ := hc y (by simp)
  have hy := (Fragment.allowed_append.mp hb).2
  have hy := (Fragment.allowed_char.mp hy).1
  have hlen : (code (b ++ [.char d])).length = (code b).length + 1 := by
    simp [code_char hy]
  have hend : pre.length + 1 + (code b).length = (pre ++ code (b ++ [.char d])).length := by
    simp [code_char hy]
    omega
  have hrest : Fragment.Allowed (.char c :: after) := Fragment.allowed_char.mpr ⟨hx',ha⟩
  have hfree := isNone_sign_power (pre ++ code (b ++ [.char d])) hrest
  rw [List.append_assoc,← code_append] at hfree
  rw [hlen,find?_range'_succ,hend,if_pos,if_neg (by simp)]
  simpa using hfree.mpr (by simpa using hx)

theorem renders_unraised : Renders unraised Pattern.unraised := by
  intro pre text h
  have href := renders_reference pre text h
  have hfree {a after : Fragment} (h : (a ++ after).Allowed) :
      (sign '^' (pre ++ code (a ++ after)) (pre ++ code a).length).isNone = true ↔
        ∀ w, after ≠ .char '^' :: w := by
    have hn := isNone_sign_power (pre ++ code a) (Fragment.allowed_append.mp h).2
    rw [List.append_assoc,← code_append] at hn
    rw [hn]
    cases after <;> simp
  rcases Pattern.operand_cases text with ⟨i,content,after,rfl⟩ | ⟨hn,ho⟩
  · have hr : Pattern.reference (.ref i content :: after) = some ([.ref i content], after) := rfl
    have ho := Pattern.operand_ref i content after
    have hf := hfree (a := [.ref i content]) h
    rw [List.singleton_append] at hf
    simp only [unraised,href,hr,Option.map_some]
    by_cases hp : ∃ w, after = .char '^' :: w
    · obtain ⟨w,rfl⟩ := hp
      rw [if_neg fun hs => hf.mp hs w rfl,Pattern.unraised_of_raised ho]
      rfl
    · have hp := not_exists.mp hp
      rw [if_pos (hf.mpr hp),Pattern.unraised_of_operand ho hp]
      rfl
  · have hrun := renders_orElse renders_letters renders_digits pre text h
    rw [← ho] at hrun
    simp only [unraised,href,hn,Option.map_none,hrun]
    cases hop : Pattern.operand text with
    | none =>
      rw [Pattern.unraised,hop]
      rfl
    | some r =>
      obtain ⟨a,after⟩ := r
      obtain ⟨rfl,ha,-⟩ := Pattern.operand_eq_some_iff.mp hop
      simp only [Option.map_some,bind,Option.bind_some]
      rw [find?_free h (Pattern.char_of_operand ha hn) ha.ne_nil pre]
      by_cases hp : ∃ w, after = .char '^' :: w
      · obtain ⟨w,rfl⟩ := hp
        rw [if_neg fun hs => (hfree h).mp hs w rfl,Pattern.unraised_of_raised hop]
        split <;> rfl
      · have hp := not_exists.mp hp
        rw [if_pos ((hfree h).mpr hp),Pattern.unraised_of_operand hop hp]
        rfl

theorem renders_minus : Renders minus Pattern.negation := by
  rw [Pattern.negation_eq_seq]
  exact renders_seq (renders_sign (by decide)) (Pattern.single_cuts _) renders_unraised

/-- The call of a logarithm starts with two letters, one after the other. -/
theorem logarithm_append (pre rest : List UInt8) :
    logarithm (pre ++ rest) pre.length =
      .ok (((sign 'l' (pre ++ rest) pre.length).bind (sign 'n' (pre ++ rest))).bind
        (group (pre ++ rest))) := by
  have hbytes : Text.encode ['l', 'n'] = ['l'.toUInt8, 'n'.toUInt8] := by
    simp [encode_of_ascii]
  have hfrom : bytesFrom (pre ++ rest) pre.length = .ok rest := by
    simp [bytesFrom]
  have hl : byteIs (· == 'l') = fun b => decide (b = 'l'.toUInt8) := by
    funext b
    rw [Bool.eq_iff_iff,byteIs_beq (by decide),decide_eq_true_eq]
  have hn : byteIs (· == 'n') = fun b => decide (b = 'n'.toUInt8) := by
    funext b
    rw [Bool.eq_iff_iff,byteIs_beq (by decide),decide_eq_true_eq]
  rw [logarithm,hfrom,hbytes]
  change Except.ok _ = _
  congr 1
  rcases rest with _ | ⟨b,rest⟩
  · simp [sign,one]
  · rw [sign,one_append,hl]
    by_cases hb : b = 'l'.toUInt8
    · subst hb
      rcases rest with _ | ⟨c,rest⟩
      · simp [sign,one]
      · have h2 := one_append (· == 'n') (pre ++ ['l'.toUInt8]) c rest
        rw [List.append_assoc,List.singleton_append,hn] at h2
        simp only [decide_true,if_true,Option.bind_some,sign,h2]
        by_cases hc : c = 'n'.toUInt8
        · simp [hc]
        · simp [hc,Ne.symm hc]
    · simp [hb,Ne.symm hb]

theorem logarithm_code (h : text.Allowed) (pre : List UInt8) :
    logarithm (pre ++ code text) pre.length =
      .ok ((Pattern.logarithm text).map fun r => (pre ++ code r.1).length) := by
  rw [logarithm_append]
  exact congrArg _ (renders_seq (renders_seq (renders_sign (by decide)) (Pattern.single_cuts _)
    (renders_sign (by decide))) (Pattern.seq_cuts (Pattern.single_cuts _) (Pattern.single_cuts _))
      renders_group pre text h)

theorem opens_code {before : Fragment} (h : before.Allowed) (rest : List UInt8) :
    opens (code before ++ rest) (code before).length =
      .ok (Tier.negation.allowedAfter before.getLast?) := by
  obtain rfl | ⟨b,t,rfl⟩ := List.eq_nil_or_concat' before
  · rfl
  have hlast : ∃ front x, code (b ++ [t]) = front ++ [x] ∧
      byteIs (· ∈ ['+', '-', '*', '/', '^']) x = t.isOperator := by
    cases t with
    | char c =>
      have hc := (Fragment.allowed_char.mp (Fragment.allowed_append.mp h).2).1
      exact ⟨code b,c.toUInt8,by simp [code_char hc],by rw [byteIs_of_isAllowed hc]; rfl⟩
    | ref i content =>
      exact ⟨code b ++ '['.toUInt8 :: number i,']'.toUInt8,by simp [code_ref],by
        rw [byteIs_close]; rfl⟩
  obtain ⟨front,x,hx,hop⟩ := hlast
  have hbyte : byteAt (front ++ [x] ++ rest) front.length = .ok x := by
    rw [byteAt,List.append_assoc,getElem?_length]
    rfl
  rw [hx,opens,if_neg (by simp)]
  have hl : (front ++ [x]).length - 1 = front.length := by simp
  rw [hl,hbyte]
  simp only [List.getLast?_concat,Tier.allowedAfter,← hop]
  rfl

theorem scan_code (tier : Tier) {before : Fragment} (hb : before.Allowed) (h : text.Allowed) :
    scan tier (code before ++ code text) (code before).length =
      .ok ((tier.match? before.getLast? text).map fun r => (code (before ++ r.1)).length) := by
  have hm : ∀ {r : Fragment × Fragment}, (code before ++ code r.1).length =
      (code (before ++ r.1)).length := by simp
  have hok : ∀ {p : Scanner} {P : Pattern}, Renders p P →
      (Except.ok (p (code before ++ code text) (code before).length) : Except Fault (Option Nat)) =
        .ok ((P text).map fun r => (code (before ++ r.1)).length) := by
    intro p P hp
    rw [hp (code before) text h]
    simp
  cases tier with
  | logarithm =>
    have hl := logarithm_code h (code before)
    simp only [hm] at hl
    exact hl
  | group => exact hok renders_group
  | negation =>
    rw [scan,negation,opens_code hb,Tier.match?]
    cases Tier.negation.allowedAfter before.getLast? with
    | true => exact hok renders_minus
    | false => rfl
  | power => exact hok renders_power
  | product => exact hok renders_product
  | coefficient => exact hok renders_coefficient
  | sum => exact hok renders_sum

end Tiers

section Inside

variable (pre rest : List UInt8) {ds : List UInt8} (hd : ∀ b ∈ ds, byteIs Char.isDigit b = true)
include hd

theorem head_inside {f : Char → Bool} (hf : ∀ c, c.isDigit = true ∨ c = ']' → f c = false) :
    ∀ b ∈ (ds ++ ']'.toUInt8 :: rest).head?, byteIs f b = false := by
  intro b hb
  cases ds with
  | nil =>
    cases hb
    rw [byteIs_close]
    exact hf _ (.inr rfl)
  | cons d ds =>
    cases hb
    exact hf _ (.inl (hd b (by simp)))

theorem sign_inside {c : Char} (hc : c.isDigit = false) (hne : c ≠ ']') :
    sign c (pre ++ (ds ++ ']'.toUInt8 :: rest)) pre.length = none := by
  refine one_eq_none (head_inside rest hd fun d h => ?_)
  rw [beq_eq_false_iff_ne]
  rintro rfl
  rcases h with h | h
  · rw [hc] at h
    cases h
  · exact hne h

theorem reference_inside : reference (pre ++ (ds ++ ']'.toUInt8 :: rest)) pre.length = none := by
  rw [reference,sign_inside pre rest hd rfl (by decide)]
  rfl

theorem digits_inside : digits (pre ++ (ds ++ ']'.toUInt8 :: rest)) pre.length = none ∨
    digits (pre ++ (ds ++ ']'.toUInt8 :: rest)) pre.length = some (pre ++ ds).length := by
  by_cases hn : ds = []
  · subst hn
    exact .inl (takeRun_eq_none (by simp))
  · exact .inr (takeRun_append hn hd (by simp))

theorem operand_inside : operand (pre ++ (ds ++ ']'.toUInt8 :: rest)) pre.length = none ∨
    operand (pre ++ (ds ++ ']'.toUInt8 :: rest)) pre.length = some (pre ++ ds).length := by
  have hl : letters (pre ++ (ds ++ ']'.toUInt8 :: rest)) pre.length = none :=
    takeRun_eq_none (head_inside rest hd fun c h => by
      rcases h with h | rfl
      · cases ha : c.isAlpha with
        | false => rfl
        | true => rw [not_isDigit_of_isAlpha ha] at h; cases h
      · rfl)
  rw [operand,hl,reference_inside pre rest hd,Option.none_or,Option.or_none]
  exact digits_inside pre rest hd

theorem digits_bind_inside {f : Nat → Option Nat} (hf : f (pre ++ ds).length = none) :
    (digits (pre ++ (ds ++ ']'.toUInt8 :: rest)) pre.length).bind f = none := by
  rcases digits_inside pre rest hd with h | h
  · rw [h]
    rfl
  · rw [h]
    exact hf

theorem operand_bind_inside {f : Nat → Option Nat} (hf : f (pre ++ ds).length = none) :
    (operand (pre ++ (ds ++ ']'.toUInt8 :: rest)) pre.length).bind f = none := by
  rcases operand_inside pre rest hd with h | h
  · rw [h]
    rfl
  · rw [h]
    exact hf

omit hd in
theorem one_close {f : Char → Bool} (hf : f ']' = false) :
    one f (pre ++ (ds ++ ']'.toUInt8 :: rest)) (pre ++ ds).length = none := by
  rw [← List.append_assoc]
  exact one_eq_none (by simp [hf])

omit hd in
theorem reference_close :
    reference (pre ++ (ds ++ ']'.toUInt8 :: rest)) (pre ++ ds).length = none := by
  rw [reference,sign,one_close pre rest (by rfl)]
  rfl

theorem minus_inside : minus (pre ++ (ds ++ ']'.toUInt8 :: rest)) pre.length = none := by
  rw [minus,sign_inside pre rest hd rfl (by decide)]
  rfl

omit hd in
theorem opens_append (hp : pre ≠ []) (src : List UInt8) :
    ∃ b, opens (pre ++ src) pre.length = .ok b := by
  obtain rfl | ⟨front,x,rfl⟩ := List.eq_nil_or_concat' pre
  · exact absurd rfl hp
  have hbyte : byteAt (front ++ [x] ++ src) front.length = .ok x := by
    rw [byteAt,List.append_assoc,getElem?_length]
    rfl
  have hl : (front ++ [x]).length - 1 = front.length := by simp
  rw [opens,if_neg (by simp),hl,hbyte]
  exact ⟨_,rfl⟩

theorem scan_inside (tier : Tier) (hp : pre ≠ []) :
    scan tier (pre ++ (ds ++ ']'.toUInt8 :: rest)) pre.length = .ok none := by
  cases tier with
  | logarithm =>
    rw [scan,logarithm_append,sign_inside pre rest hd rfl (by decide)]
    rfl
  | group =>
    change Except.ok (group _ _) = _
    rw [group,sign_inside pre rest hd rfl (by decide)]
    rfl
  | negation =>
    obtain ⟨b,hb⟩ := opens_append pre hp (ds ++ ']'.toUInt8 :: rest)
    rw [scan,negation,hb,minus_inside pre rest hd]
    cases b <;> rfl
  | power =>
    refine congrArg Except.ok (operand_bind_inside pre rest hd ?_)
    rw [sign,one_close pre rest (by rfl)]
    rfl
  | product =>
    refine congrArg Except.ok (operand_bind_inside pre rest hd ?_)
    rw [one_close pre rest (by rfl)]
    exact reference_close pre rest
  | coefficient =>
    change Except.ok (coefficient _ _) = _
    rw [coefficient,reference_inside pre rest hd,Option.or_none]
    exact congrArg Except.ok (digits_bind_inside pre rest hd (one_close pre rest (by rfl)))
  | sum =>
    refine congrArg Except.ok (operand_bind_inside pre rest hd ?_)
    rw [one_close pre rest (by rfl)]
    rfl

end Inside

section First

theorem findSomeM?_skip {α β : Type} {f : α → Except Fault (Option β)} {l : List α}
    (h : ∀ a ∈ l, f a = .ok none) (l' : List α) : (l ++ l').findSomeM? f = l'.findSomeM? f := by
  induction l with
  | nil => rfl
  | cons a l ih =>
    rw [List.cons_append,List.findSomeM?_cons,h a (by simp)]
    exact ih fun b hb => h b (by simp [hb])

/-- No place between the start of a token and its end is the start of a match. -/
theorem scan_between (tier : Tier) {before text : Fragment} {t : Token}
    (h : Fragment.Allowed (t :: text)) {i : Nat}
    (hi : i ∈ List.range' ((code before).length + 1) ((code [t]).length - 1)) :
    scan tier (code before ++ code (t :: text)) i = .ok none := by
  obtain ⟨hl,hr⟩ := List.mem_range'_1.mp hi
  cases t with
  | char c =>
    rw [code_char (Fragment.allowed_char.mp h).1] at hr
    simp at hr
    omega
  | ref j content =>
    obtain ⟨k,rfl⟩ := Nat.exists_eq_add_of_le hl
    have hk : k ≤ (number j).length := by
      simp [code_ref] at hr
      omega
    have hd : ∀ b ∈ (number j).drop k, byteIs Char.isDigit b = true := fun b hb =>
      isDigit_of_mem_number (List.mem_of_mem_drop hb)
    have hs := scan_inside (code before ++ '['.toUInt8 :: (number j).take k) (code text) hd tier
      (by simp)
    have hsrc : code before ++ '['.toUInt8 :: (number j).take k ++
        ((number j).drop k ++ ']'.toUInt8 :: code text) =
          code before ++ code (.ref j content :: text) := by
      rw [code_ref,List.append_assoc,List.cons_append,← List.append_assoc ((number j).take k),
        List.take_append_drop]
    rw [hsrc] at hs
    rw [← hs]
    congr 1
    simp
    omega

/-- Where a site is in a written text. -/
def span (s : Site) : Nat × Nat := ((code s.before).length, (code (s.before ++ s.matched)).length)

theorem range'_code_cons (before text : Fragment) {t : Token} (h : Fragment.Allowed [t]) :
    List.range' (code before).length (code (t :: text)).length =
      (code before).length ::
        (List.range' ((code before).length + 1) ((code [t]).length - 1) ++
          List.range' (code (before ++ [t])).length (code text).length) := by
  have hn : code [t] ≠ [] := fun hn => by
    rw [code_eq_nil_iff h] at hn
    cases hn
  obtain ⟨k,hk⟩ := Nat.exists_eq_add_of_lt (List.length_pos_of_ne_nil hn)
  rw [code_cons,List.length_append,← List.range'_append_1,code_append,List.length_append,hk,
    Nat.zero_add,List.range'_succ,List.cons_append,Nat.add_sub_cancel]

theorem leftmost_from (tier : Tier) {before text : Fragment} (hb : before.Allowed)
    (h : text.Allowed) :
    (List.range' (code before).length (code text).length).findSomeM? (fun start =>
        return (← scan tier (code before ++ code text) start).map fun stop => (start, stop)) =
      .ok ((tier.leftmost? before.getLast? text).map fun s =>
        span { s with before := before ++ s.before }) := by
  induction text generalizing before with
  | nil => rfl
  | cons t text ih =>
    have ht : Fragment.Allowed [t] ∧ Fragment.Allowed text := Fragment.allowed_append.mp h
    have hskip := findSomeM?_skip (f := fun start => (do
      return (← scan tier (code before ++ code (t :: text)) start).map fun stop => (start, stop)))
      (fun i hi => by rw [scan_between tier h hi]; rfl)
      (List.range' (code (before ++ [t])).length (code text).length)
    have hnext : Fragment.Allowed (before ++ [t]) := Fragment.allowed_append.mpr ⟨hb,ht.1⟩
    have hrest := ih hnext ht.2
    have hsrc : code (before ++ [t]) ++ code text = code before ++ code (t :: text) := by
      rw [code_append,List.append_assoc,← code_cons]
    rw [hsrc,List.getLast?_concat] at hrest
    rw [range'_code_cons before text ht.1,List.findSomeM?_cons,scan_code tier hb h,hskip,hrest]
    cases hm : tier.match? before.getLast? (t :: text) with
    | some r =>
      rw [Tier.leftmost?,hm]
      simp [span]
      rfl
    | none =>
      rw [Tier.leftmost?,hm]
      simp [Function.comp_def]
      rfl

theorem leftmost_code (tier : Tier) {text : Fragment} (h : text.Allowed) :
    leftmost tier (code text) = .ok ((tier.leftmost? none text).map span) := by
  have hl := leftmost_from tier Fragment.allowed_nil h
  rw [leftmost,List.range_eq_range']
  simpa using hl

/-- The first match of a written text is that of the text. -/
theorem first_code {text : Fragment} (h : text.Allowed) :
    first (code text) = .ok ((Tier.first? text).map fun r => span r.2) := by
  rw [first,Tier.first?]
  generalize Tier.all = tiers
  induction tiers with
  | nil => rfl
  | cons tier tiers ih =>
    rw [List.findSomeM?_cons,leftmost_code tier h,List.findSome?_cons]
    cases tier.leftmost? none text with
    | some s => rfl
    | none => exact ih

end First

/-- The written texts that a table stands for, the formula being number 0. -/
def stored (formula : List Char) (table : Table) : Store :=
  formula :: table.entries.map (·.fragment.shown)

section Reduce

variable {text : Fragment} {table : Table} {s : Site}

theorem length_stored (formula : List Char) (table : Table) :
    (stored formula table).length = table.size := by
  simp [stored,Table.size]

theorem stored_push (formula : List Char) (table : Table) (tier : Tier) (part : Fragment) :
    stored formula (table.push tier part) = stored formula table ++ [part.shown] := by
  simp [stored,Table.push]

/-- What a text is cut to between the starts and the ends of tokens. -/
theorem slice_shown {a b c : Fragment} {start stop : Nat} (ht : text = a ++ b ++ c)
    (hstart : start = (code a).length) (hstop : stop = (code (a ++ b)).length) :
    slice text.shown start stop = .ok b.shown := by
  subst ht hstart hstop
  have h := slice_append a.shown b.shown c.shown
  rw [← Fragment.shown_append,← Fragment.shown_append] at h
  exact h

theorem slice_span (s : Site) : slice s.text.shown (span s).1 (span s).2 = .ok s.matched.shown :=
  slice_shown rfl rfl rfl

theorem splice_span (s : Site) (i : Nat) (content : Fragment) :
    splice s.text.shown (span s).1 (span s).2 ('[' :: Decimal.ofNat i ++ [']']) =
      .ok (s.replace (.ref i content)).shown := by
  have h := splice_append s.before.shown s.matched.shown s.after.shown
    (Token.shown (.ref i content))
  rw [← Fragment.shown_append,← Fragment.shown_append] at h
  rw [Site.text]
  refine Eq.trans h ?_
  simp [Site.replace]

theorem allowed_replace (h : s.text.Allowed) (i : Nat) :
    (s.replace (.ref i s.matched)).Allowed := by
  have hs : (s.replace (.ref i s.matched)).source = s.text.source := by
    simp [Site.replace,Site.text]
  rw [Fragment.Allowed,hs]
  exact h

/-- Reducing in place is collapsing, and every token is reduced once at most. -/
theorem reduce_shown (h : text.Allowed) (formula : List Char) (table : Table) {limit : Nat}
    (hl : text.length < limit) :
    reduce limit text.shown (stored formula table) =
      pure ((collapse text table).1.shown, stored formula (collapse text table).2) := by
  fun_induction collapse text table generalizing limit with
  | case1 text table hf =>
    obtain ⟨limit,rfl⟩ := Nat.exists_eq_add_of_lt hl
    have hfirst := first_code h
    rw [hf] at hfirst
    rw [reduce]
    exact Run.bind_of_ok hfirst _
  | case2 text table tier s hf ih =>
    have hlt := Tier.length_replace_lt hf (.ref table.size s.matched)
    obtain ⟨limit,rfl⟩ := Nat.exists_eq_add_of_lt hl
    have hfirst := first_code h
    obtain ⟨rfl,-⟩ := Tier.first?_cuts hf
    rw [hf] at hfirst
    have hsplice := splice_span s table.size s.matched
    have hless : (s.replace (.ref table.size s.matched)).length < s.text.length + limit := by omega
    have ht := ih (allowed_replace h table.size) hless
    rw [stored_push] at ht
    rw [reduce,length_stored]
    calc
      _ = _ := Run.bind_of_ok hfirst _
      _ = _ := Run.bind_of_ok (slice_span s) _
      _ = _ := Run.bind_of_ok hsplice _
      _ = _ := ht

end Reduce

end Fluxion.Formula.Inline
