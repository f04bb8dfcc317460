import Fluxion.Proofs.Inline.Checks
import Fluxion.Proofs.Plain

/-! The places where a written text is cut in two. A minus of its own that an operand may have,
and a star that may be in front of a factor, are never met with in a text that is built. -/
namespace Fluxion.Formula.Inline

section Places

variable {text : Fragment} {i : Nat}

theorem signed_cases (signed : Prop) [Decidable signed] (h : text.Allowed) (pre : List UInt8) :
    ∃ u rest : Fragment, text = u ++ rest ∧ (u = [] ∨ u = [.char '-'] ∧ signed) ∧
      operand (pre ++ code text)
          (if signed then skip '-' (pre ++ code text) pre.length else pre.length) =
        (Pattern.operand rest).map fun r => (pre ++ code (u ++ r.1)).length := by
  by_cases hs : signed
  · obtain ⟨u,rest,rfl,hu,-,hk⟩ := skip_cases (c := '-') (by decide) h pre
    refine ⟨u,rest,rfl,hu.imp_right fun hu => ⟨hu,hs⟩,?_⟩
    have ho := renders_operand (pre ++ code u) rest (Fragment.allowed_append.mp h).2
    rw [List.append_assoc,← code_append] at ho
    rw [if_pos hs,hk,ho]
    simp
  · refine ⟨[],text,rfl,.inl rfl,?_⟩
    rw [if_neg hs,renders_operand pre text h]
    rfl

theorem signed_operand (signed : Prop) [Decidable signed] {a w : Fragment}
    (h : (a ++ w).Allowed) (ho : Pattern.operand (a ++ w) = some (a, w)) (pre : List UInt8) :
    operand (pre ++ code (a ++ w))
        (if signed then skip '-' (pre ++ code (a ++ w)) pre.length else pre.length) =
      some (pre ++ code a).length := by
  obtain ⟨u,rest,ht,hu,hl⟩ := signed_cases signed h pre
  rcases hu with rfl | ⟨rfl,-⟩
  · obtain rfl : a ++ w = rest := ht
    rw [hl,ho]
    rfl
  · obtain ⟨-,ha,-⟩ := Pattern.operand_eq_some_iff.mp ho
    obtain ⟨t,a,rfl⟩ := List.exists_cons_of_ne_nil ha.ne_nil
    obtain ⟨rfl,-⟩ := List.cons_eq_cons.mp ht
    cases ha.isOperand _ (List.mem_cons_self ..)

theorem operation?_eq (op : BinaryOp) (src : List UInt8) : operation? op src =
    (operand src (if op = .times ∨ op = .divide then skip '-' src 0 else 0)).bind fun place =>
      (sign op.symbol src place).bind fun right =>
        (operand src (if op = .times ∨ op = .divide then skip '-' src right else right)).bind
          fun stop => if stop = src.length then some place else none := rfl

/-- Behind the first operand of an operation stands its sign, and then the second operand. -/
theorem operation?_split {op : BinaryOp} (h : text.Allowed)
    (he : operation? op (code text) = some i) :
    ∃ u a v b : Fragment, (u = [] ∨ u = [.char '-'] ∧ (op = .times ∨ op = .divide)) ∧
      (v = [] ∨ v = [.char '-'] ∧ (op = .times ∨ op = .divide)) ∧ a.Operand ∧ b.Operand ∧
      text = u ++ (a ++ .char op.symbol :: (v ++ b)) ∧ i = (code (u ++ a)).length := by
  have hsym : op.symbol ≠ '[' := by cases op <;> decide
  have hsymo : (Token.char op.symbol).isOperand = false := by cases op <;> rfl
  rw [operation?_eq] at he
  obtain ⟨place,hplace,he⟩ := Option.bind_eq_some_iff.mp he
  obtain ⟨right,hright,he⟩ := Option.bind_eq_some_iff.mp he
  obtain ⟨stop,hstop,he⟩ := Option.bind_eq_some_iff.mp he
  obtain ⟨hwhole,he⟩ := Option.ite_none_right_eq_some.mp he
  obtain rfl := Option.some.inj he
  obtain ⟨u,rest,rfl,hu,hl⟩ := signed_cases (op = .times ∨ op = .divide) h []
  rw [List.nil_append,List.length_nil] at hl
  obtain ⟨⟨a,w⟩,ha,rfl⟩ := Option.map_eq_some_iff.mp (hl.symm.trans hplace)
  obtain ⟨rfl,hao,-⟩ := Pattern.operand_eq_some_iff.mp ha
  have hw := (Fragment.allowed_append.mp (Fragment.allowed_append.mp h).2).2
  have hsrc : code (u ++ (a ++ w)) = code (u ++ a) ++ code w := by simp
  have hs := renders_sign hsym (code (u ++ a)) w hw
  rw [List.nil_append,hsrc,hs] at hright
  obtain ⟨⟨s,w'⟩,hs,rfl⟩ := Option.map_eq_some_iff.mp hright
  obtain ⟨c,hc,rfl,rfl⟩ := Pattern.sign_eq_some hs
  obtain rfl := List.mem_singleton.mp hc
  obtain ⟨hop,hw⟩ := Fragment.allowed_char.mp hw
  have hsrc : code (u ++ (a ++ .char op.symbol :: w')) =
      code (u ++ a) ++ code [.char op.symbol] ++ code w' := by
    simp [code_char hop]
  obtain ⟨v,rest',rfl,hv,hr⟩ := signed_cases (op = .times ∨ op = .divide) hw
    (code (u ++ a) ++ code [.char op.symbol])
  rw [hsrc] at hstop hwhole
  obtain ⟨⟨b,w⟩,hb,rfl⟩ := Option.map_eq_some_iff.mp (hr.symm.trans hstop)
  obtain ⟨rfl,hbo,-⟩ := Pattern.operand_eq_some_iff.mp hb
  have hwn : code w = [] := by
    simp only [code_append,List.length_append] at hwhole
    exact List.eq_nil_of_length_eq_zero (by omega)
  obtain rfl := (code_eq_nil_iff (Fragment.allowed_append.mp
    (Fragment.allowed_append.mp hw).2).2).mp hwn
  exact ⟨u,a,v,b,hu,hv,hao,hbo,by simp,rfl⟩

theorem operation?_code {op : BinaryOp} (h : text.Allowed) (hp : text.Plain) :
    operation? op (code text) = some i ↔ ∃ a b : Fragment, a.Operand ∧ b.Operand ∧
      text = a ++ .char op.symbol :: b ∧ i = (code a).length := by
  have hsymo : (Token.char op.symbol).isOperand = false := by cases op <;> rfl
  constructor
  · intro he
    obtain ⟨u,a,v,b,hu,hv,ha,hb,ht,hi⟩ := operation?_split h he
    have hu : u = [] := by
      rcases hu with hu | ⟨rfl,hop⟩
      · exact hu
      exfalso
      have hends : a.Ends (.char op.symbol :: (v ++ b)) :=
        (Pattern.operand_eq_some_iff.mp (Tier.operand_sign ha hsymo _)).2.2
      have hw := hp.minus a _ ht ha hends (by
        rintro t ht rfl
        rcases hop with rfl | rfl <;> cases ht)
      cases hw
    subst hu
    have hv : v = [] := by
      rcases hv with hv | ⟨rfl,hop⟩
      · exact hv
      exfalso
      exact hp.sign a (.char op.symbol) b ht (by cases op <;> rfl) hb
    subst hv
    exact ⟨a,b,ha,hb,ht,hi⟩
  · rintro ⟨a,b,ha,hb,rfl,rfl⟩
    have hsym : op.symbol ≠ '[' := by cases op <;> decide
    have hb' := (Fragment.allowed_append.mp h).2
    obtain ⟨hop,hbl⟩ := Fragment.allowed_char.mp hb'
    have hl := signed_operand (op = .times ∨ op = .divide) h (Tier.operand_sign ha hsymo b) []
    have hs := renders_sign hsym (code a) _ hb'
    rw [Pattern.sign_cons (by simp),← code_append] at hs
    have hr := signed_operand (op = .times ∨ op = .divide) (a := b) (w := []) (by simpa using hbl)
      (by simpa using Fragment.operand_self hb) (code a ++ code [.char op.symbol])
    rw [List.append_nil] at hr
    have hsrc : code (a ++ .char op.symbol :: b) = code a ++ code [.char op.symbol] ++ code b := by
      simp [code_char hop]
    rw [List.nil_append,List.length_nil] at hl
    rw [operation?_eq,hl,Option.bind_some,List.nil_append,hs,Option.map_some,Option.bind_some,hsrc,
      hr,Option.bind_some,if_pos rfl]

/-- A factor and a reference or letters behind it, maybe with a minus in front of the factor and a
star between the two. -/
structure Split (text u a v b : Fragment) : Prop where
  text_eq : text = u ++ (a ++ (v ++ b))
  minus : u = [] ∨ u = [.char '-']
  star : v = [] ∨ v = [.char '*']
  operand : a.Operand
  factor : a.length = 1 ∨ a.all Token.isDigit = true
  second : (∃ j content, b = [.ref j content]) ∨
    (∀ t ∈ a, t.isLetter = false) ∧ b ≠ [] ∧ ∀ t ∈ b, t.isLetter = true

theorem reference_eq_some {stop : Nat} (h : text.Allowed)
    (he : reference (code text) 0 = some stop) :
    ∃ j content rest, text = .ref j content :: rest ∧ stop = (code [.ref j content]).length := by
  obtain ⟨⟨a,rest⟩,hr,rfl⟩ :=
    Option.map_eq_some_iff.mp ((renders_reference [] text h).symm.trans he)
  obtain ⟨t,rfl,rfl,ht⟩ := Pattern.single_eq_some hr
  cases t with
  | char c => cases ht
  | ref j content => exact ⟨j,content,rest,rfl,rfl⟩

theorem twoReferences?_split (h : text.Allowed) (he : twoReferences? (code text) = some i) :
    ∃ a b, Split text [] a [] b ∧ i = (code a).length := by
  obtain ⟨second,hs,he⟩ := Option.bind_eq_some_iff.mp he
  obtain ⟨stop,hr,he⟩ := Option.bind_eq_some_iff.mp he
  obtain ⟨rfl,hi⟩ := Option.ite_none_right_eq_some.mp he
  obtain rfl := Option.some.inj hi
  obtain ⟨j,content,rest,rfl,rfl⟩ := reference_eq_some h hs
  have hrest := (Fragment.allowed_ref.mp h).2
  rw [code_cons] at hr
  obtain ⟨k,content',rfl⟩ := (reference_whole_iff hrest _).mp hr
  exact ⟨[.ref j content],[.ref k content'],⟨rfl,.inl rfl,.inl rfl,.reference j content,.inl rfl,
    .inl ⟨k,content',rfl⟩⟩,rfl⟩

theorem factor?_split {p q : Scanner} {P Q : Pattern} {m n : Nat} (hp : Renders p P)
    (hP : P.Cuts m) (hq : Renders q Q) (hQ : Q.Cuts n) (h : text.Allowed)
    (he : factor? p q (code text) = some i) :
    ∃ u a v b : Fragment, text = u ++ (a ++ (v ++ b)) ∧ (u = [] ∨ u = [.char '-']) ∧
      (v = [] ∨ v = [.char '*']) ∧ P (a ++ (v ++ b)) = some (a, v ++ b) ∧ Q b = some (b, []) ∧
      i = (code (u ++ a ++ v)).length := by
  obtain ⟨u,rest,rfl,hu,-,hk⟩ := skip_cases (c := '-') (by decide) h []
  rw [List.nil_append,List.nil_append,List.length_nil] at hk
  obtain ⟨stop,hs,he⟩ := Option.bind_eq_some_iff.mp he
  obtain ⟨stop',hr,he⟩ := Option.bind_eq_some_iff.mp he
  obtain ⟨rfl,hi⟩ := Option.ite_none_right_eq_some.mp he
  obtain rfl := Option.some.inj hi
  have hrest := (Fragment.allowed_append.mp h).2
  rw [hk,code_append,hp (code u) rest hrest] at hs
  obtain ⟨⟨a,w⟩,ha,rfl⟩ := Option.map_eq_some_iff.mp hs
  obtain ⟨rfl,-⟩ := hP _ _ _ ha
  have hw := (Fragment.allowed_append.mp hrest).2
  obtain ⟨v,b,rfl,hv,-,hk⟩ := skip_cases (c := '*') (by decide) hw (code (u ++ a))
  have hsrc : code (u ++ (a ++ (v ++ b))) = code (u ++ a) ++ code (v ++ b) := by simp
  have hsrc' : code (u ++ a) ++ code (v ++ b) = code (u ++ a) ++ code v ++ code b := by simp
  rw [← code_append u a,hsrc,hk,hsrc',
    whole_iff hq hQ (Fragment.allowed_append.mp hw).2] at hr
  exact ⟨u,a,v,b,rfl,hu,hv,ha,hr,by rw [← code_append u a,hsrc,hk,← code_append]⟩

theorem factorOfReference?_split (h : text.Allowed)
    (he : factorOfReference? (code text) = some i) :
    ∃ u a v b, Split text u a v b ∧ i = (code (u ++ a ++ v)).length := by
  obtain ⟨u,a,v,b,ht,hu,hv,ha,hb,hi⟩ := factor?_split (renders_orElse renders_letter renders_digits)
    (Pattern.orElse_cuts (Pattern.single_cuts _) (Pattern.run_cuts _)) renders_reference
    (Pattern.single_cuts _) h he
  have hfactor : a.Operand ∧ (a.length = 1 ∨ a.all Token.isDigit = true) := by
    rcases Pattern.orElse_eq_some ha with ha | ha
    · obtain ⟨t,-,rfl,htl⟩ := Pattern.single_eq_some ha
      exact ⟨.singleton (by simp [Token.isOperand,htl]),.inl rfl⟩
    · obtain ⟨-,hn,hd,-⟩ := Pattern.run_eq_some_iff.mp ha
      obtain ⟨cs,rfl,hc⟩ := Fragment.eq_map_char_of_isDigit hd
      exact ⟨.number (by simpa using hn) hc,.inr (List.all_eq_true.mpr hd)⟩
  obtain ⟨t,hbt,-,ht'⟩ := Pattern.single_eq_some hb
  have hb : ∃ j content, b = [.ref j content] := by
    cases t with
    | char c => cases ht'
    | ref j content => exact ⟨j,content,hbt⟩
  exact ⟨u,a,v,b,⟨ht,hu,hv,hfactor.1,hfactor.2,.inl hb⟩,hi⟩

theorem factorOfLetters?_split (h : text.Allowed)
    (he : factorOfLetters? (code text) = some i) :
    ∃ u a v b, Split text u a v b ∧ i = (code (u ++ a ++ v)).length := by
  obtain ⟨u,a,v,b,ht,hu,hv,ha,hb,hi⟩ := factor?_split
    (renders_orElse renders_digits renders_reference)
    (Pattern.orElse_cuts (Pattern.run_cuts _) (Pattern.single_cuts _)) renders_letters
    (Pattern.run_cuts _) h he
  obtain ⟨-,hbn,hbl,-⟩ := Pattern.run_eq_some_iff.mp hb
  have hfactor : a.Operand ∧ (a.length = 1 ∨ a.all Token.isDigit = true) ∧
      ∀ t ∈ a, t.isLetter = false := by
    rcases Pattern.orElse_eq_some ha with ha | ha
    · obtain ⟨-,hn,hd,-⟩ := Pattern.run_eq_some_iff.mp ha
      obtain ⟨cs,rfl,hc⟩ := Fragment.eq_map_char_of_isDigit hd
      exact ⟨.number (by simpa using hn) hc,.inr (List.all_eq_true.mpr hd),
        fun t ht => Token.not_isLetter_of_isDigit (hd t ht)⟩
    · obtain ⟨t,-,rfl,htr⟩ := Pattern.single_eq_some ha
      cases t with
      | char c => cases htr
      | ref j content => exact ⟨.reference j content,.inl rfl,by simp [Token.isLetter]⟩
  exact ⟨u,a,v,b,⟨ht,hu,hv,hfactor.1,hfactor.2.1,.inr ⟨hfactor.2.2,hbn,hbl⟩⟩,hi⟩

/-- In a text that is built there is neither a minus nor a star around a factor, unless it is a
product that is written with a star, and of letters there is just one. -/
theorem Split.juxtaposed {u a v b : Fragment} (h : Split text u a v b) (hp : text.Plain)
    (ht : ∀ a b : Fragment, a.Operand → b.Operand → text ≠ a ++ .char '*' :: b) :
    text.shape = .juxtaposition a b ∧ u = [] ∧ v = [] := by
  have hbo : b.Operand := by
    rcases h.second with ⟨j,content,rfl⟩ | ⟨-,hn,hl⟩
    · exact .reference j content
    · obtain ⟨cs,rfl,hc⟩ := Fragment.eq_map_char_of_isLetter hl
      exact .name (by simpa using hn) hc
  have hends : a.Ends (v ++ b) := by
    rcases h.star with rfl | rfl
    · rcases h.second with ⟨j,content,rfl⟩ | ⟨hn,hbn,hl⟩
      · exact a.ends_ref j content []
      · obtain ⟨t,b,rfl⟩ := List.exists_cons_of_ne_nil hbn
        exact Fragment.ends_letter hn (hl t (by simp)) b
    · exact (Pattern.operand_eq_some_iff.mp (Tier.operand_sign h.operand rfl b)).2.2
  have hu : u = [] := by
    rcases h.minus with hu | rfl
    · exact hu
    exfalso
    have hw := hp.minus a (v ++ b) h.text_eq h.operand hends (by
      rintro t ht rfl
      rcases h.star with rfl | rfl
      · obtain ⟨x,b,rfl⟩ := List.exists_cons_of_ne_nil hbo.ne_nil
        cases ht
        cases hbo.isOperand _ (List.mem_cons_self ..)
      · cases ht)
    exact hbo.ne_nil (List.append_eq_nil_iff.mp hw).2
  have hv : v = [] := by
    rcases h.star with hv | rfl
    · exact hv
    · exact absurd (by simpa [hu] using h.text_eq) (ht a b h.operand hbo)
  have htext := h.text_eq
  rw [hu,hv,List.nil_append,List.nil_append] at htext
  rw [hv,List.nil_append] at hends
  refine ⟨?_,hu,hv⟩
  rcases h.second with ⟨j,content,rfl⟩ | ⟨hn,hbn,hl⟩
  · rw [htext]
    exact Fragment.shape_juxtaposition h.operand h.factor (.inl rfl) hends
  · obtain ⟨t,b,rfl⟩ := List.exists_cons_of_ne_nil hbn
    obtain rfl := hp.letters a t b htext h.operand hn hl
    rw [htext]
    exact Fragment.shape_juxtaposition h.operand h.factor (.inr (hl t (by simp))) hends

theorem skip_of_isOperand {c : Char} (hc : c ≠ '[') (hco : (Token.char c).isOperand = false)
    {t : Token} {w : Fragment} (h : Fragment.Allowed (t :: w)) (ht : t.isOperand = true)
    (pre : List UInt8) : skip c (pre ++ code (t :: w)) pre.length = pre.length := by
  obtain ⟨u,rest,htext,hu,-,hk⟩ := skip_cases hc h pre
  rcases hu with rfl | rfl
  · rw [hk]
    simp
  · obtain ⟨rfl,-⟩ := List.cons_eq_cons.mp htext
    rw [hco] at ht
    cases ht

theorem factor?_of_patterns {p q : Scanner} {P Q : Pattern} (hp : Renders p P) (hq : Renders q Q)
    {a : Fragment} {t : Token} (h : (a ++ [t]).Allowed) (ha : a.Operand) (ht : t.isOperand = true)
    (hP : P (a ++ [t]) = some (a, [t])) (hQ : Q [t] = some ([t], [])) :
    factor? p q (code (a ++ [t])) = some (code a).length := by
  have hfirst := hp [] _ h
  rw [hP,List.nil_append,List.length_nil] at hfirst
  have hsecond := hq (code a) _ (Fragment.allowed_append.mp h).2
  rw [hQ,← code_append] at hsecond
  have hstar := skip_of_isOperand (c := '*') (by decide) rfl (Fragment.allowed_append.mp h).2 ht
    (code a)
  rw [← code_append] at hstar
  have hminus : skip '-' (code (a ++ [t])) 0 = 0 := by
    obtain ⟨x,a,rfl⟩ := List.exists_cons_of_ne_nil ha.ne_nil
    exact skip_of_isOperand (by decide) rfl h (ha.isOperand x (by simp)) []
  have hf : factor? p q (code (a ++ [t])) = (p (code (a ++ [t]))
      (skip '-' (code (a ++ [t])) 0)).bind fun stop =>
        (q (code (a ++ [t])) (skip '*' (code (a ++ [t])) stop)).bind fun stop' =>
          if stop' = (code (a ++ [t])).length then some (skip '*' (code (a ++ [t])) stop)
          else none := rfl
  rw [hf,hminus,hfirst]
  simp only [Option.map_some,Option.bind_some,List.nil_append,hstar,hsecond]
  rw [if_pos (by simp)]

theorem split?_split (h : text.Allowed) (he : split? (code text) = some i) :
    ∃ u a v b, Split text u a v b ∧ i = (code (u ++ a ++ v)).length := by
  rw [split?,Option.or_eq_some_iff,Option.or_eq_some_iff] at he
  rcases he with he | ⟨-,he | ⟨-,he⟩⟩
  · obtain ⟨a,b,hs,hi⟩ := twoReferences?_split h he
    exact ⟨[],a,[],b,hs,by simpa using hi⟩
  · exact factorOfReference?_split h he
  · exact factorOfLetters?_split h he

theorem form_of_shape {s : Shape} (h : text.shape = s)
    (hs : (∃ inner, s = .logarithm inner) ∨ ∃ a b, s = .juxtaposition a b) :
    Shape.logarithm? text = some s ∨ Shape.juxtaposition? text = some s := by
  have hc := text.shape_cases
  rw [h] at hc
  have hg : Shape.group? text ≠ some s := fun hg => by
    unfold Shape.group? at hg
    split at hg <;> simp at hg
    simp [← hg] at hs
  have ho : Shape.operand? text ≠ some s := fun ho => by
    unfold Shape.operand? at ho
    split at ho <;> (try split at ho) <;> simp at ho <;> simp [← ho] at hs
  have hn : Shape.negation? text ≠ some s := fun hn => by
    unfold Shape.negation? at hn
    split at hn <;> (try split at hn) <;> (try split at hn) <;> simp at hn <;> simp [← hn] at hs
  have hb : Shape.operation? text ≠ some s := fun hb => by
    unfold Shape.operation? at hb
    split at hb <;> (try split at hb) <;> simp at hb
    simp [← hb] at hs
  have hu : s ≠ .unknown text := by
    rintro rfl
    simp at hs
  tauto

theorem of_shape_juxtaposition {a b : Fragment} (h : text.shape = .juxtaposition a b) :
    ∃ t, b = [t] ∧ a.Ends [t] ∧ a.Operand ∧ (a.length = 1 ∨ a.all Token.isDigit = true) ∧
      (t.isReference = true ∨ t.isLetter = true) := by
  rcases form_of_shape h (.inr ⟨a,b,rfl⟩) with hc | hc
  · unfold Shape.logarithm? at hc
    split at hc <;> (try split at hc) <;> cases hc
  · unfold Shape.juxtaposition? at hc
    split at hc
    · rename_i t ho
      split at hc
      · rename_i hf
        cases hc
        obtain ⟨-,ha,he⟩ := Pattern.operand_eq_some_iff.mp ho
        exact ⟨t,rfl,he,ha,hf⟩
      · cases hc
    · cases hc

theorem letter_or_digits {a : Fragment} (ha : a.Operand)
    (hf : a.length = 1 ∨ a.all Token.isDigit = true) (hr : ∀ j content, a ≠ [.ref j content])
    (j : Nat) (content : Fragment) :
    (Pattern.letter.orElse Pattern.digits) (a ++ [.ref j content]) =
      some (a, [.ref j content]) := by
  cases ha with
  | @name cs hn hc =>
    rw [Fragment.all_isDigit_of_name hn hc] at hf
    obtain ⟨c,rfl⟩ := List.length_eq_one_iff.mp
      (by simpa using hf : cs.length = 1)
    have hl : (Token.char c).isLetter = true := hc c (by simp)
    exact Pattern.orElse_of_some (by simp [Pattern.letter,Pattern.single,hl])
  | @number cs hn hc =>
    obtain ⟨c,cs,rfl⟩ := List.exists_cons_of_ne_nil hn
    have hd : (Token.char c).isDigit = true := hc c (by simp)
    have hl : Pattern.letter ((c :: cs).map .char ++ [.ref j content]) = none := by
      simp [Pattern.letter,Pattern.single,Token.not_isLetter_of_isDigit hd]
    have hd : Pattern.digits ((c :: cs).map .char ++ [.ref j content]) =
        some ((c :: cs).map .char, [.ref j content]) :=
      Pattern.run_eq_some_iff.mpr ⟨rfl,by simp,by simpa [Token.isDigit] using hc,by
        simp [Token.isDigit]⟩
    rw [Pattern.orElse,hl,hd]
  | reference i d => exact absurd rfl (hr i d)

theorem twoReferences?_of_references {j k : Nat} {c d : Fragment}
    (h : Fragment.Allowed [.ref j c,.ref k d]) :
    twoReferences? (code [.ref j c,.ref k d]) = some (code [.ref j c]).length := by
  have hfirst : reference (code [.ref j c,.ref k d]) 0 = some (code [.ref j c]).length :=
    renders_reference [] _ h
  have hsecond : reference (code [.ref j c,.ref k d]) (code [.ref j c]).length =
      some (code [.ref j c,.ref k d]).length := by
    rw [code_cons]
    exact renders_reference (code [.ref j c]) _ (Fragment.allowed_ref.mp h).2
  have hf : twoReferences? (code [.ref j c,.ref k d]) =
      (reference (code [.ref j c,.ref k d]) 0).bind fun second =>
        (reference (code [.ref j c,.ref k d]) second).bind fun stop =>
          if stop = (code [.ref j c,.ref k d]).length then some second else none := rfl
  rw [hf,hfirst,Option.bind_some,hsecond,Option.bind_some,if_pos rfl]

/-- A product without a sign is cut in two somewhere. -/
theorem split?_ne_none (h : text.Allowed) {a b : Fragment}
    (hs : text.shape = .juxtaposition a b) : split? (code text) ≠ none := by
  obtain ⟨t,rfl,he,ha,hf,ht⟩ := of_shape_juxtaposition hs
  obtain rfl : text = a ++ [t] := Fragment.eq_text_of_shape hs
  have hto : t.isOperand = true := Token.isOperand_of_second ht
  intro hn
  rw [split?,Option.or_eq_none_iff,Option.or_eq_none_iff] at hn
  obtain ⟨htwo,href,hlet⟩ := hn
  rcases ht with ht | ht
  · cases t with
    | char c => cases ht
    | ref j content =>
      by_cases hr : ∃ i d, a = [.ref i d]
      · obtain ⟨i,d,rfl⟩ := hr
        exact absurd ((twoReferences?_of_references h).symm.trans htwo) (by simp)
      · have hr : ∀ i d, a ≠ [.ref i d] := fun i d he => hr ⟨i,d,he⟩
        have hsome := factor?_of_patterns (renders_orElse renders_letter renders_digits)
          renders_reference h ha hto (letter_or_digits ha hf hr j content) rfl
        exact absurd (hsome.symm.trans href) (by simp)
  · have hn := ha.not_isLetter he ht
    have hl : Pattern.letters [t] = some ([t], []) :=
      Pattern.run_eq_some_iff.mpr ⟨rfl,by simp,by simpa using ht,by simp⟩
    have hsome := factor?_of_patterns (renders_orElse renders_digits renders_reference)
      renders_letters h ha hto (Tier.coefficient_factor ha hn ht []) hl
    exact absurd (hsome.symm.trans hlet) (by simp)

end Places

end Fluxion.Formula.Inline
