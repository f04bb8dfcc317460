import Fluxion.Proofs.Wording

/-! Line by line. A text falls into lines in one way, each line is answered with a complaint or
with what is printed about it, and the transcript of a text is those of its lines in their order. -/
namespace Fluxion

namespace Text

/-- A text and its lines, as line ends divide it. Where a carriage return stands in front of a
line feed, both are the end. -/
inductive Lines : List Char → List (List Char) → Prop
  | nil : Lines [] []
  | last {line : List Char} (hn : line ≠ []) (hu : Unbroken line) : Lines line [line]
  | feed {line rest : List Char} {ls : List (List Char)} (hu : Unbroken line)
    (hr : line.getLast? ≠ some '\r') (h : Lines rest ls) : Lines (line ++ '\n' :: rest) (line :: ls)
  | returnFeed {line rest : List Char} {ls : List (List Char)} (hu : Unbroken line)
    (h : Lines rest ls) : Lines (line ++ '\r' :: '\n' :: rest) (line :: ls)

/-- A text and its parts in front of the first separator and behind it. -/
inductive Split (separator : Char) : List Char → List Char → Option (List Char) → Prop
  | whole {s : List Char} (h : separator ∉ s) : Split separator s s none
  | parts {front : List Char} (h : separator ∉ front) (back : List Char) :
    Split separator (front ++ separator :: back) front (some back)

/-- A text and what is left of it without the white space at its ends. -/
structure Trimmed (s t : List Char) : Prop where
  cut : ∃ front back, s = front ++ t ++ back ∧
    (∀ c ∈ front, isBlank c = true) ∧ ∀ c ∈ back, isBlank c = true
  first : ∀ c ∈ t.head?, isBlank c = false
  last : ∀ c ∈ t.getLast?, isBlank c = false

variable {s line rest : List Char} {ls : List (List Char)}

namespace Lines

theorem unbroken (h : Lines s ls) : ∀ line ∈ ls, Unbroken line := by
  induction h with
  | nil => simp
  | last hn hu => simpa using hu
  | feed hu hr h ih => exact List.forall_mem_cons.mpr ⟨hu,ih⟩
  | returnFeed hu h ih => exact List.forall_mem_cons.mpr ⟨hu,ih⟩

end Lines

/-- A text has lines: the first one ends with the first line feed. -/
theorem exists_lines (s : List Char) : ∃ ls, Lines s ls := by
  induction hl : s.length using Nat.strong_induction_on generalizing s with
  | _ n ih =>
    by_cases hu : Unbroken s
    · cases s with
      | nil => exact ⟨[],.nil⟩
      | cons c s => exact ⟨[c :: s],.last (by simp) hu⟩
    · obtain ⟨front,rest,rfl,hf⟩ := List.eq_append_cons_of_mem (not_not.mp hu)
      have hlt : rest.length < n := by
        rw [← hl,List.length_append,List.length_cons]
        omega
      obtain ⟨ls,h⟩ := ih _ hlt rest rfl
      by_cases hr : front.getLast? = some '\r'
      · obtain ⟨line,rfl⟩ := List.getLast?_eq_some_iff.mp hr
        rw [List.append_assoc]
        exact ⟨line :: ls,.returnFeed (unbroken_append.mp hf).1 h⟩
      · exact ⟨front :: ls,.feed hf hr h⟩

section Bytes

variable {raw more : List UInt8}

@[simp] theorem encodeChar_feed : String.utf8EncodeChar '\n' = [10] := rfl

@[simp] theorem encodeChar_return : String.utf8EncodeChar '\r' = [13] := rfl

theorem ten_notMem_encodeChar {c : Char} (h : c ≠ '\n') : 10 ∉ String.utf8EncodeChar c := by
  have hc : c.val.toNat ≠ 10 := fun hc => h (Char.ext (UInt32.toNat_inj.mp hc))
  intro hm
  have hm : 10 ∈ (String.utf8EncodeChar c).map UInt8.toNat := List.mem_map_of_mem hm
  simp only [String.utf8EncodeChar] at hm
  split_ifs at hm <;>
    simp only [List.map_cons,List.map_nil,List.mem_cons,List.not_mem_nil,or_false,
      UInt8.toNat_ofNat'] at hm <;>
    omega

theorem ten_notMem_encode (h : Unbroken s) : 10 ∉ encode s := by
  intro hm
  obtain ⟨c,hc,hm⟩ := List.mem_flatMap.mp hm
  refine ten_notMem_encodeChar ?_ hm
  rintro rfl
  exact h hc

theorem decode?_encode (s : List Char) : decode? (encode s) = some s := by
  have h : s.utf8Encode.utf8Decode? = some s.toArray := List.utf8Decode?_utf8Encode
  rw [decode?,show (encode s).toByteArray = s.utf8Encode from rfl,h]
  rfl

theorem encode_injective : Function.Injective encode := fun s t h =>
  Option.some.inj (by rw [← decode?_encode s,h,decode?_encode])

theorem encode_of_decode? (h : decode? raw = some s) : encode s = raw := by
  obtain ⟨a,ha,rfl⟩ := Option.map_eq_some_iff.mp h
  have hs : raw.toByteArray.utf8Decode?.isSome = true := by rw [ha]; rfl
  have he : a.toList.utf8Encode = raw.toByteArray := by
    simpa [ha] using ByteArray.utf8Encode_get_utf8Decode? (h := hs)
  exact List.toByteArray_inj.mp he

theorem rawLines_feed (h : 10 ∉ raw) (more : List UInt8) :
    rawLines (raw ++ 10 :: more) = (raw ++ [10]) :: rawLines more := by
  induction raw with
  | nil => simp [rawLines]
  | cons b raw ih =>
    obtain ⟨hb,hr⟩ := not_or.mp (mt List.mem_cons.mpr h)
    rw [List.cons_append,rawLines,if_neg (Ne.symm hb),ih hr]
    rfl

theorem rawLines_last (hn : raw ≠ []) (h : 10 ∉ raw) : rawLines raw = [raw] := by
  induction raw with
  | nil => exact absurd rfl hn
  | cons b raw ih =>
    obtain ⟨hb,hr⟩ := not_or.mp (mt List.mem_cons.mpr h)
    rw [rawLines,if_neg (Ne.symm hb)]
    cases raw with
    | nil => rfl
    | cons d raw => rw [ih (by simp) hr]

theorem rawLines_ne_nil (hn : raw ≠ []) : rawLines raw ≠ [] := by
  cases raw with
  | nil => exact absurd rfl hn
  | cons b raw =>
    rw [rawLines]
    split
    · simp
    · split <;> simp

theorem flatten_rawLines (raw : List UInt8) : (rawLines raw).flatten = raw := by
  induction raw with
  | nil => rfl
  | cons b raw ih =>
    rw [rawLines]
    split
    · simp [ih]
    · split
      · simp_all
      · rename_i hl
        rw [hl] at ih
        simpa using ih

theorem exists_encode_eq_flatten {raws : List (List UInt8)}
    (h : ∀ raw ∈ raws, ∃ s, encode s = raw) : ∃ s, encode s = raws.flatten := by
  induction raws with
  | nil => exact ⟨[],rfl⟩
  | cons raw raws ih =>
    obtain ⟨⟨s,hs⟩,h⟩ := List.forall_mem_cons.mp h
    obtain ⟨t,ht⟩ := ih h
    exact ⟨s ++ t,by rw [encode_append,hs,ht,List.flatten_cons]⟩

/-- What ends with a line feed ends with a whole line. -/
theorem rawLines_append (h : raw = [] ∨ raw.getLast? = some 10) (more : List UInt8) :
    rawLines (raw ++ more) = rawLines raw ++ rawLines more := by
  induction raw with
  | nil => rfl
  | cons b raw ih =>
    rw [List.cons_append,rawLines,rawLines]
    by_cases hb : b = 10
    · have hr : raw = [] ∨ raw.getLast? = some 10 := by
        cases raw with
        | nil => exact .inl rfl
        | cons d raw => exact .inr (by simpa using h)
      rw [if_pos hb,if_pos hb,ih hr,List.cons_append]
    · cases raw with
      | nil => simp [hb] at h
      | cons d raw =>
        obtain ⟨line,more,hl⟩ := List.exists_cons_of_ne_nil (rawLines_ne_nil (List.cons_ne_nil d raw))
        rw [if_neg hb,if_neg hb,ih (.inr (by simpa using h)),hl]
        rfl

theorem chop_of_unbroken (h : Unbroken line) : chop line = line := by
  have hn : '\n' ∉ line.reverse := fun hm => h (List.mem_reverse.mp hm)
  unfold chop
  split
  · rename_i hr
    exact absurd (hr ▸ List.mem_cons_self) hn
  · rename_i hr
    exact absurd (hr ▸ List.mem_cons_self) hn
  · rfl

theorem chop_feed (h : line.getLast? ≠ some '\r') : chop (line ++ ['\n']) = line := by
  rw [List.getLast?_eq_head?_reverse] at h
  rw [chop,List.reverse_concat]
  split
  · rename_i hr
    rw [(List.cons.inj hr).2] at h
    exact absurd rfl h
  · rename_i hr
    rw [← (List.cons.inj hr).2,List.reverse_reverse]
  · rename_i hr
    exact absurd rfl (hr _)

theorem chop_returnFeed (line : List Char) : chop (line ++ ['\r', '\n']) = line := by
  simp [chop]

theorem line?_encode (s : List Char) : line? (encode s) = some (chop s) := by
  rw [line?,decode?_encode,Option.map_some]

/-- The bytes of a text fall into the bytes of its lines. -/
theorem Lines.map_line? (h : Lines s ls) : (rawLines (encode s)).map line? = ls.map some := by
  induction h with
  | nil => rfl
  | @last line hn hu =>
    have hne : encode line ≠ [] := fun he => hn (encode_injective he)
    rw [rawLines_last hne (ten_notMem_encode hu),List.map_singleton,line?_encode,chop_of_unbroken hu,
      List.map_singleton]
  | @feed line rest ls hu hr h ih =>
    have hs : encode (line ++ '\n' :: rest) = encode line ++ 10 :: encode rest := by simp
    have hraw : encode line ++ [10] = encode (line ++ ['\n']) := by simp
    rw [hs,rawLines_feed (ten_notMem_encode hu),hraw,List.map_cons,line?_encode,chop_feed hr,ih,
      List.map_cons]
  | @returnFeed line rest ls hu h ih =>
    have hs : encode (line ++ '\r' :: '\n' :: rest) = (encode line ++ [13]) ++ 10 :: encode rest := by simp
    have hraw : encode line ++ [13] ++ [10] = encode (line ++ ['\r', '\n']) := by simp
    have hn : 10 ∉ encode line ++ [13] := by simpa using ten_notMem_encode hu
    rw [hs,rawLines_feed hn,hraw,List.map_cons,line?_encode,chop_returnFeed,ih,List.map_cons]

theorem Lines.unique {ls' : List (List Char)} (h : Lines s ls) (h' : Lines s ls') : ls = ls' :=
  List.map_injective_iff.mpr (Option.some_injective _) (h.map_line?.symm.trans h'.map_line?)

end Bytes

theorem Split.unbroken {separator : Char} {front : List Char} {back? : Option (List Char)}
    (h : Split separator s front back?) (hu : Unbroken s) :
    Unbroken front ∧ ∀ back ∈ back?, Unbroken back := by
  cases h with
  | whole h => exact ⟨hu,by simp⟩
  | parts h back =>
    obtain ⟨hf,hb⟩ := unbroken_append.mp hu
    exact ⟨hf,by simpa using (unbroken_cons.mp hb).2⟩

theorem split_splitFirst (separator : Char) (s : List Char) :
    Split separator s (splitFirst separator s).1 (splitFirst separator s).2 := by
  unfold splitFirst
  have hf : separator ∉ s.takeWhile (· != separator) := fun hm => by
    simpa using List.mem_takeWhile_imp hm
  have hs := List.takeWhile_append_dropWhile (p := (· != separator)) (l := s)
  cases hd : s.dropWhile (· != separator) with
  | nil =>
    rw [hd,List.append_nil] at hs
    rw [hs] at hf ⊢
    exact .whole hf
  | cons c back =>
    have hc : c = separator := by simpa [hd] using List.head?_dropWhile_not (· != separator) s
    rw [hd,hc] at hs
    generalize s.takeWhile (· != separator) = front at hf hs
    rw [← hs]
    exact .parts hf back

theorem isBlank_head_trimStart (s : List Char) : ∀ c ∈ (trimStart s).head?, isBlank c = false := by
  intro c hc
  have h := List.head?_dropWhile_not isBlank s
  rw [trimStart] at hc
  rw [hc] at h
  simpa using h

theorem exists_trimStart (s : List Char) :
    ∃ front, s = front ++ trimStart s ∧ ∀ c ∈ front, isBlank c = true :=
  ⟨s.takeWhile isBlank,List.takeWhile_append_dropWhile.symm,fun _ => List.mem_takeWhile_imp⟩

theorem trimmed_trim (s : List Char) : Trimmed s (trim s) := by
  obtain ⟨front,hf,hfront⟩ := exists_trimStart s
  obtain ⟨back,hb,hback⟩ := exists_trimStart (trimStart s).reverse
  have hs : trimStart s = trim s ++ back.reverse := by
    rw [trim,← List.reverse_append,← hb,List.reverse_reverse]
  refine ⟨⟨front,back.reverse,?_,hfront,by simpa using hback⟩,?_,?_⟩
  · rw [List.append_assoc,← hs]
    exact hf
  · intro c hc
    refine isBlank_head_trimStart s c ?_
    rw [hs,List.head?_append]
    rw [hc]
    rfl
  · intro c hc
    rw [trim,List.getLast?_reverse] at hc
    exact isBlank_head_trimStart _ c hc

end Text
end Fluxion
