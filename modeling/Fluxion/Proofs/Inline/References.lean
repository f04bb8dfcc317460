import Fluxion.Proofs.Inline.Cascade

/-! References in written texts, with any number of zeros in front. What a text mentions and what
it is when its references are written out is read off the characters alone. Patterns do not tell
one digit from another, so that they find in a text what they find in its tokens. -/
namespace Fluxion.Formula.Inline

/-- The number of the reference that a text starts with, and what is behind it. -/
def reference? : List Char → Option (Nat × List Char)
  | '[' :: s =>
    match s.dropWhile Char.isDigit with
    | ']' :: rest =>
      if s.takeWhile Char.isDigit = [] then none
      else some (Decimal.toNat (s.takeWhile Char.isDigit), rest)
    | _ => none
  | _ => none

/-- The numbers of the references in a text, from the left. -/
def mentions : List Char → List Nat
  | [] => []
  | c :: s => ((reference? (c :: s)).map Prod.fst).toList ++ mentions s

/-- Texts of characters that formulas have and of references. -/
inductive Whole : List Char → Prop
  | nil : Whole []
  | char {c : Char} {s : List Char} (hc : isAllowed c = true) (h : Whole s) : Whole (c :: s)
  | reference {ds s : List Char} (hn : ds ≠ []) (hd : ∀ c ∈ ds, c.isDigit = true) (h : Whole s) :
    Whole ('[' :: (ds ++ ']' :: s))

/-- A text and what it is with every reference written out, and those in what they stand for. -/
inductive Expands (store : Store) : List Char → List Char → Prop
  | nil : Expands store [] []
  | char {c : Char} {s r : List Char} (hc : reference? (c :: s) = none) (h : Expands store s r) :
    Expands store (c :: s) (c :: r)
  | reference {s rest part r r' : List Char} {i : Nat} (hs : reference? s = some (i, rest))
    (hi : store[i]? = some part) (hpart : Expands store part r) (h : Expands store rest r') :
    Expands store s (r ++ r')

/-- Every entry mentions entries in front of it only. -/
def Backward (store : Store) : Prop :=
  ∀ j part, store[j]? = some part → ∀ i ∈ mentions part, i < j

section References

variable {s rest ds a : List Char} {c : Char} {i : Nat}

theorem ne_open (h : isAllowed c = true) : c ≠ '[' := by
  rintro rfl
  cases h

theorem reference?_of_ne (h : c ≠ '[') (s : List Char) : reference? (c :: s) = none := by
  unfold reference?
  split
  · rename_i he
    exact absurd (List.cons.inj he).1 h
  · rfl

theorem reference?_of_digits (hn : ds ≠ []) (hd : ∀ c ∈ ds, c.isDigit = true) (s : List Char) :
    reference? ('[' :: (ds ++ ']' :: s)) = some (Decimal.toNat ds, s) := by
  have ht : (ds ++ ']' :: s).takeWhile Char.isDigit = ds := by
    simp [List.takeWhile_append_of_pos hd]
  have hr : (ds ++ ']' :: s).dropWhile Char.isDigit = ']' :: s := by
    simp [List.dropWhile_append_of_pos hd]
  simp [reference?,ht,hr,hn]

theorem reference?_suffix (h : reference? s = some (i, rest)) :
    rest <:+ s ∧ rest.length < s.length := by
  unfold reference? at h
  split at h
  · rename_i s
    split at h
    · rename_i hdrop
      obtain ⟨-,he⟩ := Option.ite_none_left_eq_some.mp h
      cases he
      have hs : ']' :: rest <:+ s := hdrop ▸ List.dropWhile_suffix _
      have hl := hs.length_le
      refine ⟨(List.suffix_cons ..).trans (hs.trans (List.suffix_cons ..)),?_⟩
      simp only [List.length_cons] at hl ⊢
      omega
    · cases h
  · cases h

theorem reference?_ofNat (n : Nat) (s : List Char) :
    reference? ('[' :: (Decimal.ofNat n ++ ']' :: s)) = some (n, s) := by
  rw [reference?_of_digits (Decimal.ofNat_ne_nil n) fun c hc => Decimal.isDigit_of_mem_ofNat hc,
    Decimal.toNat_ofNat]

theorem mentions_of_ne (h : c ≠ '[') (s : List Char) : mentions (c :: s) = mentions s := by
  simp [mentions,reference?_of_ne h]

theorem mentions_of_digits (hn : ds ≠ []) (hd : ∀ c ∈ ds, c.isDigit = true) (s : List Char) :
    mentions ('[' :: (ds ++ ']' :: s)) = Decimal.toNat ds :: mentions s := by
  have hskip : ∀ ds' : List Char, (∀ c ∈ ds', c.isDigit = true) →
      mentions (ds' ++ ']' :: s) = mentions s := by
    intro ds' hd
    induction ds' with
    | nil => exact mentions_of_ne (by decide) s
    | cons c ds' ih =>
      obtain ⟨hc,hd⟩ := List.forall_mem_cons.mp hd
      have hne : c ≠ '[' := by
        rintro rfl
        cases hc
      rw [List.cons_append,mentions_of_ne hne,ih hd]
  rw [mentions,reference?_of_digits hn hd,hskip ds hd]
  rfl

example : mentions "2[1]x[007]+[3".toList = [1, 7] := by decide

theorem mentions_ofNat (n : Nat) (s : List Char) :
    mentions ('[' :: (Decimal.ofNat n ++ ']' :: s)) = n :: mentions s := by
  rw [mentions_of_digits (Decimal.ofNat_ne_nil n) fun c hc => Decimal.isDigit_of_mem_ofNat hc,
    Decimal.toNat_ofNat]

theorem mem_mentions (h : reference? s = some (i, rest)) : i ∈ mentions s := by
  cases s with
  | nil => cases h
  | cons c s => simp [mentions,h]

theorem mentions_subset (h : rest <:+ s) : mentions rest ⊆ mentions s := by
  induction s with
  | nil =>
    cases List.suffix_nil.mp h
    exact List.Subset.refl _
  | cons c s ih =>
    rcases List.suffix_cons_iff.mp h with rfl | h
    · exact List.Subset.refl _
    · exact fun i hi => List.mem_append_right _ (ih h hi)

namespace Whole

theorem ofNat (n : Nat) (h : Whole s) : Whole ('[' :: (Decimal.ofNat n ++ ']' :: s)) :=
  .reference (Decimal.ofNat_ne_nil n) (fun _ hc => Decimal.isDigit_of_mem_ofNat hc) h

theorem append (ha : Whole a) (h : Whole s) : Whole (a ++ s) := by
  induction ha with
  | nil => exact h
  | char hc _ ih => exact .char hc ih
  | reference hn hd _ ih => simpa using .reference hn hd ih

theorem mentions_append (ha : Whole a) (s : List Char) :
    mentions (a ++ s) = mentions a ++ mentions s := by
  induction ha with
  | nil => rfl
  | char hc _ ih =>
    have hne : _ ≠ '[' := ne_open hc
    rw [List.cons_append,mentions_of_ne hne,mentions_of_ne hne,ih]
  | reference hn hd _ ih =>
    rw [mentions_of_digits hn hd,List.cons_append,List.append_assoc,List.cons_append,
      mentions_of_digits hn hd,ih,List.cons_append]

theorem mentions_replace (ha : Whole a) (n : Nat) (s : List Char) :
    mentions (a ++ '[' :: (Decimal.ofNat n ++ ']' :: s)) = mentions a ++ n :: mentions s := by
  rw [ha.mentions_append,mentions_ofNat]

end Whole

end References

section Expansion

variable {store : Store} {s rest a r r' : List Char} {c : Char} {i : Nat}

theorem expands_nil : Expands store [] r ↔ r = [] := by
  constructor
  · intro h
    cases h with
    | nil => rfl
    | reference hs => cases hs
  · rintro rfl
    exact .nil

theorem expands_char (hc : reference? (c :: s) = none) :
    Expands store (c :: s) r ↔ ∃ r', r = c :: r' ∧ Expands store s r' := by
  constructor
  · intro h
    cases h with
    | char _ h => exact ⟨_,rfl,h⟩
    | reference hs => cases hc.symm.trans hs
  · rintro ⟨r',rfl,h⟩
    exact .char hc h

theorem expands_reference (hs : reference? s = some (i, rest)) :
    Expands store s r ↔ ∃ part p q, store[i]? = some part ∧ Expands store part p ∧
      Expands store rest q ∧ r = p ++ q := by
  constructor
  · intro h
    cases h with
    | nil => cases hs
    | char hc => cases hc.symm.trans hs
    | reference hs' hi hpart h =>
      cases hs.symm.trans hs'
      exact ⟨_,_,_,hi,hpart,h,rfl⟩
  · rintro ⟨part,p,q,hi,hp,hq,rfl⟩
    exact .reference hs hi hp hq

namespace Expands

theorem unique (h : Expands store s r) (h' : Expands store s r') : r = r' := by
  induction h generalizing r' with
  | nil => exact (expands_nil.mp h').symm
  | char hc _ ih =>
    obtain ⟨q,rfl,hq⟩ := (expands_char hc).mp h'
    rw [ih hq]
  | reference hs hi _ _ ihp ih =>
    obtain ⟨part,p,q,hi',hp,hq,rfl⟩ := (expands_reference hs).mp h'
    cases hi.symm.trans hi'
    rw [ihp hp,ih hq]

theorem append (h : Expands store s r) (more : Store) : Expands (store ++ more) s r := by
  induction h with
  | nil => exact .nil
  | char hc _ ih => exact .char hc ih
  | reference hs hi _ _ ihp ih =>
    refine .reference hs ?_ ihp ih
    rw [List.getElem?_append_left (List.getElem?_eq_some_iff.mp hi).1,hi]

end Expands

theorem Whole.expands_append (ha : Whole a) :
    Expands store (a ++ s) r ↔ ∃ p q, Expands store a p ∧ Expands store s q ∧ r = p ++ q := by
  induction ha generalizing r with
  | nil => simp [expands_nil]
  | char hc _ ih =>
    have hn := fun s => reference?_of_ne (ne_open hc) s
    simp only [List.cons_append,expands_char (hn _),ih]
    constructor
    · rintro ⟨_,rfl,p,q,hp,hq,rfl⟩
      exact ⟨_,q,⟨p,rfl,hp⟩,hq,rfl⟩
    · rintro ⟨_,q,⟨p,rfl,hp⟩,hq,rfl⟩
      exact ⟨_,rfl,p,q,hp,hq,rfl⟩
  | reference hn hd _ ih =>
    have hr := fun s => reference?_of_digits hn hd s
    simp only [List.cons_append,List.append_assoc,expands_reference (hr _),ih]
    constructor
    · rintro ⟨part,o,_,hi,ho,⟨p,q,hp,hq,rfl⟩,rfl⟩
      exact ⟨_,q,⟨part,o,p,hi,ho,hp,rfl⟩,hq,by simp⟩
    · rintro ⟨_,q,⟨part,o,p,hi,ho,hp,rfl⟩,hq,rfl⟩
      exact ⟨part,o,_,hi,ho,⟨p,q,hp,hq,rfl⟩,by simp⟩

theorem exists_expands (hb : Backward store) (hs : ∀ i ∈ mentions s, i < store.length) :
    ∃ r, Expands store s r := by
  -- by induction on a bound for the numbers that are mentioned, and for each on the length
  suffices h : ∀ n ≤ store.length, ∀ s, (∀ i ∈ mentions s, i < n) → ∃ r, Expands store s r from
    h store.length (Nat.le_refl _) s hs
  intro n
  induction n using Nat.strongRecOn with
  | ind n ihn =>
    intro hn s
    induction hl : s.length using Nat.strongRecOn generalizing s with
    | ind l ihs =>
      intro hs
      cases hr : reference? s with
      | none =>
        cases s with
        | nil => exact ⟨[],.nil⟩
        | cons c s =>
          obtain ⟨r,h⟩ := ihs s.length (by simp [← hl]) s rfl fun i hi =>
            hs i (mentions_subset (List.suffix_cons ..) hi)
          exact ⟨_,.char hr h⟩
      | some p =>
        obtain ⟨i,rest⟩ := p
        have hi := hs i (mem_mentions hr)
        obtain ⟨hrest,hlt⟩ := reference?_suffix hr
        have hget : store[i]? = some store[i] := List.getElem?_eq_getElem (by omega)
        obtain ⟨p,hp⟩ := ihn i hi (by omega) store[i] (hb i _ hget)
        obtain ⟨q,hq⟩ := ihs rest.length (hl ▸ hlt) rest rfl fun i hi =>
          hs i (mentions_subset hrest hi)
        exact ⟨_,.reference hr hget hp hq⟩

end Expansion

end Fluxion.Formula.Inline
