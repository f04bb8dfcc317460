import Fluxion.Proofs.Inline.Digits

/-! Nothing is lost when a text is reduced. What one replacement keeps is said once: references go
to entries in front, each new one is in one place, and what the text is written out stays the
same. A run keeps it, whatever the table is, and a run always comes to its end. -/
namespace Fluxion.Formula.Inline

open Relation (ReflTransGen)

/-- One replacement: the first match of a text becomes the last entry. -/
inductive Step : List Char × Store → List Char × Store → Prop
  | replace {text part rest : List Char} {store : Store} {start stop : Nat}
    (hfirst : first (Text.encode text) = .ok (some (start, stop)))
    (hpart : slice text start stop = .ok part)
    (hrest : splice text start stop ('[' :: Decimal.ofNat store.length ++ [']']) = .ok rest) :
    Step (text, store) (rest, store ++ [part])

/-- A place between two tokens of a text, or at its start or end. -/
def AtToken (text : List Char) (place : Nat) : Prop :=
  ∃ a b, text = a ++ b ∧ Whole a ∧ Whole b ∧ place = (Text.encode a).length

section Boundaries

variable {s : List Char} {text : Fragment}

theorem place_cases (h : text.Allowed) {i : Nat} (hi : i < (code text).length) :
    (∃ a b, text = a ++ b ∧ i = (code a).length) ∨
      ∃ before t rest, text = before ++ t :: rest ∧
        i ∈ List.range' ((code before).length + 1) ((code [t]).length - 1) := by
  induction text generalizing i with
  | nil => cases hi
  | cons t text ih =>
    rw [code_cons,List.length_append] at hi
    have htext := (Fragment.allowed_append (a := [t]).mp h).2
    by_cases hlt : i < (code [t]).length
    · by_cases hz : i = 0
      · exact .inl ⟨[],t :: text,rfl,hz⟩
      · refine .inr ⟨[],t,text,rfl,List.mem_range'_1.mpr ?_⟩
        simp only [code_nil,List.length_nil]
        omega
    · obtain ⟨k,rfl⟩ := Nat.exists_eq_add_of_le (Nat.le_of_not_lt hlt)
      rcases ih htext (i := k) (by omega) with ⟨a,b,rfl,rfl⟩ | ⟨before,t',rest,rfl,hk⟩
      · exact .inl ⟨t :: a,b,rfl,by rw [code_cons t a,List.length_append]⟩
      · refine .inr ⟨t :: before,t',rest,rfl,?_⟩
        rw [List.mem_range'_1] at hk ⊢
        rw [code_cons,List.length_append]
        omega

theorem Tokens.atToken {a b : Fragment} (h : Tokens s (a ++ b)) : AtToken s (code a).length := by
  obtain ⟨u,v,rfl,hu,hv⟩ := h.split
  exact ⟨u,v,rfl,hu.whole,hv.whole,hu.length_encode.symm⟩

theorem Tokens.atToken_of_scan (h : Tokens s text) {tier : Tier} {start stop : Nat}
    (hlt : start < (Text.encode s).length) (hs : scan tier (Text.encode s) start = .ok (some stop)) :
    AtToken s start ∧ AtToken s stop := by
  rw [h.length_encode] at hlt
  rw [h.scan_eq] at hs
  rcases place_cases h.allowed hlt with ⟨a,b,rfl,rfl⟩ | ⟨before,t,rest,rfl,hi⟩
  · obtain ⟨ha,hb⟩ := Fragment.allowed_append.mp h.allowed
    rw [code_append,scan_code tier ha hb] at hs
    obtain ⟨⟨m,after⟩,hm,rfl⟩ := Option.map_eq_some_iff.mp (Except.ok.inj hs)
    obtain ⟨rfl,-⟩ := tier.match?_cuts _ _ _ _ hm
    exact ⟨h.atToken,atToken (b := after) (by simpa using h)⟩
  · obtain ⟨-,hb⟩ := Fragment.allowed_append.mp h.allowed
    rw [code_append,scan_between tier hb hi] at hs
    cases hs

end Boundaries

section Steps

variable {s : List Char} {text : Fragment} {store : Store} {now : List Char × Store}

namespace Step

theorem unique {state now' : List Char × Store} (h : Step state now) (h' : Step state now') :
    now = now' := by
  obtain ⟨hfirst,hpart,hrest⟩ := h
  obtain ⟨hfirst',hpart',hrest'⟩ := h'
  cases hfirst.symm.trans hfirst'
  cases hpart.symm.trans hpart'
  cases hrest.symm.trans hrest'
  rfl

theorem reduce_eq (h : Step (s, store) now) (limit : Nat) :
    reduce (limit + 1) s store = reduce limit now.1 now.2 := by
  obtain ⟨hfirst,hpart,hrest⟩ := h
  exact ((Run.bind_of_ok hfirst _).trans (Run.bind_of_ok hpart _)).trans (Run.bind_of_ok hrest _)

end Step

theorem reduce_of_none (h : first (Text.encode s) = .ok none) (limit : Nat) :
    reduce (limit + 1) s store = pure (s, store) :=
  Run.bind_of_ok h _

theorem Tokens.step (h : Tokens s text) {tier : Tier} {site : Site}
    (hf : Tier.first? text = some (tier, site)) (store : Store) :
    ∃ a m b, s = a ++ m ++ b ∧ Tokens a site.before ∧ Tokens m site.matched ∧
      Tokens b site.after ∧
      Step (s, store) (a ++ '[' :: (Decimal.ofNat store.length ++ ']' :: b), store ++ [m]) := by
  have hfirst := h.first_eq
  rw [hf] at hfirst
  obtain ⟨rfl,-⟩ := Tier.first?_cuts hf
  obtain ⟨am,b,rfl,ham,hb⟩ := h.split
  obtain ⟨a,m,rfl,ha,hm⟩ := ham.split
  have hspan : span site = ((Text.encode a).length, (Text.encode (a ++ m)).length) := by
    rw [span,ha.length_encode,ham.length_encode]
  rw [Option.map_some,hspan] at hfirst
  refine ⟨a,m,b,rfl,ha,hm,hb,.replace hfirst (slice_append a m b) ?_⟩
  rw [splice_append]
  simp

theorem Tokens.step_cases (h : Tokens s text) (hs : Step (s, store) now) :
    ∃ a m b, s = a ++ m ++ b ∧ Whole a ∧ Whole m ∧ Whole b ∧
      now = (a ++ '[' :: (Decimal.ofNat store.length ++ ']' :: b), store ++ [m]) := by
  cases hf : Tier.first? text with
  | none =>
    obtain ⟨hfirst,-,-⟩ := hs
    rw [h.first_eq,hf] at hfirst
    cases hfirst
  | some r =>
    obtain ⟨tier,site⟩ := r
    obtain ⟨a,m,b,rfl,ha,hm,hb,hstep⟩ := h.step hf store
    exact ⟨a,m,b,rfl,ha.whole,hm.whole,hb.whole,hs.unique hstep⟩

theorem Tokens.exists_run (h : Tokens s text) (store : Store) :
    ∃ now, ReflTransGen Step (s, store) now ∧ first (Text.encode now.1) = .ok none ∧
      ∀ limit, text.length < limit → reduce limit s store = pure now := by
  induction hn : text.length using Nat.strongRecOn generalizing s text store with
  | ind n ih =>
    cases hf : Tier.first? text with
    | none =>
      have hnone : first (Text.encode s) = .ok none := by
        rw [h.first_eq,hf]
        rfl
      refine ⟨(s, store),.refl,hnone,fun limit hl => ?_⟩
      obtain ⟨limit,rfl⟩ := Nat.exists_eq_add_of_lt hl
      exact reduce_of_none hnone _
    | some r =>
      obtain ⟨tier,site⟩ := r
      obtain ⟨a,m,b,rfl,ha,hm,hb,hstep⟩ := h.step hf store
      have hlt := Tier.length_replace_lt hf (.ref store.length [])
      simp only [Site.replace] at hlt
      obtain ⟨now,hrun,hnone,hreduce⟩ := ih _ (hn ▸ hlt) (ha.append (hb.ofNat store.length))
        (store ++ [m]) rfl
      refine ⟨now,.head hstep hrun,hnone,fun limit hl => ?_⟩
      obtain ⟨limit,rfl⟩ := Nat.exists_eq_add_of_lt hl
      rw [hstep.reduce_eq]
      exact hreduce _ (by omega)

end Steps

/-- Where a part of a text has an entry, the reference to it expands to the same. -/
theorem expands_replace {a m b r : List Char} {store : Store} {n : Nat} (ha : Whole a)
    (hm : Whole m) (hn : store[n]? = some m) :
    Expands store (a ++ '[' :: (Decimal.ofNat n ++ ']' :: b)) r ↔
      Expands store (a ++ m ++ b) r := by
  simp only [List.append_assoc,ha.expands_append,hm.expands_append,
    expands_reference (reference?_ofNat n b),hn,Option.some.injEq,exists_and_left,exists_eq_left']

theorem entries_append {P : Nat → List Char → Prop} {store new : Store}
    (h : ∀ j part, store[j]? = some part → P j part)
    (hnew : ∀ j part, new[j]? = some part → P (store.length + j) part) :
    ∀ j part, (store ++ new)[j]? = some part → P j part := by
  intro j part hj
  by_cases hlt : j < store.length
  · rw [List.getElem?_append_left hlt] at hj
    exact h j part hj
  · obtain ⟨k,rfl⟩ := Nat.exists_eq_add_of_le (Nat.le_of_not_lt hlt)
    rw [List.getElem?_append_right (by omega),Nat.add_sub_cancel_left] at hj
    exact hnew k part hj

/-- What a run keeps, which has come from one text to another and made new entries. -/
structure Kept (text : List Char) (store : Store) (s : List Char) (new : Store) : Prop where
  whole : Whole s
  below : ∀ i ∈ mentions s, i < store.length + new.length
  entries : ∀ j part, new[j]? = some part → ∀ i ∈ mentions part, i < store.length + j
  /-- The references of the text are kept, and there is one more to each new entry. -/
  references : ((new ++ [s]).flatMap mentions).Perm
    (mentions text ++ List.range' store.length new.length)
  expansion : ∀ more r, Expands (store ++ new ++ more) s r ↔ Expands (store ++ new ++ more) text r

namespace Kept

variable {text s : List Char} {store new : Store} {now : List Char × Store}

theorem start (h : Whole text) (hm : ∀ i ∈ mentions text, i < store.length) :
    Kept text store text [] where
  whole := h
  below := by simpa using hm
  entries := by simp
  references := by simp
  expansion := by simp

theorem step (h : Kept text store s new) (hs : Step (s, store ++ new) now) :
    ∃ part, now.2 = store ++ (new ++ [part]) ∧ Kept text store now.1 (new ++ [part]) := by
  obtain ⟨tokens,ht⟩ := h.whole.exists_tokens
  obtain ⟨a,m,b,rfl,ha,hm,hb,rfl⟩ := ht.step_cases hs
  have hfrom : mentions (a ++ m ++ b) = mentions a ++ mentions m ++ mentions b := by
    rw [(ha.append hm).mentions_append,ha.mentions_append]
  have hbelow := h.below
  rw [hfrom] at hbelow
  refine ⟨m,by simp,?_⟩
  constructor
  case whole => exact ha.append (hb.ofNat _)
  case below =>
    intro i hi
    rw [ha.mentions_replace,List.mem_append,List.mem_cons,List.length_append] at hi
    rw [List.length_append,List.length_singleton]
    rcases hi with hi | rfl | hi
    · have := hbelow i (by simp [hi])
      omega
    · omega
    · have := hbelow i (by simp [hi])
      omega
  case entries =>
    refine entries_append (P := fun j part => ∀ i ∈ mentions part, i < store.length + j)
      h.entries fun j part hj i hi => ?_
    rw [List.getElem?_singleton,Option.ite_none_right_eq_some] at hj
    obtain ⟨rfl,he⟩ := hj
    cases he
    exact hbelow i (by simp [hi])
  case references =>
    rw [List.perm_iff_count]
    intro i
    have hi := h.references.count_eq i
    simp only [List.flatMap_append,List.flatMap_singleton,List.count_append,hfrom] at hi
    simp only [List.flatMap_append,List.flatMap_singleton,List.count_append,ha.mentions_replace,
      List.length_append,List.length_singleton,List.range'_1_concat,List.count_cons,
      List.count_nil]
    omega
  case expansion =>
    intro more r
    have hn : (store ++ new ++ m :: more)[(store ++ new).length]? = some m := by
      rw [List.getElem?_append_right (Nat.le_refl _),Nat.sub_self]
      rfl
    have he := h.expansion (m :: more) r
    rw [← expands_replace ha hm hn] at he
    simpa using he

theorem count_eq_one (h : Kept text store s new) (hm : ∀ i ∈ mentions text, i < store.length)
    {j : Nat} (hj : j < new.length) :
    ((new.drop (j + 1) ++ [s]).flatMap mentions).count (store.length + j) = 1 := by
  have htext : (mentions text).count (store.length + j) = 0 := by
    rw [List.count_eq_zero]
    intro hi
    have := hm _ hi
    omega
  have hnew : (List.range' store.length new.length).count (store.length + j) = 1 :=
    List.count_eq_one_of_mem List.nodup_range' (List.mem_range'_1.mpr ⟨by omega,by omega⟩)
  have hbefore : ((new.take (j + 1)).flatMap mentions).count (store.length + j) = 0 := by
    rw [List.count_eq_zero,List.mem_flatMap]
    rintro ⟨part,hpart,hi⟩
    obtain ⟨k,hk,rfl⟩ := List.mem_take_iff_getElem.mp hpart
    have := h.entries k _ (List.getElem?_eq_getElem (by omega)) _ hi
    omega
  have hcount := h.references.count_eq (store.length + j)
  have hparts : (new ++ [s]).flatMap mentions = (new.take (j + 1)).flatMap mentions ++
      (new.drop (j + 1) ++ [s]).flatMap mentions := by
    rw [← List.flatMap_append,← List.append_assoc,List.take_append_drop]
  rw [hparts,List.count_append,List.count_append,hbefore,htext,hnew] at hcount
  omega

theorem run (h : Whole text) (hm : ∀ i ∈ mentions text, i < store.length)
    (hr : ReflTransGen Step (text, store) now) :
    ∃ new, now.2 = store ++ new ∧ Kept text store now.1 new := by
  induction hr with
  | refl => exact ⟨[],by simp,start h hm⟩
  | @tail state now _ hs ih =>
    obtain ⟨new,he,hk⟩ := ih
    obtain ⟨s,store'⟩ := state
    subst he
    obtain ⟨part,he,hk⟩ := hk.step hs
    exact ⟨_,he,hk⟩

theorem backward (h : Kept text store s new) (hb : Backward store) : Backward (store ++ new) :=
  entries_append hb h.entries

end Kept

theorem pure_injective {a b : List Char × Store} (h : (pure a : Run _) = pure b) : a = b := by
  cases h
  rfl

/-- Reducing a text ends, with any table, when nothing matches any more, and it adds entries only.
All matches on the way start and end between tokens, every new entry mentions entries in front of
it only and is mentioned once behind it, and what is left expands to what the text does. -/
theorem reduce_lossless {text : List Char} {store : Store} (h : Whole text)
    (hm : ∀ i ∈ mentions text, i < store.length) :
    ∃ (residual : List Char) (new : Store),
      (∀ limit, text.length < limit → reduce limit text store = pure (residual, store ++ new)) ∧
      (∀ (formula : List Char) (tokens : Fragment) (table : Table), tokens.Allowed →
        tokens.shown = text → stored formula table = store →
          (collapse tokens table).1.shown = residual ∧
            stored formula (collapse tokens table).2 = store ++ new) ∧
      ReflTransGen Step (text, store) (residual, store ++ new) ∧
      first (Text.encode residual) = .ok none ∧
      (∀ now, ReflTransGen Step (text, store) now → ∀ tier start stop,
        start < (Text.encode now.1).length → scan tier (Text.encode now.1) start = .ok (some stop) →
          AtToken now.1 start ∧ AtToken now.1 stop) ∧
      (∀ j part, new[j]? = some part → ∀ i ∈ mentions part, i < store.length + j) ∧
      (∀ j < new.length,
        ((new.drop (j + 1) ++ [residual]).flatMap mentions).count (store.length + j) = 1) ∧
      (∀ r, Expands store text r → Expands (store ++ new) residual r) ∧
      (∀ r, Expands (store ++ new) residual r ↔ Expands (store ++ new) text r) ∧
      (Backward store → Backward (store ++ new) ∧
        ∃ r, Expands store text r ∧ ∀ r', Expands (store ++ new) residual r' ↔ r' = r) := by
  obtain ⟨tokens,ht⟩ := h.exists_tokens
  obtain ⟨⟨residual,after⟩,hrun,hnone,hreduce⟩ := ht.exists_run store
  obtain ⟨new,rfl,hkept⟩ := Kept.run h hm hrun
  have hlimit : ∀ limit, text.length < limit →
      reduce limit text store = pure (residual, store ++ new) :=
    fun limit hl => hreduce limit (Nat.lt_of_le_of_lt ht.length_le hl)
  have hsame (r : List Char) :
      Expands (store ++ new) residual r ↔ Expands (store ++ new) text r := by
    simpa using hkept.expansion [] r
  have hexpand : ∀ r, Expands store text r → Expands (store ++ new) residual r :=
    fun r hr => (hsame r).mpr (hr.append new)
  refine ⟨residual,new,hlimit,?collapse,hrun,hnone,?boundary,hkept.entries,
    fun j hj => hkept.count_eq_one hm hj,hexpand,hsame,?backward⟩
  case collapse =>
    intro formula tokens table ha hs hstore
    subst hs hstore
    have hl : tokens.length < tokens.length + tokens.shown.length + 1 := by omega
    have hc := reduce_shown ha formula table hl
    rw [hlimit _ (by omega)] at hc
    have hc := pure_injective hc
    exact ⟨(congrArg Prod.fst hc).symm,(congrArg Prod.snd hc).symm⟩
  case boundary =>
    intro now hnow tier start stop hlt hs
    obtain ⟨_,-,hk⟩ := Kept.run h hm hnow
    obtain ⟨tokens,ht⟩ := hk.whole.exists_tokens
    exact ht.atToken_of_scan hlt hs
  case backward =>
    intro hb
    obtain ⟨r,hr⟩ := exists_expands hb hm
    refine ⟨hkept.backward hb,r,hr,fun r' => ⟨fun h' => h'.unique (hexpand r hr),?_⟩⟩
    rintro rfl
    exact hexpand r' hr

theorem reduce_lossless_power :
    Whole "[0]^[00]-2".toList ∧ (∀ i ∈ mentions "[0]^[00]-2".toList, i < [['x']].length) ∧
      ∃ (residual : List Char) (new : Store),
        reduce 11 "[0]^[00]-2".toList [['x']] = pure (residual, ['x'] :: new) ∧
          Expands (['x'] :: new) residual "x^x-2".toList := by
  have hx : Expands [['x']] ['x'] ['x'] := .char rfl .nil
  have hr : Expands [['x']] "[0]^[00]-2".toList "x^x-2".toList :=
    .reference rfl rfl hx (.char rfl (.reference rfl rfl hx (.char rfl (.char rfl .nil))))
  have h : Whole "[0]^[00]-2".toList :=
    @Whole.reference ['0'] _ (by simp) (by simp) (.char rfl
      (@Whole.reference ['0', '0'] _ (by simp) (by simp) (.char rfl (.char rfl .nil))))
  have hm : ∀ i ∈ mentions "[0]^[00]-2".toList, i < [['x']].length := by decide
  obtain ⟨residual,new,hreduce,-,-,-,-,-,-,hexpand,-⟩ := reduce_lossless h hm
  exact ⟨h,hm,residual,new,hreduce 11 (by decide),hexpand _ hr⟩

end Fluxion.Formula.Inline
