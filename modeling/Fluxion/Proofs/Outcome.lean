import Fluxion.Proofs.Likeness

/-! What a fragment comes to, whatever the table. The numbers of the references never
matter, and of their contents nothing matters but the expressions they stand for, up to
any relation that the ways of putting expressions together respect. -/
namespace Fluxion

namespace Expr

/-- A relation that everything built from related expressions keeps. -/
structure Congruence (R : Expr → Expr → Prop) : Prop where
  const (v : Int64) : R (.const v) (.const v)
  var (name : String) : R (.var name) (.var name)
  neg {a b : Expr} (h : R a b) : R (.neg a) (.neg b)
  binary (op : BinaryOp) {a b c d : Expr} (h : R a b) (h' : R c d) :
    R (.binary op a c) (.binary op b d)
  ln {a b : Expr} (h : R a b) : R (.ln a) (.ln b)
  zero {a b : Expr} (h : R a b) : a = .const 0 ↔ b = .const 0

theorem congruence_eq : Congruence (· = ·) where
  const _ := rfl
  var _ := rfl
  neg h := by rw [h]
  binary _ := by rintro _ _ _ _ rfl rfl; rfl
  ln h := by rw [h]
  zero h := by rw [h]

theorem Congruence.refl {R : Expr → Expr → Prop} (hR : Congruence R) (e : Expr) : R e e := by
  induction e with
  | const v => exact hR.const v
  | var name => exact hR.var name
  | neg a ih => exact hR.neg ih
  | binary op a b iha ihb => exact hR.binary op iha ihb
  | ln a ih => exact hR.ln ih

/-- Two expressions joined, if there are two and the second is no divisor zero. -/
def join? (op : BinaryOp) (x y : Option Expr) : Option Expr :=
  x.bind fun a => y.bind fun b => (combine op a b).toOption

theorem Congruence.join? {R : Expr → Expr → Prop} (hR : Congruence R) (op : BinaryOp)
    {x y z w : Option Expr} (h : Option.Rel R x y) (h' : Option.Rel R z w) :
    Option.Rel R (join? op x z) (join? op y w) := by
  refine Formula.rel_bind h fun h => Formula.rel_bind h' fun h' => ?_
  simp only [combine,hR.zero h']
  split
  · exact .none
  · exact .some (hR.binary op h h')

end Expr

namespace Formula

theorem Reading.outcome_map (r : Reading) (f : Expr → Expr) :
    (r.map f).outcome.toOption = r.outcome.toOption.map f := by
  obtain ⟨o,t⟩ := r
  cases o <;> rfl

theorem Reading.outcome_join (op : BinaryOp) (left : Reading) (right : Table → Reading) :
    (join op left right).outcome.toOption =
      Expr.join? op left.outcome.toOption (right left.table).outcome.toOption := by
  obtain ⟨o,t⟩ := left
  cases o with
  | error e => rfl
  | ok a =>
    simp only [join]
    cases (right t).outcome with
    | error e => rfl
    | ok b =>
      simp only [Expr.join?,Except.bind,Except.toOption,Option.bind_some]
      cases Expr.combine op a b <;> rfl

namespace Reading

variable {r left : Reading} {right : Table → Reading} {op : BinaryOp} {a b : Expr} {e : ParseError}

theorem map_error (h : r.outcome = .error e) (f : Expr → Expr) : (r.map f).outcome = .error e := by
  rw [map,h]
  rfl

theorem error_of_map {f : Expr → Expr} (h : (r.map f).outcome = .error e) :
    r.outcome = .error e := by
  cases hr : r.outcome with
  | error e' =>
    rw [map_error hr] at h
    exact h
  | ok a =>
    rw [map,hr] at h
    cases h

theorem join_error_left (h : left.outcome = .error e) : (join op left right).outcome = .error e := by
  obtain ⟨o,table⟩ := left
  cases h
  rfl

theorem join_error_right (h : left.outcome = .ok a) (h' : (right left.table).outcome = .error e) :
    (join op left right).outcome = .error e := by
  obtain ⟨o,table⟩ := left
  cases h
  simp only [join,h']
  rfl

theorem outcome_join_of_ok (h : left.outcome = .ok a) (h' : (right left.table).outcome = .ok b) :
    (join op left right).outcome = (Expr.combine op a b).mapError .construction := by
  obtain ⟨o,table⟩ := left
  cases h
  simp only [join,h']
  rfl

theorem error_of_join (h : (join op left right).outcome = .error e) :
    left.outcome = .error e ∨ (∃ a, left.outcome = .ok a) ∧ (right left.table).outcome = .error e ∨
      ∃ c, e = .construction c := by
  cases hl : left.outcome with
  | error e' =>
    rw [join_error_left hl] at h
    exact .inl h
  | ok a =>
    cases hr : (right left.table).outcome with
    | error e' =>
      rw [join_error_right hl hr] at h
      exact .inr (.inl ⟨⟨a,rfl⟩,h⟩)
    | ok b =>
      rw [outcome_join_of_ok hl hr] at h
      cases hc : Expr.combine op a b with
      | ok c =>
        rw [hc] at h
        cases h
      | error c =>
        rw [hc] at h
        cases h
        exact .inr (.inr ⟨c,rfl⟩)

end Reading

/-- Fragments that come to related expressions, or both to none, with any tables. -/
def SameOutcome (R : Expr → Expr → Prop) (a b : Fragment) : Prop :=
  ∀ t u : Table, Option.Rel R (assemble a t).outcome.toOption (assemble b u).outcome.toOption

/-- Induction along the shapes of fragments. The inside of a logarithm or a group is
collapsed before it is looked at, so there all texts with sources that are no longer count
as parts. -/
theorem Fragment.shape_induction {motive : Fragment → Prop}
    (logarithm : ∀ text inner, text.shape = .logarithm inner →
      (∀ part : Fragment, part.source.length ≤ inner.source.length → motive part) → motive text)
    (group : ∀ text inner, text.shape = .group inner →
      (∀ part : Fragment, part.source.length ≤ inner.source.length → motive part) → motive text)
    (integer : ∀ text negative digits, text.shape = .integer negative digits → motive text)
    (name : ∀ text letters, text.shape = .name letters → motive text)
    (reference : ∀ text i content, text.shape = .reference i content → motive content → motive text)
    (negation : ∀ text operand, text.shape = .negation operand → motive operand → motive text)
    (operation : ∀ text op left right, text.shape = .operation op left right →
      motive left → motive right → motive text)
    (juxtaposition : ∀ text left right, text.shape = .juxtaposition left right →
      motive left → motive right → motive text)
    (unknown : ∀ text u, text.shape = .unknown u → motive text) (text : Fragment) : motive text := by
  induction hn : text.source.length using Nat.strongRecOn generalizing text with
  | ind n ihn =>
    induction hw : text.weight using Nat.strongRecOn generalizing text with
    | ind w ihw =>
      have ht := text.text_shape
      have hs : ∀ part : Fragment, part.source.length ≤ text.source.length →
          part.weight < text.weight → motive part := fun part hp hq => by
        rcases Nat.lt_or_eq_of_le hp with hp | hp
        · exact ihn _ (hn ▸ hp) part rfl
        · exact ihw _ (hw ▸ hq) part (hp.trans hn) rfl
      have hl : ∀ part : Fragment, part.source.length < text.source.length → motive part :=
        fun part hp => ihn _ (hn ▸ hp) part rfl
      cases h : text.shape <;> rw [h] at ht <;> replace ht := ht.symm <;>
        have hsl := congrArg (fun x => (Fragment.source x).length) ht <;>
        have hwl := congrArg Fragment.weight ht <;>
        simp [Shape.text] at hsl hwl
      case logarithm inner => exact logarithm text inner h fun part hp => hl part (by omega)
      case group inner => exact group text inner h fun part hp => hl part (by omega)
      case integer negative digits => exact integer text negative digits h
      case name letters => exact name text letters h
      case reference i content =>
        exact reference text i content h (hs content (by omega) (by omega))
      case negation operand => exact negation text operand h (hl operand (by omega))
      case operation op left right =>
        exact operation text op left right h (hl left (by omega)) (hl right (by omega))
      case juxtaposition left right =>
        obtain ⟨hle,hri⟩ := Fragment.ne_nil_of_shape_juxtaposition h
        have hle := Fragment.weight_pos hle
        have hri := Fragment.weight_pos hri
        exact juxtaposition text left right h (hs left (by omega) (by omega))
          (hs right (by omega) (by omega))
      case unknown u => exact unknown text u h

theorem sameOutcome_of_like {R : Expr → Expr → Prop} (hR : Expr.Congruence R) {a b : Fragment}
    (h : a.Like (SameOutcome R) b) : SameOutcome R a b := by
  intro t u
  have hs := h.shape
  generalize hy : b.shape = y at hs
  induction a using Fragment.shape_induction generalizing b y t u with
  | logarithm a inner ha ih =>
    rw [ha] at hs
    rcases hs with hi | _
    rw [assemble_of_logarithm ha,assemble_of_logarithm hy,Reading.outcome_map,
      Reading.outcome_map]
    have hc := collapse_like (fun hn h t u => ih _ hn h t u _ rfl h.shape) le_rfl hi t u
    exact rel_map hR.ln (ih _ (by simp) hc _ _ _ rfl hc.shape)
  | group a inner ha ih =>
    rw [ha] at hs
    rcases hs with _ | hi
    rw [assemble_of_group ha,assemble_of_group hy]
    have hc := collapse_like (fun hn h t u => ih _ hn h t u _ rfl h.shape) le_rfl hi t u
    exact ih _ (by simp) hc _ _ _ rfl hc.shape
  | integer a negative digits ha =>
    rw [ha] at hs
    cases hs
    rw [assemble_of_integer ha,assemble_of_integer hy]
    cases integer? negative digits.source with
    | none => exact .none
    | some v => exact .some (hR.const v)
  | name a letters ha =>
    rw [ha] at hs
    cases hs
    rw [assemble_of_name ha,assemble_of_name hy]
    exact .some (hR.var _)
  | reference a i content ha =>
    rw [ha] at hs
    rcases hs with _ | _ | _ | _ | hc
    rw [assemble_of_reference ha,assemble_of_reference hy]
    exact hc t u
  | negation a operand ha ih =>
    rw [ha] at hs
    rcases hs with _ | _ | _ | _ | _ | ho
    rw [assemble_of_negation ha,assemble_of_negation hy,Reading.outcome_map,Reading.outcome_map]
    exact rel_map hR.neg (ih ho _ _ _ rfl ho.shape)
  | operation a op left right ha ihl ihr =>
    rw [ha] at hs
    rcases hs with _ | _ | _ | _ | _ | _ | ⟨_,hl,hr⟩
    rw [assemble_of_operation ha,assemble_of_operation hy,Reading.outcome_join,
      Reading.outcome_join]
    exact hR.join? op (ihl hl _ _ _ rfl hl.shape) (ihr hr _ _ _ rfl hr.shape)
  | juxtaposition a left right ha ihl ihr =>
    rw [ha] at hs
    rcases hs with _ | _ | _ | _ | _ | _ | _ | ⟨hl,hr⟩
    rw [assemble_of_juxtaposition ha,assemble_of_juxtaposition hy,Reading.outcome_join,
      Reading.outcome_join]
    exact hR.join? .times (ihl hl _ _ _ rfl hl.shape) (ihr hr _ _ _ rfl hr.shape)
  | unknown a v ha =>
    rw [ha] at hs
    cases hs
    rw [assemble_of_unknown ha,assemble_of_unknown hy]
    exact .none

theorem Fragment.weight_lt_of_mem {i : Nat} {content a : Fragment} (h : .ref i content ∈ a) :
    content.weight < a.weight := by
  induction a with
  | nil => cases h
  | cons t a ih =>
    rw [Fragment.weight_cons]
    rcases List.mem_cons.mp h with rfl | h
    · rw [Token.weight_ref]
      omega
    · exact Nat.lt_of_lt_of_le (ih h) (Nat.le_add_left _ _)

theorem sameOutcome_self {R : Expr → Expr → Prop} (hR : Expr.Congruence R) (a : Fragment) :
    SameOutcome R a a := by
  induction hw : a.weight using Nat.strongRecOn generalizing a with
  | ind w ih =>
    refine sameOutcome_of_like hR (List.forall₂_same.mpr fun t ht => ?_)
    cases t with
    | char c => exact .char c
    | ref i content => exact .ref (ih _ (hw ▸ Fragment.weight_lt_of_mem ht) content rfl)

namespace Fragment

/-- The expression that a fragment is assembled to, if it is to one. -/
def assembled? (a : Fragment) : Option Expr := (assemble a .empty).outcome.toOption

/-- The expression that a text is read as, if it is as one. -/
def parsed? (text : Fragment) : Option Expr := (collapse text .empty).1.assembled?

theorem outcome_assemble (a : Fragment) (t : Table) :
    (assemble a t).outcome.toOption = a.assembled? :=
  rel_eq_iff.mp (sameOutcome_self Expr.congruence_eq a t .empty)

theorem like_self {R : Expr → Expr → Prop} (hR : Expr.Congruence R) (a : Fragment) :
    a.Like (SameOutcome R) a := by
  refine List.forall₂_same.mpr fun t _ => ?_
  cases t with
  | char c => exact .char c
  | ref i content => exact .ref (sameOutcome_self hR content)

theorem sameOutcome_iff {R : Expr → Expr → Prop} {a b : Fragment} :
    SameOutcome R a b ↔ Option.Rel R a.assembled? b.assembled? := by
  simp only [SameOutcome,outcome_assemble]
  exact ⟨fun h => h .empty .empty,fun h _ _ => h⟩

theorem rel_collapse {R : Expr → Expr → Prop} (hR : Expr.Congruence R) {a b : Fragment}
    (h : a.Like (SameOutcome R) b) (t u : Table) :
    Option.Rel R (collapse a t).1.assembled? (collapse b u).1.assembled? :=
  sameOutcome_iff.mp (sameOutcome_of_like hR
    (collapse_like (fun _ h => sameOutcome_of_like hR h) le_rfl h t u))

theorem outcome_collapse (text : Fragment) (t u : Table) :
    (assemble (collapse text t).1 u).outcome.toOption = text.parsed? := by
  rw [outcome_assemble]
  exact rel_eq_iff.mp (rel_collapse Expr.congruence_eq (like_self Expr.congruence_eq text) t .empty)

section Equations

variable {text : Fragment}

theorem assembled?_of_logarithm {inner : Fragment} (h : text.shape = .logarithm inner) :
    text.assembled? = inner.parsed?.map .ln := by
  rw [assembled?,assemble_of_logarithm h,Reading.outcome_map,outcome_collapse]

theorem assembled?_of_group {inner : Fragment} (h : text.shape = .group inner) :
    text.assembled? = inner.parsed? := by
  rw [assembled?,assemble_of_group h,outcome_collapse]

theorem assembled?_of_integer {digits : Fragment} {negative : Bool}
    (h : text.shape = .integer negative digits) :
    text.assembled? = (integer? negative digits.source).map .const := by
  rw [assembled?,assemble_of_integer h]
  cases integer? negative digits.source <;> rfl

theorem assembled?_of_name {letters : Fragment} (h : text.shape = .name letters) :
    text.assembled? = some (.var (String.ofList letters.source)) := by
  rw [assembled?,assemble_of_name h]
  rfl

theorem assembled?_of_reference {content : Fragment} {i : Nat}
    (h : text.shape = .reference i content) : text.assembled? = content.assembled? := by
  rw [assembled?,assemble_of_reference h,outcome_assemble]

theorem assembled?_of_negation {operand : Fragment} (h : text.shape = .negation operand) :
    text.assembled? = operand.assembled?.map .neg := by
  rw [assembled?,assemble_of_negation h,Reading.outcome_map,outcome_assemble]

theorem assembled?_of_operation {left right : Fragment} {op : BinaryOp}
    (h : text.shape = .operation op left right) :
    text.assembled? = Expr.join? op left.assembled? right.assembled? := by
  rw [assembled?,assemble_of_operation h,Reading.outcome_join,outcome_assemble,outcome_assemble]

theorem assembled?_of_juxtaposition {left right : Fragment}
    (h : text.shape = .juxtaposition left right) :
    text.assembled? = Expr.join? .times left.assembled? right.assembled? := by
  rw [assembled?,assemble_of_juxtaposition h,Reading.outcome_join,outcome_assemble,
    outcome_assemble]

theorem assembled?_of_unknown {u : Fragment} (h : text.shape = .unknown u) :
    text.assembled? = none := by
  rw [assembled?,assemble_of_unknown h]
  rfl

theorem parsed?_of_none (h : Tier.first? text = none) : text.parsed? = text.assembled? := by
  rw [parsed?,collapse_of_none h]

/-- Any number will do for the new reference. -/
theorem parsed?_of_some {tier : Tier} {site : Site} (h : Tier.first? text = some (tier, site))
    (i : Nat) : text.parsed? = (site.replace (.ref i site.matched)).parsed? := by
  rw [parsed?,collapse_of_some h]
  have hs := like_self Expr.congruence_eq site.before
  have hm := sameOutcome_self Expr.congruence_eq site.matched
  have ha := like_self Expr.congruence_eq site.after
  exact rel_eq_iff.mp (rel_collapse Expr.congruence_eq (hs.append (.cons (.ref hm) ha)) _ _)

end Equations

end Fragment

theorem firstInvalid?_eq_none_iff {offset : Nat} {s : List Char} :
    firstInvalid? offset s = none ↔ ∀ c ∈ s, isAllowed c = true := by
  induction s generalizing offset with
  | nil => simp [firstInvalid?]
  | cons c s ih =>
    rw [firstInvalid?]
    split <;> simp_all

/-- A text of allowed characters is collapsed, and what is left of it is assembled. -/
theorem read_of_isAllowed {s : String} (hn : s ≠ "") (h : ∀ c ∈ s.toList, isAllowed c = true) :
    read s = assemble (collapse (.ofString s) .empty).1 (collapse (.ofString s) .empty).2 := by
  have he : s.isEmpty = false := by simpa using hn
  simp only [read,he,firstInvalid?_eq_none_iff.mpr h]
  rfl

theorem parsed?_nil : Fragment.parsed? [] = none := by
  rw [Fragment.parsed?_of_none (by rfl)]
  exact Fragment.assembled?_of_unknown (u := []) rfl

theorem toOption_parse {s : String} (h : ∀ c ∈ s.toList, isAllowed c = true) :
    (parse s).toOption = (Fragment.ofString s).parsed? := by
  simp only [parse,read]
  split
  · rename_i he
    have hs : s = "" := by simpa using he
    subst hs
    exact parsed?_nil.symm
  · rw [firstInvalid?_eq_none_iff.mpr h]
    exact Fragment.outcome_collapse _ _ _

theorem isAllowed_of_parse {s : String} {e : Expr} (h : parse s = .ok e) :
    ∀ c ∈ s.toList, isAllowed c = true := by
  simp only [parse,read] at h
  split at h
  · cases h
  · split at h
    · cases h
    · rename_i hf
      exact firstInvalid?_eq_none_iff.mp hf

/-- Reading succeeds on allowed characters only, and on these as on fragments. -/
theorem parse_eq_ok_iff {s : String} {e : Expr} :
    parse s = .ok e ↔
      (∀ c ∈ s.toList, isAllowed c = true) ∧ (Fragment.ofString s).parsed? = some e := by
  have ho : parse s = .ok e ↔ (parse s).toOption = some e := by
    cases parse s <;> simp [Except.toOption]
  constructor
  · intro h
    have ha := isAllowed_of_parse h
    exact ⟨ha,(toOption_parse ha).symm.trans (ho.mp h)⟩
  · rintro ⟨ha,hp⟩
    exact ho.mpr ((toOption_parse ha).trans hp)

end Formula
end Fluxion
