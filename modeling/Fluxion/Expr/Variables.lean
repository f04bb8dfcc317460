import Fluxion.Expr.Basic

/-! The variables of an expression, each once, in the order in which they are
first met from left to right. -/
namespace Fluxion
namespace Expr

/-- All occurrences of variables from left to right. -/
def occurrences : Expr → List String
  | const _ => []
  | var name => [name]
  | neg a | ln a => a.occurrences
  | binary _ a b => a.occurrences ++ b.occurrences

/-- A name goes behind the others unless it is one of them. -/
def note (names : List String) (name : String) : List String :=
  if name ∈ names then names else names ++ [name]

/-- Some names, and behind them what an expression has in addition. -/
def noteAll (names : List String) : Expr → List String
  | const _ => names
  | var name => note names name
  | neg a | ln a => a.noteAll names
  | binary _ a b => b.noteAll (a.noteAll names)

def variableNames (e : Expr) : List String := e.noteAll []

section Notes

variable {names : List String} {x name : String}

theorem mem_note : x ∈ note names name ↔ x ∈ names ∨ x = name := by
  unfold note
  split
  · rename_i hn
    constructor
    · exact .inl
    · rintro (hx | rfl)
      · exact hx
      · exact hn
  · simp

theorem nodup_note (h : names.Nodup) (name : String) : (note names name).Nodup := by
  unfold note
  split
  · exact h
  · rename_i hn
    refine List.nodup_append.mpr ⟨h,by simp,fun a ha b hb => ?_⟩
    rintro rfl
    exact hn (List.mem_singleton.mp hb ▸ ha)

theorem mem_foldl_note {occurrences : List String} :
    x ∈ occurrences.foldl note names ↔ x ∈ names ∨ x ∈ occurrences := by
  induction occurrences generalizing names with
  | nil => simp
  | cons name rest ih => rw [List.foldl_cons,ih,mem_note,List.mem_cons,or_assoc]

theorem nodup_foldl_note (h : names.Nodup) (occurrences : List String) :
    (occurrences.foldl note names).Nodup := by
  induction occurrences generalizing names with
  | nil => exact h
  | cons name rest ih => exact ih (nodup_note h name)

/-- To go through an expression is to note its occurrences one after the other. -/
theorem noteAll_eq_foldl (e : Expr) (names : List String) :
    e.noteAll names = e.occurrences.foldl note names := by
  induction e generalizing names with
  | const v => rfl
  | var name => rfl
  | neg a ih | ln a ih => exact ih names
  | binary op a b iha ihb =>
    rw [noteAll,ihb,iha,occurrences,List.foldl_append]

theorem variableNames_eq_foldl (e : Expr) : e.variableNames = e.occurrences.foldl note [] :=
  e.noteAll_eq_foldl []

theorem nodup_variableNames (e : Expr) : e.variableNames.Nodup := by
  rw [variableNames_eq_foldl]
  exact nodup_foldl_note .nil e.occurrences

theorem mem_variableNames_iff {e : Expr} : x ∈ e.variableNames ↔ x ∈ e.occurrences := by
  rw [variableNames_eq_foldl,mem_foldl_note,or_iff_right List.not_mem_nil]

end Notes

end Expr
end Fluxion
