import Fluxion.Formula.Tier

/-! Collapse of a text into references. The first match of the highest tier is set
aside in a table and a reference takes its place, until nothing matches. Nothing
is lost on the way: the source of the text stays what it was. -/
namespace Fluxion.Formula

/-- A part of a formula that has been set aside, and the tier that matched it. -/
structure Entry where
  tier : Tier
  fragment : Fragment

/-- The parts set aside so far, the oldest first. -/
structure Table where
  entries : List Entry

namespace Table

def empty : Table := ⟨[]⟩

/-- The number of entries and one more: number 0 is the whole formula. -/
def size (table : Table) : Nat := table.entries.length + 1

/-- A new entry gets the number `table.size`. -/
def push (table : Table) (tier : Tier) (fragment : Fragment) : Table :=
  ⟨table.entries ++ [⟨tier, fragment⟩]⟩

/-- All entries with their numbers, in the order in which they were made. -/
def numbered (table : Table) : List (Nat × Entry) :=
  table.entries.zipIdx.map fun (entry, i) => (i + 1, entry)

@[simp] theorem size_empty : empty.size = 1 := rfl

@[simp] theorem size_push (table : Table) (tier : Tier) (fragment : Fragment) :
    (table.push tier fragment).size = table.size + 1 := by
  simp [push,size]

end Table

/-- What is left of a text, and the table with the parts set aside. -/
def collapse (text : Fragment) (table : Table) : Fragment × Table :=
  match _h : Tier.first? text with
  | none => (text, table)
  | some (tier, site) =>
    collapse (site.replace (.ref table.size site.matched)) (table.push tier site.matched)
termination_by text.length
decreasing_by
  exact Tier.length_replace_lt _h _

theorem collapse_of_none {text : Fragment} (h : Tier.first? text = none) (table : Table) :
    collapse text table = (text, table) := by
  rw [collapse]
  split
  · rfl
  · simp_all

theorem collapse_of_some {text : Fragment} {tier : Tier} {site : Site}
    (h : Tier.first? text = some (tier, site)) (table : Table) :
    collapse text table =
      collapse (site.replace (.ref table.size site.matched)) (table.push tier site.matched) := by
  rw [collapse]
  split
  · simp_all
  · simp_all

@[simp] theorem source_collapse (text : Fragment) (table : Table) :
    (collapse text table).1.source = text.source := by
  fun_induction collapse text table with
  | case1 text table h => rfl
  | case2 text table tier site h ih =>
    rw [ih,← (Tier.first?_cuts h).1]
    simp [Site.replace,Site.text]

theorem first?_collapse (text : Fragment) (table : Table) :
    Tier.first? (collapse text table).1 = none := by
  fun_induction collapse text table with
  | case1 text table h => exact h
  | case2 text table tier site h ih => exact ih

end Fluxion.Formula
