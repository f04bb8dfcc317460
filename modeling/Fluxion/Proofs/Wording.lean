import Fluxion.Proofs.Answers
import Fluxion.Proofs.Lookup
import Fluxion.Transcript

/-! Wording. Whatever is printed about an equation or an answer fits on a line: numbers and
expressions do, and messages quote nothing of a formula but what is left of it without white
space. -/
namespace Fluxion

namespace Text

/-- A text that fits on a line. -/
def Unbroken (s : List Char) : Prop := '\n' ∉ s

instance : DecidablePred Unbroken := fun s => inferInstanceAs (Decidable ('\n' ∉ s))

variable {s s' : List Char}

@[simp] theorem unbroken_nil : Unbroken [] := List.not_mem_nil

@[simp] theorem unbroken_cons {c : Char} : Unbroken (c :: s) ↔ c ≠ '\n' ∧ Unbroken s := by
  simp [Unbroken,eq_comm]

@[simp] theorem unbroken_append : Unbroken (s ++ s') ↔ Unbroken s ∧ Unbroken s' := by
  simp [Unbroken]

theorem Unbroken.of_forall {p : Char → Bool} (hp : p '\n' = false) (h : ∀ c ∈ s, p c = true) :
    Unbroken s := by
  intro hn
  rw [h _ hn] at hp
  cases hp

theorem Unbroken.subset (h : Unbroken s) (hs : s' ⊆ s) : Unbroken s' := fun hn => h (hs hn)

theorem unbroken_strip (s : List Char) : Unbroken (strip s) :=
  .of_forall (p := (! isBlank ·)) rfl fun _ hc => (List.mem_filter.mp hc).2

theorem trimStart_subset (s : List Char) : trimStart s ⊆ s :=
  (List.dropWhile_suffix _).subset

theorem trim_subset (s : List Char) : trim s ⊆ s := fun _ hc =>
  trimStart_subset s (List.mem_reverse.mp (trimStart_subset _ (List.mem_reverse.mp hc)))

end Text

open Text (Unbroken)

namespace Decimal

@[simp] theorem unbroken_ofNat (n : Nat) : Unbroken (ofNat n) :=
  .of_forall (p := Char.isDigit) rfl fun _ hc => isDigit_of_mem_ofNat hc

@[simp] theorem unbroken_natText (n : Nat) : Unbroken (natText n).toList := by
  simp [natText]

theorem unbroken_replicate (n : Nat) : Unbroken (List.replicate n '0') :=
  .of_forall (p := (· == '0')) rfl fun _ hc => by simp [List.eq_of_mem_replicate hc]

theorem unbroken_positional (k : Nat) (place : Int) : Unbroken (positional k place) := by
  have hn : ∀ n, Unbroken (List.replicate n '0' ++ ofNat k) := fun n =>
    Text.unbroken_append.mpr ⟨unbroken_replicate n,unbroken_ofNat k⟩
  unfold positional
  simp only
  split
  · exact Text.unbroken_append.mpr ⟨unbroken_ofNat k,unbroken_replicate _⟩
  · refine Text.unbroken_append.mpr ⟨(hn _).subset (List.take_subset ..),?_⟩
    exact Text.unbroken_cons.mpr ⟨by decide,(hn _).subset (List.drop_subset ..)⟩

theorem unbroken_magnitude (biased fraction : Nat) : Unbroken (magnitude biased fraction) := by
  have hp := unbroken_positional
  unfold magnitude
  generalize (Range.ofFields biased fraction).shortest = decimal
  split
  · simp
  · split
    · simp
    · exact hp decimal.1 decimal.2

@[simp] theorem unbroken_floatText (x : Float) : Unbroken (floatText x).toList := by
  unfold floatText
  simp only
  split
  · simp
  · rw [String.toList_ofList]
    split
    · exact Text.unbroken_cons.mpr ⟨by decide,unbroken_magnitude _ _⟩
    · exact unbroken_magnitude _ _

end Decimal

theorem Mismatch.unbroken_message (m : Mismatch) : Unbroken m.message.toList := by
  simp [message]

theorem Kind.unbroken_symbol (kind : Kind) : Unbroken kind.symbol.toList := by
  cases kind with
  | binary op => cases op <;> simp [symbol,BinaryOp.symbol]
  | _ => simp [symbol]

theorem ConstructionError.unbroken_message (e : ConstructionError) : Unbroken e.message.toList := by
  cases e <;> simp [message,Kind.unbroken_symbol]

/-- An expression with variables that are read from a formula. -/
theorem Expr.Lettered.unbroken_chars {e : Expr} (h : e.Lettered) : Unbroken e.chars :=
  .of_forall (p := Formula.isAllowed) rfl (Formula.isAllowed_chars h)

namespace Formula

namespace Fragment

variable {a b text : Fragment}

theorem mem_source {c : Char} : c ∈ text.source ↔ ∃ t ∈ text, c ∈ t.source := by
  induction text with
  | nil => simp
  | cons t text ih => simp [ih]

theorem source_subset (h : a ⊆ b) : a.source ⊆ b.source := fun c hc => by
  obtain ⟨t,ht,hc⟩ := mem_source.mp hc
  exact mem_source.mpr ⟨t,h ht,hc⟩

/-- A text in a message shows its characters and the numbers of its references. -/
theorem unbroken_render (h : Unbroken text.source) : Unbroken text.render.toList := by
  rw [render,String.toList_ofList]
  induction text with
  | nil => simp
  | cons t text ih =>
    rw [source_cons,Text.unbroken_append] at h
    rw [List.flatMap_cons,Text.unbroken_append]
    refine ⟨?_,ih h.2⟩
    cases t with
    | char c => simpa [Token.shown] using h.1
    | ref i content => simp [Token.shown]

theorem unbroken_part {part : Fragment} {s : Shape} (h : Unbroken text.source)
    (hs : text.shape = s) (hp : part ∈ s.parts) : Unbroken part.source := by
  rw [eq_text_of_shape hs] at h
  exact h.subset (source_subset (Shape.subset_of_mem_parts hp))

end Fragment

/-- What an error says of the formula in the formula's own words. -/
def ParseError.quoted : ParseError → List Char
  | empty | construction _ => []
  | invalidCharacter character _ => [character]
  | invalidExpression s | invalidInteger s => s.toList

theorem ParseError.unbroken_message {e : ParseError} (h : Unbroken e.quoted) :
    Unbroken e.message.toList := by
  unfold message
  cases e with
  | empty => simp
  | invalidCharacter c i => simpa [quoted] using h
  | invalidExpression s => simpa [quoted] using h
  | invalidInteger s => simpa [quoted] using h
  | construction e => exact e.unbroken_message

theorem unbroken_quoted_of_assemble {text : Fragment} {table : Table} {e : ParseError}
    (hu : Unbroken text.source) (h : (assemble text table).outcome = .error e) :
    Unbroken e.quoted := by
  induction text using Fragment.shape_induction generalizing table with
  | logarithm text inner hs ih =>
    have hi : Unbroken inner.source := Fragment.unbroken_part hu hs (by simp [Shape.parts])
    rw [assemble_of_logarithm hs] at h
    exact ih _ (by simp) (by rwa [source_collapse]) (Reading.error_of_map h)
  | group text inner hs ih =>
    have hi : Unbroken inner.source := Fragment.unbroken_part hu hs (by simp [Shape.parts])
    rw [assemble_of_group hs] at h
    exact ih _ (by simp) (by rwa [source_collapse]) h
  | integer text negative digits hs =>
    rw [assemble_of_integer hs] at h
    cases hi : integer? negative digits.source with
    | none =>
      rw [hi] at h
      cases h
      exact Fragment.unbroken_render hu
    | some v =>
      rw [hi] at h
      cases h
  | name text letters hs =>
    rw [assemble_of_name hs] at h
    cases h
  | reference text i content hs ih =>
    rw [assemble_of_reference hs] at h
    rw [Fragment.eq_text_of_shape hs] at hu
    exact ih (by simpa [Shape.text] using hu) h
  | negation text operand hs ih =>
    rw [assemble_of_negation hs] at h
    exact ih (Fragment.unbroken_part hu hs (by simp [Shape.parts])) (Reading.error_of_map h)
  | operation text op left right hs ihl ihr =>
    rw [assemble_of_operation hs] at h
    rcases Reading.error_of_join h with hl | ⟨-,hr⟩ | ⟨c,rfl⟩
    · exact ihl (Fragment.unbroken_part hu hs (by simp [Shape.parts])) hl
    · exact ihr (Fragment.unbroken_part hu hs (by simp [Shape.parts])) hr
    · exact Text.unbroken_nil
  | juxtaposition text left right hs ihl ihr =>
    rw [assemble_of_juxtaposition hs] at h
    rcases Reading.error_of_join h with hl | ⟨-,hr⟩ | ⟨c,rfl⟩
    · exact ihl (Fragment.unbroken_part hu hs (by simp [Shape.parts])) hl
    · exact ihr (Fragment.unbroken_part hu hs (by simp [Shape.parts])) hr
    · exact Text.unbroken_nil
  | unknown text u hs =>
    rw [assemble_of_unknown hs] at h
    cases h
    exact Fragment.unbroken_render hu

theorem mem_of_firstInvalid? {s : List Char} {offset index : Nat} {c : Char}
    (h : firstInvalid? offset s = some (c, index)) : c ∈ s := by
  induction s generalizing offset with
  | nil => cases h
  | cons d s ih =>
    rw [firstInvalid?] at h
    split at h
    · exact List.mem_cons_of_mem d (ih h)
    · cases h
      exact List.mem_cons_self

/-- An error about a formula on one line is a message on one line. -/
theorem unbroken_message_of_parse {s : String} {e : ParseError} (hu : Unbroken s.toList)
    (h : parse s = .error e) : Unbroken e.message.toList := by
  refine ParseError.unbroken_message ?_
  rw [parse,read] at h
  split at h
  · cases h
    exact Text.unbroken_nil
  · split at h
    · rename_i c i hf
      cases h
      have hc : c ≠ '\n' := fun hn => hu (hn ▸ mem_of_firstInvalid? hf)
      simpa [ParseError.quoted] using hc
    · exact unbroken_quoted_of_assemble (by simpa using hu) h

end Formula

/-- White space is dropped before a formula is read, so line feeds in it do no harm. -/
theorem unbroken_message_of_readFormula {input : String} {e : InputError}
    (h : readFormula input = .error e) : Unbroken e.message.toList := by
  unfold InputError.message
  rw [readFormula,tidy] at h
  split at h
  · cases h
    simp
  · have hu : Unbroken (String.ofList (Text.strip input.toList)).toList := by
      simpa using Text.unbroken_strip input.toList
    cases hp : Formula.parse (String.ofList (Text.strip input.toList)) with
    | ok t =>
      simp only [Except.bind,hp] at h
      cases h
    | error error =>
      simp only [Except.bind,hp] at h
      cases h
      exact Formula.unbroken_message_of_parse hu hp

namespace Exercise

variable {equation : String} {exercise : Exercise}

theorem unbroken_message_of_ofEquation {e : InputError} (h : ofEquation equation = .error e) :
    Unbroken e.message.toList := by
  unfold ofEquation at h
  split at h
  · rename_i hr
    cases h
    exact unbroken_message_of_readFormula hr
  · split at h
    · rename_i error hd
      cases h
      unfold InputError.message
      simpa using error.unbroken_message
    · cases h

theorem unbroken_expression (h : ofEquation equation = .ok exercise) :
    Unbroken exercise.expression.chars := by
  obtain ⟨formula,-,hp⟩ := readFormula_eq_ok (readFormula_of_ofEquation h)
  exact (Formula.writable_of_parse hp).lettered.unbroken_chars

theorem unbroken_derivative (h : ofEquation equation = .ok exercise) :
    Unbroken exercise.derivative.chars :=
  (writable_derivative h).lettered.unbroken_chars

end Exercise

namespace Report

theorem unbroken_quoted {s : List Char} (h : Unbroken s) : Unbroken (quoted s) := by
  simpa [quoted] using h.subset (Text.trim_subset s)

/-- A verdict on an answer is one line. -/
theorem unbroken_ofVerdict {answer : List Char} (h : Unbroken answer) (exercise : Exercise)
    (settings : Settings) :
    Unbroken (ofVerdict answer (exercise.grade (String.ofList answer) settings)) := by
  have hq := unbroken_quoted h
  rw [Exercise.grade]
  split
  · rename_i e hr
    simpa [ofVerdict,hq] using unbroken_message_of_readFormula hr
  · split
    · simpa [ofVerdict] using hq
    · rename_i mismatch _
      simpa [ofVerdict,hq] using mismatch.unbroken_message

end Report
end Fluxion
