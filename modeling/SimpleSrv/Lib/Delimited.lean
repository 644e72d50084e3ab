import Mathlib.Data.List.Basic
import Mathlib.InformationTheory.Coding.UniquelyDecodable

/-! Texts put together from parts, and when the whole text says what each part of it is. -/

namespace SimpleSrv

open InformationTheory

variable {ρ χ : Type*} {sep : χ} {a b s t : List χ}

/-- A text that ends at the first separator is found from the front. -/
theorem append_sep_inj (first : sep ∉ a) (second : sep ∉ b) (same : a ++ sep :: s = b ++ sep :: t) :
    a = b ∧ s = t := by
  -- The induction follows both texts up to the separator.
  induction a generalizing b with
  | nil =>
    cases b with
    | nil => exact ⟨rfl, (List.cons.inj same).2⟩
    | cons ch b =>
      -- The second text would begin with the separator.
      obtain ⟨rfl, _⟩ := List.cons.inj same
      exact absurd List.mem_cons_self second
  | cons ch a ih =>
    cases b with
    | nil =>
      obtain ⟨rfl, _⟩ := List.cons.inj same
      exact absurd List.mem_cons_self first
    | cons other b =>
      obtain ⟨rfl, behind⟩ := List.cons.inj same
      rw [List.mem_cons, not_or] at first second
      obtain ⟨rfl, rfl⟩ := ih first.2 second.2 behind
      exact ⟨rfl, rfl⟩

/-- A text that begins behind the last separator is found from the back. -/
theorem append_sep_inj_last (first : sep ∉ s) (second : sep ∉ t)
    (same : a ++ sep :: s = b ++ sep :: t) : a = b ∧ s = t := by
  -- Read backwards, these are texts that end before the first separator.
  have mirrored : s.reverse ++ sep :: a.reverse = t.reverse ++ sep :: b.reverse := by
    simpa using congrArg List.reverse same
  have apart := append_sep_inj (by simpa using first) (by simpa using second) mirrored
  exact ⟨List.reverse_injective apart.2, List.reverse_injective apart.1⟩

/-- The parts of a record's text, behind each other. -/
def written (parts : List (ρ → List χ)) (r : ρ) : List χ := parts.flatMap fun part => part r

/-- Without parts, nothing is written. -/
@[simp] theorem written_nil (r : ρ) : written ([] : List (ρ → List χ)) r = [] := rfl

/-- The first part is written before the others. -/
@[simp] theorem written_cons (part : ρ → List χ) (parts : List (ρ → List χ)) (r : ρ) :
    written (part :: parts) r = part r ++ written parts r := rfl

/-- Parts behind each other are written behind each other. -/
@[simp] theorem written_append (first second : List (ρ → List χ)) (r : ρ) :
    written (first ++ second) r = written first r ++ written second r := by
  simp [written]

/-- Admissible records with the same text agree in each part of it. -/
def Determines (admissible : ρ → Prop) (parts : List (ρ → List χ)) : Prop :=
  ∀ r other, admissible r → admissible other → written parts r = written parts other →
    ∀ part ∈ parts, part r = part other

namespace Determines

variable {admissible : ρ → Prop} {part : ρ → List χ} {left right : List (ρ → List χ)}

/-- A single part is the whole text. -/
theorem single : Determines admissible [part] := by
  intro r other _ _ same
  simpa using same

/-- A part that is always the same may stand in front. -/
theorem fixed_first (fixed : ∀ r other, part r = part other)
    (rest : Determines admissible right) : Determines admissible (part :: right) := by
  intro r other ok others same
  rw [written_cons, written_cons, fixed r other, List.append_cancel_left_eq] at same
  exact List.forall_mem_cons.mpr ⟨fixed r other, rest r other ok others same⟩

/-- A part that is always the same may stand at the end. -/
theorem fixed_last (fixed : ∀ r other, part r = part other)
    (rest : Determines admissible left) : Determines admissible (left ++ [part]) := by
  -- The last part is the same on both sides and can be cancelled.
  intro r other ok others same
  rw [written_append, written_append, written_cons, written_cons, fixed r other, written_nil,
    written_nil, List.append_cancel_right_eq] at same
  exact List.forall_mem_append.mpr ⟨rest r other ok others same, by simpa using fixed r other⟩

/-- Two texts may be separated by what the first does not contain. -/
theorem split_first (sep : χ) (plain : ∀ r, admissible r → sep ∉ written left r)
    (before : Determines admissible left) (behind : Determines admissible right) :
    Determines admissible (left ++ (fun _ => [sep]) :: right) := by
  -- The first separator of both texts is the one between the two parts.
  intro r other ok others same
  rw [written_append, written_append, written_cons, written_cons] at same
  obtain ⟨first, second⟩ := append_sep_inj (plain r ok) (plain other others) same
  exact List.forall_mem_append.mpr ⟨before r other ok others first,
    List.forall_mem_cons.mpr ⟨rfl, behind r other ok others second⟩⟩

/-- Two texts may be separated by what the second does not contain. -/
theorem split_last (sep : χ) (plain : ∀ r, admissible r → sep ∉ written right r)
    (before : Determines admissible left) (behind : Determines admissible right) :
    Determines admissible (left ++ (fun _ => [sep]) :: right) := by
  -- The last separator of both texts is the one between the two parts.
  intro r other ok others same
  rw [written_append, written_append, written_cons, written_cons] at same
  obtain ⟨first, second⟩ := append_sep_inj_last (plain r ok) (plain other others) same
  exact List.forall_mem_append.mpr ⟨before r other ok others first,
    List.forall_mem_cons.mpr ⟨rfl, behind r other ok others second⟩⟩

end Determines

/-- Words that end with their only terminator can be told apart behind each other. -/
theorem uniquelyDecodable_of_terminated {words : Set (List χ)}
    (ended : ∀ word ∈ words, ∃ body, sep ∉ body ∧ word = body ++ [sep]) :
    UniquelyDecodable words := by
  -- By induction on the words: the first terminator ends the first word of either side.
  intro first second firstIn secondIn same
  induction first generalizing second with
  | nil =>
    cases second with
    | nil => rfl
    | cons word rest =>
      -- No word is empty.
      obtain ⟨body, _, rfl⟩ := ended word (secondIn word List.mem_cons_self)
      simp at same
  | cons word rest ih =>
    obtain ⟨body, plain, rfl⟩ := ended word (firstIn word List.mem_cons_self)
    cases second with
    | nil => simp at same
    | cons other others =>
      obtain ⟨body', plain', rfl⟩ := ended other (secondIn other List.mem_cons_self)
      rw [List.flatten_cons, List.flatten_cons, List.append_assoc, List.append_assoc] at same
      obtain ⟨rfl, behind⟩ := append_sep_inj plain plain' same
      rw [ih others (fun word member => firstIn word (List.mem_cons_of_mem _ member))
        (fun word member => secondIn word (List.mem_cons_of_mem _ member)) behind]

/-- Items are determined by their images where the images tell the items apart. -/
theorem map_inj_of_mem {write : ρ → χ} {items others : List ρ}
    (inj : ∀ r ∈ items, ∀ other ∈ others, write r = write other → r = other)
    (same : items.map write = others.map write) : items = others := by
  -- Both lists have the same length, and are followed together.
  induction items generalizing others with
  | nil => exact (List.map_eq_nil_iff.mp same.symm).symm
  | cons r items ih =>
    cases others with
    | nil => cases same
    | cons other others =>
      obtain ⟨first, rest⟩ := List.cons.inj same
      obtain rfl := inj r List.mem_cons_self other List.mem_cons_self first
      rw [ih (fun r member other here => inj r (List.mem_cons_of_mem _ member) other
        (List.mem_cons_of_mem _ here)) rest]

end SimpleSrv
