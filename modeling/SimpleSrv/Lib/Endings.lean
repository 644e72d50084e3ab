import Mathlib.Data.List.Basic

/-! Lists that differ when they are read from the end, whatever is put before them. -/

namespace SimpleSrv

variable {α : Type*}

/-- Read from the end, two lists differ before either of them is over. -/
def DifferFromEnd (xs ys : List α) : Prop :=
  ∃ first second last x y, xs = first ++ x :: last ∧ ys = second ++ y :: last ∧ x ≠ y

namespace DifferFromEnd

variable {xs ys : List α}

/-- Lists with different last elements differ. -/
theorem of_last {x y : α} (first second : List α) (different : x ≠ y) :
    DifferFromEnd (first ++ [x]) (second ++ [y]) :=
  ⟨first, second, [], x, y, rfl, rfl, different⟩

/-- What is put before the lists does not matter. -/
theorem append_left (differ : DifferFromEnd xs ys) (before before' : List α) :
    DifferFromEnd (before ++ xs) (before' ++ ys) := by
  obtain ⟨first, second, last, x, y, rfl, rfl, different⟩ := differ
  exact ⟨before ++ first, before' ++ second, last, x, y, by simp, by simp, different⟩

/-- A common end is passed first. -/
theorem append_right (differ : DifferFromEnd xs ys) (behind : List α) :
    DifferFromEnd (xs ++ behind) (ys ++ behind) := by
  obtain ⟨first, second, last, x, y, rfl, rfl, different⟩ := differ
  exact ⟨first, second, last ++ behind, x, y, by simp, by simp, different⟩

/-- No list differs from itself. -/
theorem irrefl (xs : List α) : ¬ DifferFromEnd xs xs := by
  rintro ⟨first, second, last, x, y, same, same', different⟩
  -- The place where the lists differ is given by the length of what follows.
  have both : first ++ x :: last = second ++ y :: last := same.symm.trans same'
  obtain ⟨_, tails⟩ := List.append_inj' both rfl
  exact different (List.cons.inj tails).1

end DifferFromEnd

end SimpleSrv
