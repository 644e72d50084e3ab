import Mathlib.Data.List.Basic

/-! Logs that grow at their end, and the places of one entry in them. -/

namespace SimpleSrv

variable {α : Type*}

/-- An entry of a log that has just grown is the new one, or it stands in the older log. -/
theorem append_cons_of_snoc {log before after : List α} {entry new : α}
    (grown : log ++ [new] = before ++ entry :: after) :
    (before = log ∧ entry = new ∧ after = []) ∨
      ∃ older, after = older ++ [new] ∧ log = before ++ entry :: older := by
  -- Either nothing follows the entry, or the last thing that follows it is the new one.
  rcases List.eq_nil_or_concat after with rfl | ⟨older, last, rfl⟩
  · obtain ⟨rfl, same⟩ := List.append_inj' grown rfl
    simp only [List.cons.injEq, and_true] at same
    exact .inl ⟨rfl, same.symm, rfl⟩
  · have regrouped : log ++ [new] = (before ++ entry :: older) ++ [last] := by
      simpa using grown
    obtain ⟨rfl, same⟩ := List.append_inj' regrouped rfl
    simp only [List.cons.injEq, and_true] at same
    exact .inr ⟨older, by simp [same], rfl⟩

/-- Two entries of a log that has just grown: the later one is new, or both are older. -/
theorem append_cons_cons_of_snoc {log before between after : List α} {first second new : α}
    (grown : log ++ [new] = before ++ first :: (between ++ second :: after)) :
    (second = new ∧ after = [] ∧ log = before ++ first :: between) ∨
      ∃ older, after = older ++ [new] ∧ log = before ++ first :: (between ++ second :: older) := by
  -- The two parts before the second entry count as one when the end is compared.
  have regrouped : log ++ [new] = (before ++ first :: between) ++ second :: after := by
    simpa using grown
  rcases append_cons_of_snoc regrouped with ⟨same, last, none⟩ | ⟨older, same, inside⟩
  · exact .inl ⟨last, none, same.symm⟩
  · exact .inr ⟨older, same, by simpa using inside⟩

end SimpleSrv
