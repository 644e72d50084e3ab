import Mathlib.Data.List.Perm.Subperm
import Mathlib.Data.List.Nodup

/-! What is handed out at once of the items that are pending, of which there may be too many. -/

namespace SimpleSrv

variable {α : Type*}

/-- Pending items that are handed out at once: all of them, or as many as the limit permits. -/
structure Batch (limit : Nat) (pending : α → Prop) (batch : List α) : Prop where
  nodup : batch.Nodup
  sound : ∀ item ∈ batch, pending item
  bounded : batch.length ≤ limit
  complete : batch.length < limit → ∀ item, pending item → item ∈ batch

namespace Batch

variable {limit : Nat} {pending : α → Prop} {batch all : List α}

/-- Few pending items are all handed out, in whatever order. -/
theorem perm (handed : Batch limit pending batch) (nodup : all.Nodup)
    (known : ∀ item, pending item ↔ item ∈ all) (few : all.length ≤ limit) : batch.Perm all := by
  -- Nothing but pending items is in a batch, and none of them twice.
  have sub : batch.Subperm all :=
    List.subperm_of_subset handed.nodup fun item mem => (known item).mp (handed.sound item mem)
  -- A full batch is as long as all pending items, and any other one is complete.
  by_cases full : batch.length < limit
  · apply (List.perm_ext_iff_of_nodup handed.nodup nodup).mpr
    intro item
    rw [← known]
    exact ⟨handed.sound item, handed.complete full item⟩
  · exact sub.perm_of_length_le (by omega)

/-- A batch leaves something out if there are too many pending items. -/
theorem exists_missing (handed : Batch limit pending batch) (nodup : all.Nodup)
    (many : limit < all.length) : ∃ item ∈ all, item ∉ batch := by
  -- A batch that has all of them would be too long.
  by_contra none_missing
  have inside : all ⊆ batch := by
    intro item mem
    by_contra missing
    exact none_missing ⟨item, mem, missing⟩
  have short := (List.subperm_of_subset nodup inside).length_le
  have bounded := handed.bounded
  omega

/-- A batch may start with any pending items that fit. -/
theorem exists_containing [DecidableEq α] (nodup : all.Nodup)
    (known : ∀ item, pending item ↔ item ∈ all) {chosen : List α} (distinct : chosen.Nodup)
    (sound : ∀ item ∈ chosen, pending item) (fits : chosen.length ≤ limit) :
    ∃ batch, Batch limit pending batch ∧ ∀ item ∈ chosen, item ∈ batch := by
  -- Behind those that are chosen come as many others as fit.
  obtain ⟨others, rest⟩ : ∃ others, all.filter (fun item => item ∉ chosen) = others := ⟨_, rfl⟩
  have mem_others : ∀ item, item ∈ others ↔ item ∈ all ∧ item ∉ chosen := by
    intro item
    rw [← rest, List.mem_filter, decide_eq_true_eq]
  refine ⟨chosen ++ others.take (limit - chosen.length), ⟨?_, ?_, ?_, ?_⟩, ?_⟩
  · apply List.Nodup.append distinct
    · exact ((rest ▸ nodup.filter _ : others.Nodup)).sublist (List.take_sublist _ _)
    · intro item first second
      exact ((mem_others item).mp (List.mem_of_mem_take second)).2 first
  · intro item mem
    rcases List.mem_append.mp mem with first | second
    · exact sound item first
    · exact (known item).mpr ((mem_others item).mp (List.mem_of_mem_take second)).1
  · rw [List.length_append, List.length_take]
    omega
  · -- A batch that is not full has taken all of the others.
    intro short item waits
    rw [List.length_append, List.length_take] at short
    rw [List.take_of_length_le (by omega), List.mem_append]
    by_cases first : item ∈ chosen
    · exact .inl first
    · exact .inr ((mem_others item).mpr ⟨(known item).mp waits, first⟩)
  · exact fun item mem => List.mem_append_left _ mem

end Batch

end SimpleSrv
