import Mathlib.Data.List.Perm.Basic
import Mathlib.Data.List.Nodup

/-! Items spread over the lists of several owners, of which one changes. -/

namespace SimpleSrv

variable {α β : Type*}

/-- One owner's items may be counted first. -/
theorem flatMap_perm_erase [DecidableEq α] {owners : List α} {owner : α} (member : owner ∈ owners)
    (items : α → List β) :
    (owners.flatMap items).Perm (items owner ++ (owners.erase owner).flatMap items) := by
  -- Bringing the owner to the front only permutes the owners.
  have front := List.perm_cons_erase member
  simpa using front.flatMap_right items

/-- When one owner's list changes, the items of all the other owners remain. -/
theorem flatMap_perm_change [DecidableEq α] {owners : List α} (nodup : owners.Nodup) {owner : α}
    (member : owner ∈ owners) {items changed : α → List β}
    (same : ∀ other, other ≠ owner → changed other = items other) :
    (owners.flatMap changed).Perm (changed owner ++ (owners.erase owner).flatMap items) := by
  -- The owner itself does not stand among the others.
  have others : (owners.erase owner).flatMap changed = (owners.erase owner).flatMap items := by
    refine List.flatMap_congr fun other away => same other ?_
    exact (nodup.mem_erase_iff.mp away).1
  rw [← others]
  exact flatMap_perm_erase member changed

/-- An owner without items may leave. -/
theorem flatMap_perm_leave [DecidableEq α] {owners : List α} {owner : α} {items : α → List β}
    (empty : items owner = []) :
    ((owners.erase owner).flatMap items).Perm (owners.flatMap items) := by
  -- An owner on the list contributes nothing, and any other one is not even erased.
  by_cases member : owner ∈ owners
  · have front := flatMap_perm_erase member items
    rw [empty, List.nil_append] at front
    exact front.symm
  · rw [List.erase_of_not_mem member]

/-- Throwing the second part of a collection away leaves the first. -/
theorem perm_diff_of_append [DecidableEq β] {kept thrown all : List β}
    (split : (kept ++ thrown).Perm all) : kept.Perm (all.diff thrown) := by
  -- Each item thrown away is taken out of the whole collection in turn.
  induction thrown generalizing all with
  | nil => simpa using split
  | cons item rest ih =>
    rw [List.diff_cons]
    have erased := (List.perm_middle.symm.trans split).erase item
    rw [List.erase_cons_head] at erased
    exact ih erased

end SimpleSrv
