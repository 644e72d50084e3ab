import Mathlib.Data.List.Perm.Basic
import Mathlib.Data.List.Flatten
import Mathlib.Data.List.Nodup

/-! A table of resources that are in use, each of which is held by one component of a system. -/

namespace SimpleSrv

variable {α β : Type*} {holds : α → List β} {items : List α} {a b : α} {k l : Nat} {x : β}

/-- When one component is replaced, so is what it holds. -/
theorem flatMap_set_perm (holds : α → List β) (at_ : items[k]? = some a) :
    (holds a ++ (items.set k b).flatMap holds).Perm (holds b ++ items.flatMap holds) := by
  -- The position counts down to the component along those before it.
  induction items generalizing k with
  | nil => simp at at_
  | cons first rest ih =>
    cases k with
    | zero =>
      obtain rfl := Option.some.inj at_
      simp only [List.set_cons_zero, List.flatMap_cons]
      exact List.perm_append_comm_assoc _ _ _
    | succ k =>
      have others := ih (k := k) (by simpa using at_)
      simp only [List.set_cons_succ, List.flatMap_cons]
      calc List.Perm (holds a ++ (holds first ++ (rest.set k b).flatMap holds))
            (holds first ++ (holds a ++ (rest.set k b).flatMap holds)) :=
              List.perm_append_comm_assoc _ _ _
        List.Perm _ (holds first ++ (holds b ++ rest.flatMap holds)) := others.append_left _
        List.Perm _ (holds b ++ (holds first ++ rest.flatMap holds)) :=
              List.perm_append_comm_assoc _ _ _

/-- What is in use is what the components hold, and no two of them hold the same. -/
structure Accounts (holds : α → List β) (items : List α) (used : List β) : Prop where
  perm : used.Perm (items.flatMap holds)
  nodup : used.Nodup

namespace Accounts

variable {used : List β}

/-- A component changes, but not what it holds. -/
theorem keep (accounts : Accounts holds items used) (at_ : items[k]? = some a)
    (same : holds b = holds a) : Accounts holds (items.set k b) used where
  -- What the list holds is permuted only.
  perm := by
    have moved := flatMap_set_perm (b := b) holds at_
    rw [same] at moved
    exact accounts.perm.trans ((List.perm_append_left_iff _).mp moved).symm
  nodup := accounts.nodup

/-- A component takes something that is not in use. -/
theorem acquire (accounts : Accounts holds items used) (at_ : items[k]? = some a)
    (more : (holds b).Perm (x :: holds a)) (fresh : x ∉ used) :
    Accounts holds (items.set k b) (x :: used) where
  -- Up to order, the component's old holdings are exchanged for the same and one more.
  perm := by
    have moved := (flatMap_set_perm (b := b) holds at_).trans (more.append_right _)
    rw [List.cons_append] at moved
    have rest : ((items.set k b).flatMap holds).Perm (x :: items.flatMap holds) :=
      (List.perm_append_left_iff (holds a)).mp (moved.trans List.perm_middle.symm)
    exact (accounts.perm.cons x).trans rest.symm
  nodup := accounts.nodup.cons fresh

/-- A component gives something back. -/
theorem release [DecidableEq β] (accounts : Accounts holds items used) (at_ : items[k]? = some a)
    (less : (holds a).Perm (x :: holds b)) : Accounts holds (items.set k b) (used.erase x) where
  -- The mirror image of `acquire`, with the old and the new component exchanged.
  perm := by
    have moved := (less.append_right _).symm.trans (flatMap_set_perm (b := b) holds at_)
    rw [List.cons_append] at moved
    have rest : (x :: (items.set k b).flatMap holds).Perm (items.flatMap holds) :=
      (List.perm_append_left_iff (holds b)).mp (List.perm_middle.trans moved)
    have whole := (accounts.perm.trans rest.symm).erase x
    rwa [List.erase_cons_head] at whole
  nodup := accounts.nodup.erase x

/-- A new component begins with something that is not in use. -/
theorem add (accounts : Accounts holds items used) (has : holds a = [x]) (fresh : x ∉ used) :
    Accounts holds (items ++ [a]) (x :: used) where
  perm := by
    rw [List.flatMap_append, List.flatMap_singleton, has]
    exact (accounts.perm.cons x).trans (List.perm_append_singleton _ _).symm
  nodup := accounts.nodup.cons fresh

/-- No two components hold the same. -/
theorem apart (accounts : Accounts holds items used) (first : items[k]? = some a)
    (second : items[l]? = some b) (held : x ∈ holds a) (other : x ∈ holds b) : k = l := by
  -- Something held twice would occur twice among all that is held.
  have disjoint := (List.nodup_flatMap.mp (accounts.perm.nodup_iff.mp accounts.nodup)).2
  obtain ⟨here, rfl⟩ := List.getElem?_eq_some_iff.mp first
  obtain ⟨there, rfl⟩ := List.getElem?_eq_some_iff.mp second
  rcases Nat.lt_trichotomy k l with before | same | behind
  · exact absurd other (List.pairwise_iff_getElem.mp disjoint k l here there before held)
  · exact same
  · exact absurd held (List.pairwise_iff_getElem.mp disjoint l k there here behind other)

end Accounts

/-- If no component owes more than it holds, all of them together do not. -/
theorem length_filterMap_le (owes : α → Option β) (items : List α)
    (part : ∀ a ∈ items, (owes a).toList.length ≤ (holds a).length) :
    (items.filterMap owes).length ≤ (items.flatMap holds).length := by
  -- By induction on the components, each of which adds no more on the left than on the right.
  induction items with
  | nil => exact Nat.le_refl _
  | cons first rest ih =>
    have others := ih fun a member => part a (List.mem_cons_of_mem _ member)
    have own := part first List.mem_cons_self
    rw [List.filterMap_cons, List.flatMap_cons, List.length_append]
    cases owed : owes first with
    | none => exact Nat.le_trans others (Nat.le_add_left _ _)
    | some x =>
      rw [owed] at own
      simp only [Option.toList_some, List.length_cons] at own ⊢
      omega

/-- What one component holds beyond its debt comes on top. -/
theorem length_filterMap_add_le (owes : α → Option β) {more : Nat}
    (part : ∀ a ∈ items, (owes a).toList.length ≤ (holds a).length) (member : a ∈ items)
    (beyond : (owes a).toList.length + more ≤ (holds a).length) :
    (items.filterMap owes).length + more ≤ (items.flatMap holds).length := by
  -- The component is somewhere between others that owe at most what they hold.
  obtain ⟨before, after, rfl⟩ := List.append_of_mem member
  have first := length_filterMap_le owes before fun a member => part a (by simp [member])
  have last := length_filterMap_le owes after fun a member => part a (by simp [member])
  simp only [List.filterMap_append, List.filterMap_cons, List.flatMap_append, List.flatMap_cons,
    List.length_append]
  cases owed : owes a with
  | none =>
    rw [owed] at beyond
    simp only [Option.toList_none, List.length_nil] at beyond ⊢
    omega
  | some x =>
    rw [owed] at beyond
    simp only [Option.toList_some, List.length_cons] at beyond ⊢
    omega

/-- A component that changes nothing about its debt is replaced. -/
theorem filterMap_set_eq (owes : α → Option β) (at_ : items[k]? = some a)
    (same : owes b = owes a) : (items.set k b).filterMap owes = items.filterMap owes := by
  -- By induction on the components up to the one that is replaced.
  induction items generalizing k with
  | nil => simp at at_
  | cons first rest ih =>
    cases k with
    | zero =>
      obtain rfl := Option.some.inj at_
      rw [List.set_cons_zero, List.filterMap_cons, List.filterMap_cons, same]
    | succ k =>
      rw [List.set_cons_succ, List.filterMap_cons, List.filterMap_cons,
        ih (k := k) (by simpa using at_)]

/-- A component without a debt is replaced, and the others keep theirs. -/
theorem filterMap_sublist_set (owes : α → Option β) (at_ : items[k]? = some a)
    (none : owes a = none) : (items.filterMap owes).Sublist ((items.set k b).filterMap owes) := by
  -- By induction on the components up to the one that is replaced, which added nothing before.
  induction items generalizing k with
  | nil => simp at at_
  | cons first rest ih =>
    cases k with
    | zero =>
      obtain rfl := Option.some.inj at_
      rw [List.set_cons_zero, List.filterMap_cons, List.filterMap_cons, none]
      cases owes b with
      | none => exact .refl _
      | some x => exact List.sublist_cons_self _ _
    | succ k =>
      have others := ih (k := k) (by simpa using at_)
      rw [List.set_cons_succ, List.filterMap_cons, List.filterMap_cons]
      cases owes first with
      | none => exact others
      | some x => exact others.cons_cons x

end SimpleSrv
