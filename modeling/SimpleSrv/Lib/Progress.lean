import Mathlib.Algebra.GroupWithZero.Nat
import Mathlib.Algebra.Order.BigOperators.Group.List
import SimpleSrv.Lib.Run

/-! Runs that use something up with every step, and what holds where no step is left. -/

namespace SimpleSrv

variable {State Label : Type*}

/-- None of the permitted steps can be taken. -/
def Stuck (step : State → Label → Option State) (permitted : State → Label → Prop) (s : State) :
    Prop :=
  ∀ label, permitted s label → step s label = none

/-- Every permitted step lowers the rank, and where there is none the goal has been reached. -/
structure Progresses (step : State → Label → Option State) (permitted : State → Label → Prop)
    (holds : State → Prop) (rank : State → Nat) (done : State → Prop) : Prop where
  kept : ∀ s label t, holds s → permitted s label → step s label = some t → holds t
  lower : ∀ s label t, holds s → permitted s label → step s label = some t → rank t < rank s
  done : ∀ s, holds s → Stuck step permitted s → done s

/-- However the permitted steps are chosen, there are only so many of them up to the goal. -/
structure Finishes (step : State → Label → Option State) (permitted : State → Label → Prop)
    (bound : Nat) (done : State → Prop) (s : State) : Prop where
  bounded : ∀ labels t, Run step permitted s labels t → labels.length ≤ bound
  ends : ∀ labels t, Run step permitted s labels t → Stuck step permitted t → done t
  reaches : ∃ labels t, Run step permitted s labels t ∧ Stuck step permitted t ∧ done t

namespace Progresses

variable {step : State → Label → Option State} {permitted : State → Label → Prop}
  {holds : State → Prop} {rank : State → Nat} {done : State → Prop} {s t : State}
  {labels : List Label}

/-- Each step of a run is paid for with the rank. -/
theorem length_add_le (progress : Progresses step permitted holds rank done) (here : holds s)
    (run : Run step permitted s labels t) : labels.length + rank t ≤ rank s := by
  -- The last step lowers the rank of the state that the others have reached.
  induction run with
  | start => simp
  | next run allowed stepped ih =>
    have reached := run.invariant here progress.kept
    have lower := progress.lower _ _ _ reached allowed stepped
    rw [List.length_append, List.length_singleton]
    omega

/-- From every state, a run goes on until no step is left. -/
theorem exists_stuck (progress : Progresses step permitted holds rank done) (here : holds s) :
    ∃ labels t, Run step permitted s labels t ∧ Stuck step permitted t := by
  -- By induction on the rank, which the first step lowers if there is one.
  induction bound : rank s using Nat.strong_induction_on generalizing s with
  | _ n ih =>
    by_cases stuck : Stuck step permitted s
    · exact ⟨[], s, .start s, stuck⟩
    · simp only [Stuck, not_forall] at stuck
      obtain ⟨label, allowed, enabled⟩ := stuck
      obtain ⟨next, stepped⟩ := Option.ne_none_iff_exists'.mp enabled
      have lower := progress.lower s label next here allowed stepped
      obtain ⟨labels, t, run, last⟩ :=
        ih (rank next) (bound ▸ lower) (progress.kept s label next here allowed stepped) rfl
      exact ⟨label :: labels, t, .cons allowed stepped run, last⟩

/-- Whoever chooses the steps, the goal is reached within as many of them as the rank says. -/
theorem finishes (progress : Progresses step permitted holds rank done) (here : holds s) :
    Finishes step permitted (rank s) done s where
  bounded := fun labels t run =>
    Nat.le_trans (Nat.le_add_right _ _) (progress.length_add_le here run)
  ends := fun labels t run stuck => progress.done t (run.invariant here progress.kept) stuck
  reaches := by
    obtain ⟨labels, t, run, stuck⟩ := progress.exists_stuck here
    exact ⟨labels, t, run, stuck, progress.done t (run.invariant here progress.kept) stuck⟩

end Progresses

section Weights

variable {α : Type*} {items : List α} {k : Nat} {a b : α}

/-- The weights of all items together. -/
def totalWeight (weight : α → Nat) (items : List α) : Nat := (items.map weight).sum

/-- One item is replaced, and its weight with it. -/
theorem totalWeight_set (weight : α → Nat) (at_ : items[k]? = some a) :
    totalWeight weight (items.set k b) + weight a = totalWeight weight items + weight b := by
  -- The position counts down to the item along those before it.
  induction items generalizing k with
  | nil => simp at at_
  | cons first rest ih =>
    cases k with
    | zero =>
      obtain rfl := Option.some.inj at_
      simp only [totalWeight, List.set_cons_zero, List.map_cons, List.sum_cons]
      omega
    | succ k =>
      have others := ih (k := k) (by simpa using at_)
      simp only [totalWeight, List.set_cons_succ, List.map_cons, List.sum_cons] at others ⊢
      omega

/-- A change that no item gains by leaves the weight as it was. -/
theorem totalWeight_map (weight : α → Nat) {change : α → α}
    (same : ∀ a, weight (change a) = weight a) (items : List α) :
    totalWeight weight (items.map change) = totalWeight weight items := by
  simp [totalWeight, Function.comp_def, same]

/-- No item is heavier than all of them. -/
theorem le_totalWeight (weight : α → Nat) (member : a ∈ items) :
    weight a ≤ totalWeight weight items := by
  -- By induction on the items: the sum contains this one's weight.
  induction items with
  | nil => cases member
  | cons first rest ih =>
    simp only [totalWeight, List.map_cons, List.sum_cons] at ih ⊢
    rcases List.mem_cons.mp member with rfl | member
    · exact Nat.le_add_right _ _
    · have others := ih member
      omega

/-- If no item gains more than one by a change, all of them together gain no more than they are. -/
theorem totalWeight_map_le (weight : α → Nat) {change : α → α}
    (gain : ∀ a, weight (change a) ≤ weight a + 1) (items : List α) :
    totalWeight weight (items.map change) ≤ totalWeight weight items + items.length := by
  -- By induction on the items, each of which gains at most the one it adds to the length.
  induction items with
  | nil => exact Nat.le_refl _
  | cons first rest ih =>
    have one := gain first
    simp only [totalWeight, List.map_cons, List.sum_cons, List.length_cons] at ih ⊢
    omega

/-- An item at the end adds its weight. -/
theorem totalWeight_concat (weight : α → Nat) (items : List α) (a : α) :
    totalWeight weight (items ++ [a]) = totalWeight weight items + weight a := by
  simp [totalWeight]

end Weights

end SimpleSrv
