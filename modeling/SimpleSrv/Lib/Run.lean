import Mathlib.Data.List.Basic

/-! Finite runs of a labelled step function, and what one preserved step says about a whole run. -/

namespace SimpleSrv

variable {State Label : Type*}

/-- A finite run whose every step is permitted in the state that takes it. -/
inductive Run (step : State → Label → Option State) (permitted : State → Label → Prop) :
    State → List Label → State → Prop
  -- A run without steps stays where it is.
  | start (s : State) : Run step permitted s [] s
  -- The new label stands at the end, so that induction on a run looks at its last step.
  | next {s t u : State} {labels : List Label} {label : Label} :
      Run step permitted s labels t → permitted t label → step t label = some u →
      Run step permitted s (labels ++ [label]) u

/-- Execute the labels in order, stopping at the first step that is not permitted or not enabled. -/
def execute (step : State → Label → Option State) (permitted : State → Label → Prop)
    [∀ s label, Decidable (permitted s label)] : State → List Label → Option State
  | s, [] => some s
  -- The remaining labels run from the state the first one leads to.
  | s, label :: rest =>
    if permitted s label then (step s label).bind fun t => execute step permitted t rest else none

namespace Run

variable {step : State → Label → Option State} {permitted : State → Label → Prop}

/-- An invariant of every permitted step holds at the end of every run. -/
theorem invariant {holds : State → Prop} {s t : State} {labels : List Label}
    (run : Run step permitted s labels t) (initial : holds s)
    (preserved : ∀ t label u, holds t → permitted t label → step t label = some u → holds u) :
    holds t := by
  -- The induction is on the run, so only its last step has to be examined.
  induction run with
  | start => exact initial
  | next _ allowed stepped ih => exact preserved _ _ _ ih allowed stepped

/-- A run remains one under a more permissive discipline. -/
theorem weaken {other : State → Label → Prop} {s t : State} {labels : List Label}
    (run : Run step permitted s labels t) (weaker : ∀ t label, permitted t label → other t label) :
    Run step other s labels t := by
  -- Each step is permitted by the weaker discipline too.
  induction run with
  | start => exact .start _
  | next _ allowed stepped ih => exact .next ih (weaker _ _ allowed) stepped

/-- A run is strengthened by what its own reachable states say about the permitted steps. -/
theorem strengthen {holds : State → Prop} {other : State → Label → Prop} {s t : State}
    {labels : List Label} (run : Run step permitted s labels t) (initial : holds s)
    (preserved : ∀ t label u, holds t → permitted t label → step t label = some u → holds u)
    (stronger : ∀ t label u, holds t → permitted t label → step t label = some u →
      other t label) : Run step other s labels t := by
  -- The invariant is available in each state, where it upgrades the permission of the next step.
  induction run with
  | start => exact .start _
  | next run allowed stepped ih =>
    exact .next ih (stronger _ _ _ (run.invariant initial preserved) allowed stepped) stepped

/-- A run goes on from the state where an earlier one has ended. -/
theorem trans {s t u : State} {first second : List Label} (run : Run step permitted s first t)
    (rest : Run step permitted t second u) : Run step permitted s (first ++ second) u := by
  -- The second run is followed step by step behind the first.
  induction rest with
  | start => simpa using run
  | next _ allowed stepped ih => simpa using ih.next allowed stepped

/-- A run may be built from its first step on. -/
theorem cons {s t u : State} {label : Label} {labels : List Label} (allowed : permitted s label)
    (stepped : step s label = some t) (rest : Run step permitted t labels u) :
    Run step permitted s (label :: labels) u :=
  ((start s).next allowed stepped).trans rest

/-- Executing labels from a state gives a run from that state. -/
theorem of_execute [∀ s label, Decidable (permitted s label)] {s t : State} {labels : List Label}
    (ran : execute step permitted s labels = some t) : Run step permitted s labels t := by
  -- The labels are peeled off from the front, as the execution does.
  induction labels generalizing s with
  | nil =>
    simp only [execute, Option.some.injEq] at ran
    subst ran
    exact .start s
  | cons label rest ih =>
    simp only [execute] at ran
    split at ran
    · rename_i allowed
      obtain ⟨middle, stepped, ran⟩ := Option.bind_eq_some_iff.mp ran
      -- The first step is put before the run of the others.
      exact cons allowed stepped (ih ran)
    · cases ran

/-- Executing one more label continues the execution of the others. -/
theorem execute_snoc [∀ s label, Decidable (permitted s label)] {s t u : State} {label : Label}
    {labels : List Label} (ran : execute step permitted s labels = some t)
    (allowed : permitted t label) (stepped : step t label = some u) :
    execute step permitted s (labels ++ [label]) = some u := by
  -- The induction goes over the labels that come before the new one.
  induction labels generalizing s with
  | nil =>
    obtain rfl := Option.some.inj ran
    simp [execute, allowed, stepped]
  | cons first rest ih =>
    simp only [execute] at ran
    split at ran
    · rename_i begins
      obtain ⟨middle, moved, ran⟩ := Option.bind_eq_some_iff.mp ran
      simp only [List.cons_append, execute, if_pos begins, moved, Option.bind_some]
      exact ih ran
    · cases ran

/-- Every run is found by executing its labels. -/
theorem execute_eq [∀ s label, Decidable (permitted s label)] {s t : State} {labels : List Label}
    (run : Run step permitted s labels t) : execute step permitted s labels = some t := by
  -- The run grows at its end, and so does the execution.
  induction run with
  | start => rfl
  | next _ allowed stepped ih => exact execute_snoc ih allowed stepped

/-- The last step of a run starts in a state that the run has reached before. -/
theorem last {s u : State} {labels : List Label} {label : Label}
    (run : Run step permitted s (labels ++ [label]) u) :
    ∃ t, Run step permitted s labels t ∧ permitted t label ∧ step t label = some u := by
  -- The labels are generalised first, since a run is only analysed by its own labels.
  generalize shape : labels ++ [label] = all at run
  cases run with
  | start => simp at shape
  | next run allowed stepped =>
    obtain ⟨rfl, same⟩ := List.append_inj' shape rfl
    obtain rfl := List.singleton_inj.mp same
    exact ⟨_, run, allowed, stepped⟩

/-- What only certain steps bring about goes back to one of them. -/
theorem exists_cause (holds : State → Prop) (causes : State → Label → Prop) {s t : State}
    {labels : List Label} (run : Run step permitted s labels t) (initial : ¬ holds s)
    (one : ∀ labels t label u, Run step permitted s labels t → permitted t label →
      step t label = some u → holds u → holds t ∨ causes t label) (final : holds t) :
    ∃ first label later u v, labels = first ++ label :: later ∧
      Run step permitted s first u ∧ permitted u label ∧ causes u label ∧
      step u label = some v ∧ Run step permitted v later t := by
  -- The last step is such a step, or the state before it goes back to one.
  induction run with
  | start => exact absurd final initial
  | @next t u labels label run allowed stepped ih =>
    rcases one labels t label u run allowed stepped final with earlier | caused
    · obtain ⟨first, cause, later, before, after, rfl, path, permits, caused, moved, rest⟩ :=
        ih earlier
      exact ⟨first, cause, later ++ [label], before, after, by simp, path, permits, caused, moved,
        rest.next allowed stepped⟩
    · exact ⟨labels, label, [], t, u, rfl, run, allowed, caused, stepped, .start u⟩

/-- What can follow every permitted step follows every run of them. -/
theorem simulate {Other : Type*} {follow : Other → Label → Option Other}
    {related : State → Other → Prop} {s t : State} {o : Other} {labels : List Label}
    (run : Run step permitted s labels t) (initial : related s o)
    (one : ∀ t o label u, related t o → permitted t label → step t label = some u →
      ∃ p, follow o label = some p ∧ related u p) :
    ∃ p, Run follow (fun _ _ => True) o labels p ∧ related t p := by
  -- The follower has reached a related state before the last step, and takes it as well.
  induction run with
  | start => exact ⟨o, .start o, initial⟩
  | next _ allowed stepped ih =>
    obtain ⟨p, behind, here⟩ := ih
    obtain ⟨q, followed, there⟩ := one _ p _ _ here allowed stepped
    exact ⟨q, behind.next trivial followed, there⟩

end Run

end SimpleSrv
