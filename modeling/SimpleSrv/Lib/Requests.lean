import SimpleSrv.Lib.Run

/-! Requests that are served one after the other, where none stands in the way of another. -/

namespace SimpleSrv

variable {State Label : Type*}

/-- What can be served does not depend on what has been served before. -/
structure Independent (step : State → Label → Option State) (holds : State → Prop)
    (can : State → Label → Prop) : Prop where
  able : ∀ s label, holds s → ((∃ t, step s label = some t) ↔ can s label)
  kept : ∀ s label t, holds s → step s label = some t → holds t
  same : ∀ s label t, holds s → step s label = some t → ∀ other, can t other ↔ can s other

/-- All requests are served exactly if each of them could be the first. -/
theorem Independent.execute_iff {step : State → Label → Option State} {holds : State → Prop}
    {can : State → Label → Prop} {s : State} (independent : Independent step holds can)
    (here : holds s) (labels : List Label) :
    (∃ t, execute step (fun _ _ => True) s labels = some t) ↔ ∀ label ∈ labels, can s label := by
  -- By induction on the requests, the first of which changes nothing for the others.
  induction labels generalizing s with
  | nil => simp [execute]
  | cons first rest ih =>
    have able := independent.able s first here
    simp only [execute, if_true, List.forall_mem_cons]
    cases stepped : step s first with
    | none => simp [← able, stepped]
    | some middle =>
      have others := ih (independent.kept s first middle here stepped)
      have same := independent.same s first middle here stepped
      simp only [same] at others
      simp [← able, stepped, others]

end SimpleSrv
