import SimpleSrv.Lib.Run

/-! Systems that take in items one after another and pass them on, with or without a loss. -/

namespace SimpleSrv

variable {State Label α : Type*}

/-- A step takes in some items, and of these and the earlier ones it keeps the order. -/
structure Conveys (step : State → Label → Option State) (permitted : State → Label → Prop)
    (fed kept : State → List α) (lossless : State → Label → Prop) : Prop where
  one : ∀ s label t, permitted s label → step s label = some t → ∃ items,
    fed t = fed s ++ items ∧ (kept t).Sublist (kept s ++ items) ∧
      ((kept t).length = (kept s).length + items.length ↔ lossless s label)

namespace Conveys

variable {step : State → Label → Option State} {permitted : State → Label → Prop}
  {fed kept : State → List α} {lossless : State → Label → Prop} {s t : State}
  {labels : List Label}

/-- A run makes up no item, repeats none and exchanges no two. -/
theorem sublist (conveys : Conveys step permitted fed kept lossless)
    (start : (kept s).Sublist (fed s)) (run : Run step permitted s labels t) :
    (kept t).Sublist (fed t) := by
  -- The last step adds items at the end, and what it leaves out only shortens the list.
  induction run with
  | start => exact start
  | next _ allowed stepped ih =>
    obtain ⟨items, more, sublist, _⟩ := conveys.one _ _ _ allowed stepped
    rw [more]
    exact sublist.trans (ih.append (.refl items))

end Conveys

end SimpleSrv
