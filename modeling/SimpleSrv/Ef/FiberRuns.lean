import SimpleSrv.Lib.Log
import SimpleSrv.Lib.Run
import SimpleSrv.Ef.FiberLaws

/-! Over any run of the scheduler, resumes and yields answer each other like calls and returns. -/

namespace SimpleSrv.Ef

namespace FiberEvent

/-- The fiber that caused the event. -/
def actor : FiberEvent → Ptr
  | .inited actor _ _ _ | .refused actor _ _ | .resumed actor _ _ _ | .yielded actor _ _
  | .exited actor _ _ => actor

/-- The value and the arrival of an event by which its actor stops, on a yield or an exit. -/
def leaving : FiberEvent → Option (Ptr × Int × Arrival)
  | .yielded actor value arrival | .exited actor value arrival => some (actor, value, arrival)
  | .inited _ _ _ _ | .refused _ _ _ | .resumed _ _ _ _ => none

/-- The fiber stops running. -/
def Leaves (event : FiberEvent) (fiber : Ptr) : Prop :=
  ∃ value arrival, event.leaving = some (fiber, value, arrival)

/-- The event gives the fiber a new frame. -/
def Inits (fiber : Ptr) : FiberEvent → Prop
  | .inited _ other _ _ => other = fiber
  | .refused _ _ _ | .resumed _ _ _ _ | .yielded _ _ _ | .exited _ _ _ => False

/-- The fiber causes the event or is made to go on by it. -/
def Runs (fiber : Ptr) : FiberEvent → Prop
  | .resumed actor target _ _ => actor = fiber ∨ target = fiber
  | .inited actor _ _ _ | .refused actor _ _ | .yielded actor _ _ | .exited actor _ _ =>
    actor = fiber

/-- The event makes the fiber go on, or gives it a new frame. -/
def Starts (fiber : Ptr) : FiberEvent → Prop
  | .inited _ other _ _ | .resumed _ other _ _ => other = fiber
  | .refused _ _ _ | .yielded _ _ _ | .exited _ _ _ => False

/-- The point at which an event with this number leaves a fiber waiting. -/
def suspends (number : Nat) : FiberEvent → Option (Ptr × Point)
  | .yielded actor _ _ => some (actor, .yielding number)
  | .inited _ fiber proc param => some (fiber, .entry proc (if param ≠ 0 then param else fiber))
  | .refused _ _ _ | .resumed _ _ _ _ | .exited _ _ _ => none

end FiberEvent

/-- The fibers from the current one to the system thread, each the child of the next. -/
def IsChain (s : Sched) : List Ptr → Prop
  | [] => False
  | [fiber] => fiber = s.threadFiber
  | fiber :: parent :: rest => (s.fibers fiber).parent = parent ∧ IsChain s (parent :: rest)

/--
The first yield or exit of a resumed fiber returns to the fiber that issued the resume.

It returns from that very call, with the value that was sent, and with the issuer current again.
Until then the issuer does nothing.
-/
def ReturnsMatch (log : List FiberEvent) : Prop :=
  ∀ before between after actor target sndval arrival leave value back,
    log = before ++ .resumed actor target sndval arrival :: (between ++ leave :: after) →
    (∀ event ∈ between, ¬ event.Leaves target) → leave.leaving = some (target, value, back) →
    back = ⟨actor, .resuming before.length target, value, actor⟩ ∧
      ∀ event ∈ between, event.actor ≠ actor

/-- The next resume of a waiting fiber delivers its value to exactly the point that waits. -/
def ResumesMatch (log : List FiberEvent) : Prop :=
  ∀ before between after actor fiber sndval arrival suspend point,
    log = before ++ suspend :: (between ++ .resumed actor fiber sndval arrival :: after) →
    suspend.suspends before.length = some (fiber, point) →
    (∀ event ∈ between, ¬ event.Starts fiber) → arrival = ⟨fiber, point, sndval, fiber⟩

/-- A fiber that has exited is resumed, and acts, only after it has been initialised again. -/
def ExitsFinal (log : List FiberEvent) : Prop :=
  ∀ before between after fiber retval back event,
    log = before ++ .exited fiber retval back :: (between ++ event :: after) →
    event.Runs fiber → ∃ init ∈ between, init.Inits fiber

/-- One operation of a disciplined caller: what is logged, and the scheduler and chain after it. -/
inductive FiberMove (s : Sched) (number : Nat) (chain : List Ptr) :
    FiberEvent → Sched → List Ptr → Prop
  | init {fiber proc param : Ptr} (off : fiber ∉ chain) :
      FiberMove s number chain (.inited s.currentFiber fiber proc param)
        (efFiberInit s fiber proc param) chain
  | refuse {target : Ptr} {code : Int}
      (unusable : (s.fibers target).status ≠ fiberStatusInited) :
      FiberMove s number chain (.refused s.currentFiber target code) s chain
  | resume {target : Ptr} {sndval : Int} {point : Point}
      (usable : (s.fibers target).status = fiberStatusInited) (off : target ∉ chain)
      (saved : (s.fibers target).stackPtr = some ⟨target, point⟩) :
      FiberMove s number chain
        (.resumed s.currentFiber target sndval ⟨target, point, sndval, target⟩)
        (s.entered target number) (target :: chain)
  | yield {sndval : Int} {parent : Ptr} {rest : List Ptr} {call : Nat}
      (shape : chain = s.currentFiber :: parent :: rest)
      (up : (s.fibers s.currentFiber).parent = parent)
      (saved : (s.fibers parent).stackPtr = some ⟨parent, .resuming call s.currentFiber⟩) :
      FiberMove s number chain
        (.yielded s.currentFiber sndval ⟨parent, .resuming call s.currentFiber, sndval, parent⟩)
        (s.left number) (parent :: rest)
  | exit {retval : Int} {parent : Ptr} {rest : List Ptr} {call : Nat}
      (shape : chain = s.currentFiber :: parent :: rest)
      (up : (s.fibers s.currentFiber).parent = parent)
      (saved : (s.fibers parent).stackPtr = some ⟨parent, .resuming call s.currentFiber⟩) :
      FiberMove s number chain
        (.exited s.currentFiber retval ⟨parent, .resuming call s.currentFiber, retval, parent⟩)
        s.ended (parent :: rest)

/-- Every disciplined operation has an effect, and it is one of the moves. -/
theorem fiberStep_move {m : Fibers} {chain : List Ptr} {op : FiberOp}
    (inv : SchedInv m.sched chain) (allowed : FiberDiscipline m op) :
    ∃ event s chain', fiberStep m op = some ⟨s, m.log ++ [event]⟩ ∧
      FiberMove m.sched m.log.length chain event s chain' := by
  -- The invariant says where every switch goes, and the discipline rules out the rest.
  cases op with
  | init fiber proc param =>
    have off := mt (inv.onChain_iff fiber).mpr allowed
    exact ⟨_, _, _, by rw [fiberStep, inv.running], .init off⟩
  | resume target sndval =>
    by_cases usable : (m.sched.fibers target).status = fiberStatusInited
    · have off := mt (inv.onChain_iff target).mpr (allowed usable)
      obtain ⟨point, saved, _, switched⟩ :=
        efFiberResume_switched inv usable off sndval m.log.length
      exact ⟨_, _, _, by rw [fiberStep, switched, inv.running]; rfl, .resume usable off saved⟩
    · have returned := efFiberResume_returned usable sndval m.log.length
      exact ⟨_, _, _, by rw [fiberStep, returned, inv.running]; rfl, .refuse usable⟩
  | yield sndval =>
    obtain ⟨parent, rest, call, shape, up, saved, switched⟩ :=
      efFiberYield_switched inv allowed sndval m.log.length
    exact ⟨_, _, _, by rw [fiberStep, switched, inv.running]; rfl, .yield shape up saved⟩
  | exit retval =>
    have nested : m.sched.currentFiber ≠ m.sched.threadFiber := inv.running ▸ allowed
    obtain ⟨parent, rest, call, shape, up, saved, switched⟩ :=
      efFiberExit_switched inv nested retval
    exact ⟨_, _, _, by rw [fiberStep, switched, inv.running]; rfl, .exit shape up saved⟩

namespace FiberMove

variable {s t : Sched} {number : Nat} {chain chain' : List Ptr} {event : FiberEvent}

/-- The chain invariant survives every move. -/
theorem schedInv (move : FiberMove s number chain event t chain') (inv : SchedInv s chain) :
    SchedInv t chain' := by
  -- Every constructor has its own law about the chain.
  cases move with
  | init off => exact inv.inited off _ _
  | refuse => exact inv
  | resume usable off => exact inv.entered usable off _
  | yield shape up =>
    subst shape
    exact inv.left up _
  | exit shape up =>
    subst shape
    exact inv.ended up

/-- Only the fiber on top of the chain acts. -/
theorem actor_current (move : FiberMove s number chain event t chain') :
    event.actor = s.currentFiber := by
  cases move <;> rfl

/-- The saved pointers below the top of the chain are left alone. -/
theorem saved_kept (move : FiberMove s number chain event t chain') {fiber : Ptr}
    (member : fiber ∈ chain) (below : fiber ≠ s.currentFiber) :
    (t.fibers fiber).stackPtr = (s.fibers fiber).stackPtr := by
  -- Each move writes to the saved pointer of one fiber: a fiber off the chain or the top one.
  cases move with
  | @init other _ _ off =>
    have apart : fiber ≠ other := fun same => off (same ▸ member)
    simp [efFiberInit, Sched.modify_fibers, apart]
  | refuse => rfl
  | @resume target _ _ _ off =>
    have apart : fiber ≠ target := fun same => off (same ▸ member)
    simp [Sched.entered, Sched.modify_fibers, apart, below]
  | yield => simp [Sched.left, Sched.modify_fibers, below]
  | exit => simp [Sched.ended, Sched.modify_fibers, below]

/-- A fiber off the chain that is not started stays off the chain and unchanged. -/
theorem idle_kept (move : FiberMove s number chain event t chain') (inv : SchedInv s chain)
    {fiber : Ptr} (off : fiber ∉ chain) (idle : ¬ event.Starts fiber) :
    fiber ∉ chain' ∧ t.fibers fiber = s.fibers fiber := by
  -- A fiber off the chain is not the current one, and a start would be the only way to touch it.
  have apart : fiber ≠ s.currentFiber := fun same => off (same ▸ inv.current_mem)
  cases move with
  | @init other _ _ _ =>
    have other : fiber ≠ other := fun same => idle same.symm
    exact ⟨off, by simp [efFiberInit, Sched.modify_fibers, other]⟩
  | refuse => exact ⟨off, rfl⟩
  | @resume target _ _ _ _ =>
    have other : fiber ≠ target := fun same => idle same.symm
    exact ⟨by simp [other, off], by simp [Sched.entered, Sched.modify_fibers, other, apart]⟩
  | yield shape =>
    subst shape
    exact ⟨fun member => off (List.mem_cons_of_mem _ member),
      by simp [Sched.left, Sched.modify_fibers, apart]⟩
  | exit shape =>
    subst shape
    exact ⟨fun member => off (List.mem_cons_of_mem _ member),
      by simp [Sched.ended, Sched.modify_fibers, apart]⟩

/-- Two neighbours on the chain stay neighbours until the upper one leaves. -/
theorem neighbours_kept (move : FiberMove s number chain event t chain') {target actor : Ptr}
    (shape : ∃ above below, chain = above ++ target :: actor :: below)
    (stays : ¬ event.Leaves target) :
    ∃ above below, chain' = above ++ target :: actor :: below := by
  -- Only a yield or an exit removes a fiber, and then it is the top one that leaves.
  have popped : ∀ {top : Ptr} {rest : List Ptr}, chain = top :: rest → target ≠ top →
      ∃ above below, rest = above ++ target :: actor :: below := by
    rintro top rest rfl other
    obtain ⟨above, below, shape⟩ := shape
    cases above with
    | nil =>
      simp only [List.nil_append, List.cons.injEq] at shape
      exact absurd shape.1.symm other
    | cons _ above =>
      simp only [List.cons_append, List.cons.injEq] at shape
      exact ⟨above, below, shape.2⟩
  cases move with
  | init => exact shape
  | refuse => exact shape
  | @resume top _ _ _ _ =>
    obtain ⟨above, below, shape⟩ := shape
    exact ⟨top :: above, below, by simp [shape]⟩
  | yield cut => exact popped cut fun same => stays ⟨_, _, by rw [same]; rfl⟩
  | exit cut => exact popped cut fun same => stays ⟨_, _, by rw [same]; rfl⟩

end FiberMove

/-- What the log says about the fibers that wait now. -/
structure LogInv (s : Sched) (chain : List Ptr) (log : List FiberEvent) : Prop where
  /-- A resumed fiber that has not left since stands right above the fiber that resumed it. -/
  pending : ∀ before between actor target sndval arrival,
    log = before ++ .resumed actor target sndval arrival :: between →
    (∀ event ∈ between, ¬ event.Leaves target) →
    (∃ above below, chain = above ++ target :: actor :: below) ∧
      (s.fibers actor).stackPtr = some ⟨actor, .resuming before.length target⟩ ∧
      ∀ event ∈ between, event.actor ≠ actor
  /-- A suspended fiber that has not been started since waits where it was suspended. -/
  waiting : ∀ before between suspend fiber point,
    log = before ++ suspend :: between → suspend.suspends before.length = some (fiber, point) →
    (∀ event ∈ between, ¬ event.Starts fiber) →
    fiber ∉ chain ∧ (s.fibers fiber).stackPtr = some ⟨fiber, point⟩
  /-- An exited fiber that has not been initialised since is still exited. -/
  finished : ∀ before between fiber retval back,
    log = before ++ .exited fiber retval back :: between →
    (∀ event ∈ between, ¬ event.Inits fiber) →
    fiber ∉ chain ∧ (s.fibers fiber).status = fiberStatusExited

/-- The lower of two neighbours on a chain is not its top. -/
private theorem SchedInv.lower_ne_current {s : Sched} {chain : List Ptr} (inv : SchedInv s chain)
    {target actor : Ptr} (shape : ∃ above below, chain = above ++ target :: actor :: below) :
    actor ∈ chain ∧ actor ≠ s.currentFiber := by
  obtain ⟨above, below, rfl⟩ := shape
  refine ⟨by simp, ?_⟩
  have head := inv.head
  have nodup := inv.nodup
  rintro rfl
  cases above with
  | nil =>
    simp only [List.nil_append, List.head?_cons, Option.some.injEq] at head
    simp [head] at nodup
  | cons top above =>
    simp only [List.cons_append, List.head?_cons, Option.some.injEq] at head
    simp [head] at nodup

/-- Calls that were pending stay pending over a move, and an accepted resume adds one. -/
private theorem FiberMove.pending {s t : Sched} {chain chain' : List Ptr} {log : List FiberEvent}
    {event : FiberEvent} (move : FiberMove s log.length chain event t chain')
    (inv : SchedInv s chain) (logged : LogInv s chain log)
    {before between : List FiberEvent} {actor target : Ptr} {sndval : Int} {arrival : Arrival}
    (same : log ++ [event] = before ++ .resumed actor target sndval arrival :: between)
    (stays : ∀ event ∈ between, ¬ event.Leaves target) :
    (∃ above below, chain' = above ++ target :: actor :: below) ∧
      (t.fibers actor).stackPtr = some ⟨actor, .resuming before.length target⟩ ∧
      ∀ event ∈ between, event.actor ≠ actor := by
  rcases append_cons_of_snoc same with ⟨rfl, new, rfl⟩ | ⟨older, rfl, inside⟩
  · -- The call was made just now, so its issuer is the fiber that was on top.
    subst new
    cases move with
    | resume usable off saved =>
      have head := inv.head
      cases chain with
      | nil => simp at head
      | cons first rest =>
        simp only [List.head?_cons, Option.some.injEq] at head
        subst head
        refine ⟨⟨[], rest, rfl⟩, ?_, by simp⟩
        simp [Sched.entered, Sched.modify_fibers, inv.running]
  · obtain ⟨shape, saved, silent⟩ := logged.pending _ _ _ _ _ _ inside
      fun event member => stays event (by simp [member])
    obtain ⟨member, below⟩ := inv.lower_ne_current shape
    -- The issuer of an older call is below the top, so it neither acts nor loses its saved pointer.
    refine ⟨move.neighbours_kept shape (stays event (by simp)), ?_, ?_⟩
    · rw [move.saved_kept member below, saved]
    · intro other among
      rcases List.mem_append.mp among with among | among
      · exact silent other among
      · rw [List.mem_singleton.mp among, move.actor_current]
        exact below.symm

/-- Fibers that were waiting go on waiting over a move, and a yield or a new frame adds one. -/
private theorem FiberMove.waiting {s t : Sched} {chain chain' : List Ptr} {log : List FiberEvent}
    {event : FiberEvent} (move : FiberMove s log.length chain event t chain')
    (inv : SchedInv s chain) (logged : LogInv s chain log)
    {before between : List FiberEvent} {suspend : FiberEvent} {fiber : Ptr} {point : Point}
    (same : log ++ [event] = before ++ suspend :: between)
    (suspends : suspend.suspends before.length = some (fiber, point))
    (idle : ∀ event ∈ between, ¬ event.Starts fiber) :
    fiber ∉ chain' ∧ (t.fibers fiber).stackPtr = some ⟨fiber, point⟩ := by
  rcases append_cons_of_snoc same with ⟨rfl, rfl, rfl⟩ | ⟨older, rfl, inside⟩
  · -- Only a new frame and a yield leave a fiber waiting.
    cases move with
    | init off =>
      simp only [FiberEvent.suspends, Option.some.injEq, Prod.mk.injEq] at suspends
      obtain ⟨rfl, rfl⟩ := suspends
      exact ⟨off, by simp [efFiberInit, Sched.modify_fibers]⟩
    | refuse => simp [FiberEvent.suspends] at suspends
    | resume => simp [FiberEvent.suspends] at suspends
    | yield shape =>
      simp only [FiberEvent.suspends, Option.some.injEq, Prod.mk.injEq] at suspends
      obtain ⟨rfl, rfl⟩ := suspends
      have nodup := inv.nodup
      rw [shape] at nodup
      exact ⟨(List.nodup_cons.mp nodup).1, by simp [Sched.left, Sched.modify_fibers, inv.running]⟩
    | exit => simp [FiberEvent.suspends] at suspends
  · obtain ⟨off, saved⟩ := logged.waiting _ _ _ _ _ inside suspends
      fun event member => idle event (by simp [member])
    -- A fiber that waited before has not been started by this move either.
    obtain ⟨off', kept⟩ := move.idle_kept inv off (idle event (by simp))
    exact ⟨off', by rw [kept, saved]⟩

/-- Exited fibers stay exited over a move that does not initialise them. -/
private theorem FiberMove.finished {s t : Sched} {chain chain' : List Ptr} {log : List FiberEvent}
    {event : FiberEvent} (move : FiberMove s log.length chain event t chain')
    (inv : SchedInv s chain) (logged : LogInv s chain log)
    {before between : List FiberEvent} {fiber : Ptr} {retval : Int} {back : Arrival}
    (same : log ++ [event] = before ++ .exited fiber retval back :: between)
    (uninited : ∀ event ∈ between, ¬ event.Inits fiber) :
    fiber ∉ chain' ∧ (t.fibers fiber).status = fiberStatusExited := by
  rcases append_cons_of_snoc same with ⟨rfl, new, rfl⟩ | ⟨older, rfl, inside⟩
  · -- The fiber exits just now, from the top of the chain.
    subst new
    cases move with
    | exit shape =>
      have nodup := inv.nodup
      rw [shape] at nodup
      exact ⟨(List.nodup_cons.mp nodup).1, by simp [Sched.ended, Sched.modify_fibers]⟩
  · obtain ⟨off, exited⟩ := logged.finished _ _ _ _ _ inside
      fun event member => uninited event (by simp [member])
    have idle : ¬ event.Starts fiber := by
      have untouched := uninited event (by simp)
      cases move with
      | init => exact untouched
      | refuse => exact id
      | resume usable =>
        -- An accepted resume finds its target initialised, which an exited fiber is not.
        rintro rfl
        rw [usable] at exited
        exact absurd exited (by decide)
      | yield => exact id
      | exit => exact id
    obtain ⟨off', kept⟩ := move.idle_kept inv off idle
    exact ⟨off', by rw [kept, exited]⟩

/-- What the log says stays true over every move. -/
theorem FiberMove.logInv {s t : Sched} {chain chain' : List Ptr} {log : List FiberEvent}
    {event : FiberEvent} (move : FiberMove s log.length chain event t chain')
    (inv : SchedInv s chain) (logged : LogInv s chain log) : LogInv t chain' (log ++ [event]) where
  pending _ _ _ _ _ _ same stays := move.pending inv logged same stays
  waiting _ _ _ _ _ same suspends idle := move.waiting inv logged same suspends idle
  finished _ _ _ _ _ same uninited := move.finished inv logged same uninited

/-- A move that takes a fiber off the chain answers the call that had put it there. -/
theorem FiberMove.returnsMatch {s t : Sched} {chain chain' : List Ptr} {log : List FiberEvent}
    {event : FiberEvent} (move : FiberMove s log.length chain event t chain')
    (inv : SchedInv s chain) (logged : LogInv s chain log) (matched : ReturnsMatch log) :
    ReturnsMatch (log ++ [event]) := by
  intro before between after actor target sndval arrival leave value back same stays leaves
  rcases append_cons_cons_of_snoc same with ⟨rfl, rfl, inside⟩ | ⟨older, rfl, inside⟩
  · obtain ⟨⟨above, below, shape⟩, saved, silent⟩ := logged.pending _ _ _ _ _ _ inside stays
    refine ⟨?_, silent⟩
    -- The fiber that leaves is on top, so the fiber below it is the one that issued the call.
    have top : ∀ {parent : Ptr} {rest : List Ptr}, chain = s.currentFiber :: parent :: rest →
        s.currentFiber = target → parent = actor := by
      rintro parent rest cut rfl
      have nodup := inv.nodup
      rw [shape] at cut nodup
      cases above with
      | nil => simp only [List.nil_append, List.cons.injEq] at cut; exact cut.2.1.symm
      | cons first above =>
        simp only [List.cons_append, List.cons.injEq] at cut
        simp [cut.1] at nodup
    cases move with
    | init => simp [FiberEvent.leaving] at leaves
    | refuse => simp [FiberEvent.leaving] at leaves
    | resume => simp [FiberEvent.leaving] at leaves
    | yield cut up below =>
      simp only [FiberEvent.leaving, Option.some.injEq, Prod.mk.injEq] at leaves
      obtain ⟨same, rfl, rfl⟩ := leaves
      have parent := top cut same
      subst parent
      rw [saved, Option.some.injEq, Context.mk.injEq] at below
      rw [← below.2]
    | exit cut up below =>
      simp only [FiberEvent.leaving, Option.some.injEq, Prod.mk.injEq] at leaves
      obtain ⟨same, rfl, rfl⟩ := leaves
      have parent := top cut same
      subst parent
      rw [saved, Option.some.injEq, Context.mk.injEq] at below
      rw [← below.2]
  · exact matched _ _ _ _ _ _ _ _ _ _ inside stays leaves

/-- An accepted resume delivers its value where its target waits. -/
theorem FiberMove.resumesMatch {s t : Sched} {chain chain' : List Ptr} {log : List FiberEvent}
    {event : FiberEvent} (move : FiberMove s log.length chain event t chain')
    (logged : LogInv s chain log) (matched : ResumesMatch log) : ResumesMatch (log ++ [event]) := by
  intro before between after actor fiber sndval arrival suspend point same suspends idle
  rcases append_cons_cons_of_snoc same with ⟨new, rfl, inside⟩ | ⟨older, rfl, inside⟩
  · subst new
    -- The log says where the target waits, and the move goes exactly there.
    obtain ⟨_, waits⟩ := logged.waiting _ _ _ _ _ inside suspends idle
    cases move with
    | resume usable off saved =>
      rw [waits, Option.some.injEq, Context.mk.injEq] at saved
      rw [saved.2]
  · exact matched _ _ _ _ _ _ _ _ _ inside suspends idle

/-- The running fiber and the target of an accepted resume have not exited for good. -/
theorem FiberMove.exitsFinal {s t : Sched} {chain chain' : List Ptr} {log : List FiberEvent}
    {event : FiberEvent} (move : FiberMove s log.length chain event t chain')
    (inv : SchedInv s chain) (logged : LogInv s chain log) (final : ExitsFinal log) :
    ExitsFinal (log ++ [event]) := by
  intro before between after fiber retval back last same runs
  rcases append_cons_cons_of_snoc same with ⟨rfl, rfl, inside⟩ | ⟨older, rfl, inside⟩
  · -- The new event is the one in question, so the log still calls the fiber exited.
    by_contra uninited
    obtain ⟨off, exited⟩ := logged.finished _ _ _ _ _ inside
      fun init member inits => uninited ⟨init, member, inits⟩
    -- The fiber is off the chain, so it is not the one that acts.
    have idle : s.currentFiber ≠ fiber := fun same => off (same ▸ inv.current_mem)
    cases move with
    | init => exact idle runs
    | refuse => exact idle runs
    | resume usable =>
      rcases runs with acts | rfl
      · exact idle acts
      · rw [usable] at exited
        exact absurd exited (by decide)
    | yield => exact idle runs
    | exit => exact idle runs
  · exact final _ _ _ _ _ _ _ inside runs

/-- A linked chain is a chain of parents. -/
theorem Linked.isChain {s : Sched} {chain : List Ptr} (linked : Linked s chain) :
    IsChain s chain := by
  -- The links contain the parents.
  induction chain with
  | nil => exact linked
  | cons fiber rest ih =>
    cases rest with
    | nil => exact linked
    | cons parent rest => exact ⟨linked.2.1, ih linked.2.2.2⟩

/-- Everything that holds in the course of a disciplined run. -/
structure FiberRunInv (m : Fibers) : Prop where
  chained : ∃ chain, SchedInv m.sched chain ∧ LogInv m.sched chain m.log
  returns : ReturnsMatch m.log
  resumes : ResumesMatch m.log
  exits : ExitsFinal m.log

/-- One disciplined operation preserves the run invariant. -/
theorem FiberRunInv.step {m after : Fibers} {op : FiberOp} (inv : FiberRunInv m)
    (allowed : FiberDiscipline m op) (stepped : fiberStep m op = some after) :
    FiberRunInv after := by
  -- The move decides the next chain, and the parts of the invariant follow it.
  obtain ⟨chain, sched, logged⟩ := inv.chained
  obtain ⟨event, s, chain', effect, move⟩ := fiberStep_move sched allowed
  rw [effect, Option.some.injEq] at stepped
  subst stepped
  exact ⟨⟨chain', move.schedInv sched, move.logInv sched logged⟩,
    move.returnsMatch sched logged inv.returns, move.resumesMatch logged inv.resumes,
    move.exitsFinal sched logged inv.exits⟩

/-- A scheduler on which nothing has happened yet satisfies the run invariant. -/
theorem FiberRunInv.initial {threadFiber : Ptr} {memory : Ptr → Fiber}
    (unused : ∀ fiber, fiber ≠ threadFiber → (memory fiber).status ≠ fiberStatusInited) :
    FiberRunInv ⟨efFiberInitSched threadFiber memory, []⟩ := by
  -- An empty log has no event that one of the statements could be about.
  refine ⟨⟨[threadFiber], .initial unused, ⟨?_, ?_, ?_⟩⟩, ?_, ?_, ?_⟩
  · intro _ _ _ _ _ _ same
    simp at same
  · intro _ _ _ _ _ same
    simp at same
  · intro _ _ _ _ _ same
    simp at same
  · intro _ _ _ _ _ _ _ _ _ _ same
    simp at same
  · intro _ _ _ _ _ _ _ _ _ same
    simp at same
  · intro _ _ _ _ _ _ _ same
    simp at same

/--
The resume and yield discipline of the fiber scheduler, over every run of disciplined operations.

The chain of parents is finite, without repetition, and ends at the system thread.
Resumes and yields answer each other as calls and returns do, and exited fibers stay exited.
No disciplined operation runs into a stack pointer that was never saved.
-/
theorem fiber_discipline {threadFiber : Ptr} {memory : Ptr → Fiber} {ops : List FiberOp}
    {m : Fibers}
    (unused : ∀ fiber, fiber ≠ threadFiber → (memory fiber).status ≠ fiberStatusInited)
    (run : Run fiberStep FiberDiscipline ⟨efFiberInitSched threadFiber memory, []⟩ ops m) :
    (∃ chain, chain.head? = some m.sched.currentFiber ∧ IsChain m.sched chain ∧ chain.Nodup) ∧
      m.sched.running = m.sched.currentFiber ∧
      ReturnsMatch m.log ∧ ResumesMatch m.log ∧ ExitsFinal m.log ∧
      (∀ target sndval, (m.sched.fibers target).status = fiberStatusExited →
        fiberStep m (.resume target sndval) = some
          { m with log := m.log ++ [.refused m.sched.currentFiber target errorFiberExited] }) ∧
      ∀ op, FiberDiscipline m op → ∃ after, fiberStep m op = some after := by
  -- The invariant of runs carries everything, and the chain of the last state is read off it.
  have inv := run.invariant (FiberRunInv.initial unused) fun _ _ _ inv allowed stepped =>
    inv.step allowed stepped
  obtain ⟨chain, sched, _⟩ := inv.chained
  refine ⟨⟨chain, sched.head, sched.linked.isChain, sched.nodup⟩, sched.running, inv.returns,
    inv.resumes, inv.exits, ?_, ?_⟩
  · -- An exited fiber is refused whoever asks for it.
    intro target sndval exited
    have unusable : (m.sched.fibers target).status ≠ fiberStatusInited := by
      rw [exited]
      decide
    have returned := efFiberResume_returned unusable sndval m.log.length
    rw [if_pos exited] at returned
    rw [fiberStep, returned, sched.running]
    rfl
  · -- The moves also show that the operation has a result.
    intro op allowed
    obtain ⟨event, s, _, effect, _⟩ := fiberStep_move sched allowed
    exact ⟨_, effect⟩

/-- Whoever is reached through parents stands on every list that is a chain of parents. -/
theorem IsChain.mem_of_onChain {s : Sched} {chain : List Ptr} (chained : IsChain s chain)
    (head : chain.head? = some s.currentFiber) {fiber : Ptr} (reached : OnChain s fiber) :
    fiber ∈ chain := by
  -- Only the last fiber of the list has no successor on it, and that one is the system thread.
  have up : ∀ {chain : List Ptr}, IsChain s chain → ∀ fiber ∈ chain, fiber ≠ s.threadFiber →
      (s.fibers fiber).parent ∈ chain := by
    intro chain
    induction chain with
    | nil => simp
    | cons first rest ih =>
      intro chained fiber member mapped
      cases rest with
      | nil =>
        rw [List.mem_singleton] at member
        exact absurd (member.trans chained) mapped
      | cons parent rest =>
        rcases List.mem_cons.mp member with rfl | member
        · rw [chained.1]
          simp
        · exact List.mem_cons_of_mem _ (ih chained.2 fiber member mapped)
  induction reached with
  | current => exact List.mem_of_mem_head? head
  | parent _ mapped ih => exact up chained _ ih mapped

/-- A fiber is created at address 2, resumed, yields 9, is resumed with 5, and returns 3. -/
theorem fiber_discipline_two_turns :
    let memory : Ptr → Fiber := fun _ => ⟨0, 0, none⟩
    ∃ m, Run fiberStep FiberDiscipline ⟨efFiberInitSched 1 memory, []⟩
        [.init 2 40 0, .resume 2 7, .yield 9, .resume 2 5, .exit 3] m ∧
      m.log.getLast? = some (.exited 2 3 ⟨1, .resuming 3 2, 3, 1⟩) ∧ ReturnsMatch m.log := by
  -- Whenever the thread runs alone, the fiber at address 2 is off the chain.
  intro memory
  have off : ∀ {s : Sched}, s.currentFiber = 1 → s.threadFiber = 1 → ¬ OnChain s 2 := by
    intro s current thread reached
    have chained : IsChain s [1] := thread.symm
    have member := chained.mem_of_onChain (by simp [current]) reached
    simp at member
  have mapped : (2 : Ptr) ≠ 1 := by decide
  have run : Run fiberStep FiberDiscipline ⟨efFiberInitSched 1 memory, []⟩
      [.init 2 40 0, .resume 2 7, .yield 9, .resume 2 5, .exit 3] _ :=
    .cons (off rfl rfl) rfl <| .cons (fun _ => off rfl rfl) rfl <|
      .cons mapped rfl <| .cons (fun _ => off rfl rfl) rfl <| .cons mapped rfl <| .start _
  exact ⟨_, run, rfl, (fiber_discipline (fun _ _ => by decide) run).2.2.1⟩

end SimpleSrv.Ef
