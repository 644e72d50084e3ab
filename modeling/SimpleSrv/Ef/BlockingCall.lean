import SimpleSrv.Ef.Routine

/-! The calls of a coroutine from their start to their return, with every step that they make. -/

namespace SimpleSrv.Ef

/-- What a coroutine finds when its yield returns. -/
structure Wake where
  /-- The descriptors and the interest set, which others may have changed by then. -/
  kernel : Kernel
  events : Nat
  /-- What the transfer would answer that may follow. -/
  answer : Answer

/-- What a call does on the way to its return. -/
inductive CallStep where
  | associate (fd : Fd) (entry : Registration) (answer : Answer)
  | yield (wake : Wake)
  | transfer (fd : Fd) (answer : Answer)
  | unset (fd : Fd) (events : Nat)
  | dissociate (fd : Fd)

/-- What a step leaves of the interest set. -/
def CallStep.replay (k : Kernel) : CallStep → Kernel
  | .associate fd entry answer => if answer.value < 0 then k else k.register fd entry
  | .yield wake => wake.kernel
  | .transfer _ _ => k
  | .unset fd events => (efEpollUnset k fd events).1
  | .dissociate fd => (efEpollDissociate k fd true false).1

/-- The transfer that a step makes, if it makes one. -/
def CallStep.answer? : CallStep → Option Answer
  | .transfer _ answer => some answer
  | .associate _ _ _ | .yield _ | .unset _ _ | .dissociate _ => none

/-- The descriptor whose registration a step ends, if it ends one. -/
def CallStep.dissociated? : CallStep → Option Fd
  | .dissociate fd => some fd
  | .associate _ _ _ | .yield _ | .transfer _ _ | .unset _ _ => none

/-- The wake-up by which a step ends, if it is a yield. -/
def CallStep.wake? : CallStep → Option Wake
  | .yield wake => some wake
  | .associate _ _ _ | .transfer _ _ | .unset _ _ | .dissociate _ => none

/-- A call with the steps that it has made, and its answer unless it still waits. -/
@[ext]
structure CallResult where
  steps : List CallStep
  kernel : Kernel
  answer : Option Answer

namespace RoutineIo

/-- The steps from the label `ready` on, up to the next yield or the return. -/
def transferSteps (io : RoutineIo) (fd : Fd) (answer : Answer) : List CallStep :=
  .transfer fd answer ::
    if io.narrow answer.value < 0 ∧ answer.errno = eagain then [.unset fd io.unset]
    else [.dissociate fd]

/-- The steps from a yield on, which has returned these events. -/
def wokenSteps (io : RoutineIo) (fd : Fd) (events : Nat) (answer : Answer) : List CallStep :=
  if events &&& io.failing ≠ 0 then [.dissociate fd]
  else if events &&& io.ready ≠ 0 then io.transferSteps fd answer
  else [.dissociate fd]

/-- The steps from the start of a call on. -/
def startSteps (io : RoutineIo) (k : Kernel) (er : Ptr) (fd : Fd) (ticket : Nat)
    (refusal : Option Int) (answer : Answer) : List CallStep :=
  let added := (efEpollAssociate k fd io.interest (.routine er) false ticket refusal).2
  .associate fd ⟨io.interest, .routine er, ticket⟩ added ::
    if added.value > 0 then io.transferSteps fd answer else []

/-- A call from one of its yields on, or behind its return. -/
def goOn (io : RoutineIo) (fd : Fd) : Kernel × Outcome → List Wake → CallResult
  | (k, .returned answer), _ => ⟨[], k, some answer⟩
  | (k, .waiting _), [] => ⟨[], k, none⟩
  | (_, .waiting retval), wake :: wakes =>
    let rest := io.goOn fd (io.woken wake.kernel fd retval wake.events wake.answer) wakes
    { rest with
      steps := .yield wake :: io.wokenSteps fd wake.events wake.answer ++ rest.steps }

/-- A whole call, with as many of these wake-ups as it needs. -/
def call (io : RoutineIo) (k : Kernel) (er : Ptr) (fd : Fd) (ticket : Nat) (refusal : Option Int)
    (answer : Answer) (wakes : List Wake) : CallResult :=
  let rest := io.goOn fd (io.start k er fd ticket refusal answer) wakes
  { rest with steps := io.startSteps k er fd ticket refusal answer ++ rest.steps }

end RoutineIo

/-- The kernel adds the descriptor to the interest set. -/
def Kernel.Accepts (k : Kernel) (fd : Fd) (refusal : Option Int) : Prop :=
  k.owner fd ≠ none ∧ k.interest fd = none ∧ refusal = none

/-- The kernel adds an entry that it accepts. -/
theorem Kernel.add_accepted {k : Kernel} {fd : Fd} {refusal : Option Int}
    (accepted : k.Accepts fd refusal) (entry : Registration) :
    k.add fd entry refusal = (k.register fd entry, ⟨0, 0⟩) := by
  obtain ⟨opened, absent, rfl⟩ := accepted
  simp [Kernel.add, opened, absent]

/-- The kernel answers anything else with one of three errors. -/
theorem Kernel.add_refused {k : Kernel} {fd : Fd} {refusal : Option Int}
    (refused : ¬ k.Accepts fd refusal) :
    ∃ errno, (errno = ebadf ∨ errno = eexist ∨ refusal = some errno) ∧
      ∀ entry, k.add fd entry refusal = (k, ⟨-1, errno⟩) := by
  -- It checks the number, its registration and its own reasons in this order.
  by_cases shut : k.owner fd = none
  · exact ⟨ebadf, .inl rfl, fun entry => by simp only [Kernel.add, if_pos shut]⟩
  · by_cases present : k.interest fd = none
    · cases refusal with
      | none => exact absurd ⟨shut, present, rfl⟩ refused
      | some errno =>
        exact ⟨errno, .inr (.inr rfl), fun entry => by simp [Kernel.add, shut, present]⟩
    · exact ⟨eexist, .inr (.inl rfl), fun entry => by simp [Kernel.add, shut, present]⟩

/-- The transfer failed because it would have to block. -/
def WouldBlock (answer : Answer) : Prop := answer.value < 0 ∧ answer.errno = eagain

instance (answer : Answer) : Decidable (WouldBlock answer) := inferInstanceAs (Decidable (_ ∧ _))

/-- What a call returns for a transfer, with `errno` 0 beside a success. -/
def settled (answer : Answer) : Answer :=
  ⟨answer.value, if answer.value < 0 then answer.errno else 0⟩

namespace RoutineIo

variable {io : RoutineIo} {k : Kernel} {fd : Fd} {answer : Answer}

/-- The answer of a transfer as the call sees it. -/
def narrowed (io : RoutineIo) (answer : Answer) : Answer := ⟨io.narrow answer.value, answer.errno⟩

/-- A transfer that would block leaves the descriptor registered. -/
theorem transfer_blocked (blocked : WouldBlock (io.narrowed answer)) :
    io.transfer k fd answer = (k, .waiting (io.narrow answer.value)) := by
  have test : io.narrow answer.value < 0 ∧ answer.errno = eagain := blocked
  simp only [transfer, if_pos test, efEpollUnset]

/-- Any other transfer ends the registration and the call. -/
theorem transfer_settled (through : ¬ WouldBlock (io.narrowed answer)) :
    io.transfer k fd answer = ((k.delete fd).1, .returned (settled (io.narrowed answer))) := by
  -- The test for blocking fails, and the call ends with what has come back.
  have test : ¬ (io.narrow answer.value < 0 ∧ answer.errno = eagain) := through
  simp only [transfer, if_neg test, settled, narrowed, finish, efEpollDissociate]
  by_cases failed : io.narrow answer.value < 0
  · simp [failed]
  · simp [failed]

/-- The steps of a transfer that would block. -/
theorem transferSteps_blocked (blocked : WouldBlock (io.narrowed answer)) :
    io.transferSteps fd answer = [.transfer fd answer, .unset fd io.unset] := by
  have test : io.narrow answer.value < 0 ∧ answer.errno = eagain := blocked
  simp only [transferSteps, if_pos test]

/-- The steps of any other transfer. -/
theorem transferSteps_settled (through : ¬ WouldBlock (io.narrowed answer)) :
    io.transferSteps fd answer = [.transfer fd answer, .dissociate fd] := by
  have test : ¬ (io.narrow answer.value < 0 ∧ answer.errno = eagain) := through
  simp only [transferSteps, if_neg test]

variable (io k fd)

/-- The steps from the label `ready` on account for what happens to the interest set. -/
theorem transferSteps_replay (answer : Answer) :
    (io.transferSteps fd answer).foldl CallStep.replay k = (io.transfer k fd answer).1 := by
  -- Only a transfer that would block leaves the registration in place.
  by_cases blocked : WouldBlock (io.narrowed answer)
  · rw [transferSteps_blocked blocked, transfer_blocked blocked]
    rfl
  · rw [transferSteps_settled blocked, transfer_settled blocked]
    rfl

/-- The steps behind a yield account for what happens to the interest set. -/
theorem wokenSteps_replay (retval : Int) (events : Nat) (answer : Answer) :
    (io.wokenSteps fd events answer).foldl CallStep.replay k =
      (io.woken k fd retval events answer).1 := by
  -- The two functions branch on the same conditions.
  unfold wokenSteps woken
  split
  · rfl
  · split
    · exact io.transferSteps_replay k fd answer
    · rfl

/-- The first steps of a call account for what happens to the interest set. -/
theorem startSteps_replay (er : Ptr) (ticket : Nat) (refusal : Option Int) (answer : Answer) :
    (io.startSteps k er fd ticket refusal answer).foldl CallStep.replay k =
      (io.start k er fd ticket refusal answer).1 := by
  -- An association is an entry more and the answer 0, or nothing and a negative answer.
  rcases k.add_cases fd ⟨io.interest, .routine er, ticket⟩ refusal with
    ⟨_, _, added⟩ | ⟨errno, refused⟩
  · simp [startSteps, start, efEpollAssociate, added, CallStep.replay]
  · simp [startSteps, start, efEpollAssociate, refused, CallStep.replay]

/-- The steps of a call account for what happens to the interest set. -/
theorem call_replay (er : Ptr) (ticket : Nat) (refusal : Option Int) (answer : Answer)
    (wakes : List Wake) :
    (io.call k er fd ticket refusal answer wakes).steps.foldl CallStep.replay k =
      (io.call k er fd ticket refusal answer wakes).kernel := by
  -- From a yield on, every wake-up brings its own kernel, so the one before it does not matter.
  have rest : ∀ (wakes : List Wake) (place : Kernel × Outcome),
      (io.goOn fd place wakes).steps.foldl CallStep.replay place.1 =
        (io.goOn fd place wakes).kernel := by
    intro wakes
    induction wakes with
    | nil => rintro ⟨k, _ | _⟩ <;> rfl
    | cons wake wakes ih =>
      rintro ⟨k, retval | answer⟩
      · -- The steps behind the yield come before those of the next one.
        simp only [goOn, List.cons_append, List.foldl_cons, List.foldl_append, CallStep.replay]
        rw [io.wokenSteps_replay wake.kernel fd retval wake.events wake.answer]
        exact ih _
      · rfl
  simp only [call, List.foldl_append]
  rw [startSteps_replay]
  exact rest wakes _

end RoutineIo

end SimpleSrv.Ef
