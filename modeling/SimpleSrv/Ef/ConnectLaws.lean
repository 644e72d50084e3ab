import SimpleSrv.Ef.TransferLaws

/-! What `ef_routine_connect` reports about the attempt, in its value and its `errno`. -/

namespace SimpleSrv.Ef

/-- What the call finds when its yield returns. -/
structure ConnectWake where
  /-- The descriptors and the interest set, which others may have changed by then. -/
  kernel : Kernel
  events : Nat
  /-- The value of `SO_ERROR`. -/
  pending : Int

/-- The events with which the code takes an attempt to have failed. -/
def ConnectWake.Error (wake : ConnectWake) : Prop := wake.events &&& (efPollErr ||| efPollHup) ≠ 0

instance (wake : ConnectWake) : Decidable wake.Error := inferInstanceAs (Decidable (_ ≠ _))

/-- A whole call, with the wake-up that ends its yield if it comes to one. -/
def connectCall (k : Kernel) (er : Ptr) (sockfd : Fd) (ticket : Nat) (answers : ConnectAnswers)
    (wake : ConnectWake) : Kernel × Outcome :=
  match efRoutineConnect k er sockfd ticket answers with
  | (k, .returned answer) => (k, .returned answer)
  | (_, .waiting retval) => efRoutineConnected wake.kernel sockfd retval wake.events wake.pending

namespace ConnectAnswers

variable (answers : ConnectAnswers)

/-- The socket has to be set to the non-blocking mode, and this fails. -/
def SetflFails : Prop := answers.nonblock = false ∧ answers.setfl.value < 0

/-- The attempt goes on in the background. -/
def InProgress : Prop :=
  ¬ answers.SetflFails ∧ answers.connect.value < 0 ∧ answers.connect.errno = einprogress

end ConnectAnswers

/-- A call returns a negative value with this `errno`. -/
def FailsWith (outcome : Outcome) (errno : Int) : Prop :=
  ∃ value < 0, outcome = .returned ⟨value, errno⟩

/-- A call returns 0. -/
def Succeeds (outcome : Outcome) : Prop := ∃ errno, outcome = .returned ⟨0, errno⟩

/-- Success is a matter of the value. -/
@[simp] theorem succeeds_returned (answer : Answer) :
    Succeeds (.returned answer) ↔ answer.value = 0 := by
  constructor
  · intro succeeded
    obtain ⟨errno, same⟩ := succeeded
    cases same
    rfl
  · intro zero
    exact ⟨answer.errno, by rw [← zero]⟩

/-- Failure is a negative value beside the error. -/
@[simp] theorem failsWith_returned (answer : Answer) (errno : Int) :
    FailsWith (.returned answer) errno ↔ answer.value < 0 ∧ answer.errno = errno := by
  constructor
  · intro failed
    obtain ⟨value, negative, same⟩ := failed
    cases same
    exact ⟨negative, rfl⟩
  · intro failed
    exact ⟨answer.value, failed.1, by rw [← failed.2]⟩

/-- The result of a call says what became of its attempt. -/
structure ReportsTruly (k : Kernel) (er : Ptr) (sockfd : Fd) (ticket : Nat)
    (answers : ConnectAnswers) (wake : ConnectWake) (result : Kernel × Outcome) : Prop where
  /-- Success is a connection at once, or a wake-up with neither an error nor an error event. -/
  success : Succeeds result.2 ↔
    (¬ answers.SetflFails ∧ answers.connect.value = 0) ∨
      (answers.InProgress ∧ k.Accepts sockfd answers.refusal ∧ wake.pending = 0 ∧ ¬ wake.Error)
  setfl : answers.SetflFails → FailsWith result.2 answers.setfl.errno
  connect : ¬ answers.SetflFails → answers.connect.value ≠ 0 → ¬ answers.InProgress →
    FailsWith result.2 answers.connect.errno
  associate : answers.InProgress → ¬ k.Accepts sockfd answers.refusal →
    FailsWith result.2
      (efEpollAssociate k sockfd efPollOut (.routine er) false ticket answers.refusal).2.errno
  pending : answers.InProgress → k.Accepts sockfd answers.refusal → wake.pending ≠ 0 →
    FailsWith result.2 wake.pending
  /-- An error event without a pending error names no error to report. -/
  event : answers.InProgress → k.Accepts sockfd answers.refusal → wake.Error →
    ∃ errno, FailsWith result.2 errno
  /-- The entries of the interest set are as before, unless others have changed them. -/
  restored : ∀ other, (other = sockfd ∨ wake.kernel.interest other = k.interest other) →
    result.1.interest other = k.interest other

section

variable {k : Kernel} {er : Ptr} {sockfd : Fd} {ticket : Nat} {answers : ConnectAnswers}
  {wake : ConnectWake}

/-- A call that cannot change the mode of its socket. -/
theorem connectCall_setfl (fails : answers.SetflFails) :
    connectCall k er sockfd ticket answers wake = (k, .returned answers.setfl) := by
  simp [connectCall, efRoutineConnect, fails.1, fails.2]

/-- A call whose attempt is over at once. -/
theorem connectCall_over (passes : ¬ answers.SetflFails)
    (settled : ¬ (answers.connect.value < 0 ∧ answers.connect.errno = einprogress)) :
    connectCall k er sockfd ticket answers wake = (k, .returned answers.connect) := by
  -- Neither of the two tests leads to the association.
  have mode : ¬ ((!answers.nonblock) = true ∧ answers.setfl.value < 0) := by
    simpa [ConnectAnswers.SetflFails] using passes
  by_cases failed : answers.connect.value < 0
  · have other : answers.connect.errno ≠ einprogress := fun same => settled ⟨failed, same⟩
    simp only [connectCall, efRoutineConnect, if_neg mode, if_pos failed, if_pos other]
  · simp only [connectCall, efRoutineConnect, if_neg mode, if_neg failed]

/-- A call that goes on with its association. -/
theorem efRoutineConnect_inProgress (starts : answers.InProgress) :
    efRoutineConnect k er sockfd ticket answers =
      let added := k.add sockfd ⟨efPollOut, .routine er, ticket⟩ answers.refusal
      if added.2.value < 0 then (added.1, .returned added.2)
      else (added.1, .waiting added.2.value) := by
  -- Both tests lead to the association.
  obtain ⟨passes, failed, progress⟩ := starts
  have mode : ¬ ((!answers.nonblock) = true ∧ answers.setfl.value < 0) := by
    simpa [ConnectAnswers.SetflFails] using passes
  simp only [efRoutineConnect, if_neg mode, if_pos failed, progress, ne_eq, not_true_eq_false,
    if_false, efEpollAssociate, Bool.false_eq_true]

/-- A call whose association the kernel refuses ends with the error of the kernel. -/
theorem connectCall_refused (starts : answers.InProgress)
    (refused : ¬ k.Accepts sockfd answers.refusal) :
    connectCall k er sockfd ticket answers wake =
      (k, .returned ⟨-1, (efEpollAssociate k sockfd efPollOut (.routine er) false ticket
        answers.refusal).2.errno⟩) := by
  obtain ⟨errno, _, added⟩ := Kernel.add_refused refused
  simp [connectCall, efRoutineConnect_inProgress starts, efEpollAssociate, added]

/-- What a call returns that has waited. -/
def wokenAnswer (wake : ConnectWake) : Answer :=
  if wake.Error then ⟨-1, ebadf⟩
  else if wake.events &&& efPollOut ≠ 0 then ⟨0, wake.pending⟩ else ⟨0, 0⟩

/-- A call that waits ends with its wake-up. -/
theorem connectCall_woken (starts : answers.InProgress)
    (accepted : k.Accepts sockfd answers.refusal) :
    connectCall k er sockfd ticket answers wake =
      ((wake.kernel.delete sockfd).1, .returned (wokenAnswer wake)) := by
  -- The association succeeds, and the call waits for its event.
  have added := Kernel.add_accepted accepted ⟨efPollOut, .routine er, ticket⟩
  have waits : efRoutineConnect k er sockfd ticket answers =
      (k.register sockfd ⟨efPollOut, .routine er, ticket⟩, .waiting 0) := by
    simp [efRoutineConnect_inProgress starts, added]
  simp only [connectCall, waits, efRoutineConnected, wokenAnswer, RoutineIo.finish,
    efEpollDissociate]
  by_cases error : wake.Error
  · have test : wake.events &&& (efPollErr ||| efPollHup) ≠ 0 := error
    rw [if_pos test, if_pos error]
  · have test : ¬ wake.events &&& (efPollErr ||| efPollHup) ≠ 0 := error
    rw [if_neg test, if_neg error]
    split
    · rfl
    · rfl

end

/-- The call comes to its wake-up, and misses the pending error that it finds there. -/
def MissesError (k : Kernel) (sockfd : Fd) (answers : ConnectAnswers) (wake : ConnectWake) : Prop :=
  answers.InProgress ∧ k.Accepts sockfd answers.refusal ∧ wake.pending ≠ 0 ∧
    ¬ (wake.Error ∧ wake.pending = ebadf)

section

variable {k : Kernel} {er : Ptr} {sockfd : Fd} {ticket : Nat} {answers : ConnectAnswers}
  {wake : ConnectWake}

/-- A call that fails or ends before its association reports that truly. -/
theorem reports_early (early : ¬ answers.InProgress)
    (documented : answers.connect.value = 0 ∨ answers.connect.value = -1) :
    ReportsTruly k er sockfd ticket answers wake
      (connectCall k er sockfd ticket answers wake) := by
  -- The cases are those of the first `fcntl` and of `connect` itself.
  by_cases fails : answers.SetflFails
  · rw [connectCall_setfl fails]
    have negative := fails.2
    exact {
      success := by
        simp only [succeeds_returned, fails, early, not_true_eq_false, false_and, or_false,
          iff_false]
        omega
      setfl := by simp [negative]
      connect := fun passes => absurd fails passes
      associate := fun starts => absurd starts early
      pending := fun starts => absurd starts early
      event := fun starts => absurd starts early
      restored := fun _ _ => rfl }
  · have settled : ¬ (answers.connect.value < 0 ∧ answers.connect.errno = einprogress) :=
      fun starts => early ⟨fails, starts⟩
    rw [connectCall_over fails settled]
    exact {
      success := by simp [fails, early]
      setfl := fun failed => absurd failed fails
      connect := by
        intro _ unconnected _
        rw [failsWith_returned]
        omega
      associate := fun starts => absurd starts early
      pending := fun starts => absurd starts early
      event := fun starts => absurd starts early
      restored := fun _ _ => rfl }

/-- A call whose association is refused reports that truly. -/
theorem reports_refused (starts : answers.InProgress)
    (refused : ¬ k.Accepts sockfd answers.refusal) :
    ReportsTruly k er sockfd ticket answers wake
      (connectCall k er sockfd ticket answers wake) := by
  -- The call returns what the association has answered.
  obtain ⟨passes, failed, progress⟩ := id starts
  rw [connectCall_refused starts refused]
  exact {
    success := by
      simp only [succeeds_returned, refused, false_and, and_false, or_false]
      constructor
      · intro zero
        cases zero
      · intro connected
        omega
    setfl := fun fails => absurd fails passes
    connect := fun _ _ settled => absurd starts settled
    associate := by simp
    pending := fun _ accepted => absurd accepted refused
    event := fun _ accepted => absurd accepted refused
    restored := fun _ _ => rfl }

/-- A call that waits reports truly what it finds, unless that is an error which it misses. -/
theorem reports_woken (starts : answers.InProgress) (accepted : k.Accepts sockfd answers.refusal)
    (met : wake.pending = 0 ∨ (wake.Error ∧ wake.pending = ebadf)) :
    ReportsTruly k er sockfd ticket answers wake
      (connectCall k er sockfd ticket answers wake) := by
  -- The value depends on the event, and `errno` on what the kernel left in it.
  obtain ⟨passes, failed, progress⟩ := id starts
  have unconnected : answers.connect.value ≠ 0 := by omega
  rw [connectCall_woken starts accepted]
  exact {
    success := by
      simp only [succeeds_returned, wokenAnswer, unconnected, and_false, false_or, starts,
        accepted, true_and]
      by_cases error : wake.Error
      · simp [error]
      · have clear : wake.pending = 0 := met.resolve_right fun bad => error bad.1
        simp only [error, clear, if_false, not_false_eq_true, and_self, iff_true]
        split
        · rfl
        · rfl
    setfl := fun fails => absurd fails passes
    connect := fun _ _ settled => absurd starts settled
    associate := fun _ refused => absurd accepted refused
    pending := by
      intro _ _ present
      obtain ⟨error, same⟩ := met.resolve_left present
      simp [wokenAnswer, error, same]
    event := by
      intro _ _ error
      exact ⟨ebadf, by simp [wokenAnswer, error]⟩
    restored := by
      intro other same
      show (wake.kernel.delete sockfd).1.interest other = k.interest other
      rw [Kernel.delete_interest]
      by_cases own : other = sockfd
      · rw [if_pos own, own, accepted.2.1]
      · rw [if_neg own]
        exact same.resolve_left own }

end

/--
A call reports what became of its attempt unless it wakes up to a pending error.

The one pending error that it reports is `EBADF`, beside an error event.
By its documentation `connect` answers with 0 or with -1.
-/
theorem connect_reports_iff (k : Kernel) (er : Ptr) (sockfd : Fd) (ticket : Nat)
    (answers : ConnectAnswers) (wake : ConnectWake)
    (documented : answers.connect.value = 0 ∨ answers.connect.value = -1) :
    ReportsTruly k er sockfd ticket answers wake (connectCall k er sockfd ticket answers wake) ↔
      ¬ MissesError k sockfd answers wake := by
  -- Only a call that waits can miss an error.
  constructor
  · intro reports missed
    obtain ⟨starts, accepted, present, unnamed⟩ := missed
    -- The value is 0 without an error event, and `errno` is `EBADF` with one.
    have named := reports.pending starts accepted present
    rw [connectCall_woken starts accepted, failsWith_returned, wokenAnswer] at named
    by_cases error : wake.Error
    · rw [if_pos error] at named
      exact unnamed ⟨error, named.2.symm⟩
    · rw [if_neg error] at named
      have zero : (if wake.events &&& efPollOut ≠ 0 then (⟨0, wake.pending⟩ : Answer)
          else ⟨0, 0⟩).value = 0 := by
        split
        · rfl
        · rfl
      omega
  · intro spared
    by_cases starts : answers.InProgress
    · by_cases accepted : k.Accepts sockfd answers.refusal
      · have met : wake.pending = 0 ∨ (wake.Error ∧ wake.pending = ebadf) := by
          by_contra missed
          rw [not_or] at missed
          exact spared ⟨starts, accepted, missed⟩
        exact reports_woken starts accepted met
      · exact reports_refused starts accepted
    · exact reports_early starts documented

/-- An attempt that is reported as it should be. -/
theorem connect_reports_success :
    ReportsTruly onlyFive 400 5 0 ⟨true, ⟨0, 0⟩, ⟨-1, einprogress⟩, none⟩ ⟨onlyFive, 4, 0⟩
        (connectCall onlyFive 400 5 0 ⟨true, ⟨0, 0⟩, ⟨-1, einprogress⟩, none⟩
          ⟨onlyFive, 4, 0⟩) ↔
      ¬ MissesError onlyFive 5 ⟨true, ⟨0, 0⟩, ⟨-1, einprogress⟩, none⟩ ⟨onlyFive, 4, 0⟩ :=
  connect_reports_iff onlyFive 400 5 0 ⟨true, ⟨0, 0⟩, ⟨-1, einprogress⟩, none⟩
    ⟨onlyFive, 4, 0⟩ (.inr rfl)

/-- A refused connection, number 111, wakes the call up as writable, and the call returns 0. -/
theorem connect_misses_refusal :
    ¬ ∀ (k : Kernel) (er : Ptr) (sockfd : Fd) (ticket : Nat) (answers : ConnectAnswers)
        (wake : ConnectWake),
      (answers.connect.value = 0 ∨ answers.connect.value = -1) →
      wake.events &&& (efPollOut ||| efPollErr ||| efPollHup) ≠ 0 →
      ReportsTruly k er sockfd ticket answers wake
        (connectCall k er sockfd ticket answers wake) := by
  -- The event says that the socket is writable, and the pending error is not asked for.
  intro claimed
  have reports := claimed onlyFive 400 5 0 ⟨true, ⟨0, 0⟩, ⟨-1, einprogress⟩, none⟩
    ⟨onlyFive, 4, 111⟩ (.inr rfl) (by decide)
  have zero : Succeeds (connectCall onlyFive 400 5 0
      ⟨true, ⟨0, 0⟩, ⟨-1, einprogress⟩, none⟩ ⟨onlyFive, 4, 111⟩).2 := ⟨111, rfl⟩
  rcases reports.success.mp zero with connected | woken
  · exact absurd connected.2 (by decide)
  · exact absurd woken.2.2.1 (by decide)

end SimpleSrv.Ef
