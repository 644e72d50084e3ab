import SimpleSrv.Ef.BlockingCall

/-! `ef_routine_read` and its siblings do one blocking transfer, whatever the wake-ups bring. -/

namespace SimpleSrv.Ef

variable {io : RoutineIo} {k : Kernel} {fd : Fd} {wakes : List Wake} {rest result : CallResult}

/-- A backend wakes a call up only with events that it has asked for, an error or a hang-up. -/
def Delivered (interest events : Nat) : Prop :=
  events &&& (interest ||| efPollErr ||| efPollHup) ≠ 0

instance (interest events : Nat) : Decidable (Delivered interest events) :=
  inferInstanceAs (Decidable (_ ≠ _))

/-- What a call does from a yield on, wake-up by wake-up. -/
inductive Waited (io : RoutineIo) (fd : Fd) : List Wake → CallResult → Prop
  /-- The next wake-up has not come. -/
  | still (k : Kernel) : Waited io fd [] ⟨[], k, none⟩
  /-- The events make the call fail. -/
  | fails (wake : Wake) (wakes : List Wake) (failing : wake.events &&& io.failing ≠ 0) :
      Waited io fd (wake :: wakes)
        ⟨[.yield wake, .dissociate fd], (wake.kernel.delete fd).1, some ⟨-1, ebadf⟩⟩
  /-- The transfer succeeds, or fails for good. -/
  | settles (wake : Wake) (wakes : List Wake) (spared : wake.events &&& io.failing = 0)
      (through : ¬ WouldBlock (io.narrowed wake.answer)) :
      Waited io fd (wake :: wakes)
        ⟨[.yield wake, .transfer fd wake.answer, .dissociate fd], (wake.kernel.delete fd).1,
          some (settled (io.narrowed wake.answer))⟩
  /-- The transfer would block, and the call yields again. -/
  | retries (wake : Wake) (wakes : List Wake) (spared : wake.events &&& io.failing = 0)
      (blocked : WouldBlock (io.narrowed wake.answer)) {rest : CallResult}
      (others : Waited io fd wakes rest) :
      Waited io fd (wake :: wakes)
        ⟨.yield wake :: .transfer fd wake.answer :: .unset fd io.unset :: rest.steps, rest.kernel,
          rest.answer⟩

namespace RoutineIo

/-- Every event that can wake the call up either fails it or makes it try again. -/
def Covers (io : RoutineIo) : Prop :=
  io.interest ||| efPollErr ||| efPollHup = io.failing ||| io.ready

/-- A wake-up that does not fail the call makes it try again. -/
theorem Covers.tries (covers : io.Covers) {events : Nat} (delivered : Delivered io.interest events)
    (spared : events &&& io.failing = 0) : events &&& io.ready ≠ 0 := by
  -- Without both kinds of events the wake-up would have brought nothing.
  intro unready
  apply delivered
  rw [covers, Nat.and_or_distrib_left, spared, unready]
  rfl

variable {wake : Wake} {retval : Int}

/-- A wake-up that fails the call ends it. -/
theorem goOn_fails (failing : wake.events &&& io.failing ≠ 0) :
    io.goOn fd (k, .waiting retval) (wake :: wakes) =
      ⟨[.yield wake, .dissociate fd], (wake.kernel.delete fd).1, some ⟨-1, ebadf⟩⟩ := by
  simp [goOn, woken, wokenSteps, failing, finish, efEpollDissociate]

/-- A wake-up with none of the events in question ends the call with the result so far. -/
theorem goOn_idle (spared : wake.events &&& io.failing = 0)
    (unready : wake.events &&& io.ready = 0) :
    io.goOn fd (k, .waiting retval) (wake :: wakes) =
      ⟨[.yield wake, .dissociate fd], (wake.kernel.delete fd).1, some ⟨retval, 0⟩⟩ := by
  simp [goOn, woken, wokenSteps, spared, unready, finish, efEpollDissociate]

/-- A wake-up for a transfer that goes through ends the call. -/
theorem goOn_settles (spared : wake.events &&& io.failing = 0)
    (ready : wake.events &&& io.ready ≠ 0) (through : ¬ WouldBlock (io.narrowed wake.answer)) :
    io.goOn fd (k, .waiting retval) (wake :: wakes) =
      ⟨[.yield wake, .transfer fd wake.answer, .dissociate fd], (wake.kernel.delete fd).1,
        some (settled (io.narrowed wake.answer))⟩ := by
  simp [goOn, woken, wokenSteps, spared, ready, transfer_settled through,
    transferSteps_settled through]

/-- Behind a wake-up for a transfer that would block the call yields again. -/
theorem goOn_retries (spared : wake.events &&& io.failing = 0)
    (ready : wake.events &&& io.ready ≠ 0) (blocked : WouldBlock (io.narrowed wake.answer))
    (others : io.goOn fd (wake.kernel, .waiting (io.narrow wake.answer.value)) wakes = rest) :
    io.goOn fd (k, .waiting retval) (wake :: wakes) =
      ⟨.yield wake :: .transfer fd wake.answer :: .unset fd io.unset :: rest.steps, rest.kernel,
        rest.answer⟩ := by
  simp [goOn, woken, wokenSteps, spared, ready, transfer_blocked blocked,
    transferSteps_blocked blocked, others]

/-- A call does from a yield on what its wake-ups make it do. -/
theorem goOn_waited (covers : io.Covers) (wakes : List Wake)
    (delivered : ∀ wake ∈ wakes, Delivered io.interest wake.events) (k : Kernel) (retval : Int) :
    Waited io fd wakes (io.goOn fd (k, .waiting retval) wakes) := by
  -- The induction is on the wake-ups, of which each ends the call or leads to the next yield.
  induction wakes generalizing k retval with
  | nil => exact .still k
  | cons wake wakes ih =>
    by_cases failing : wake.events &&& io.failing = 0
    · have ready := covers.tries (delivered wake (by simp)) failing
      by_cases blocked : WouldBlock (io.narrowed wake.answer)
      · have rest := ih (fun wake mem => delivered wake (by simp [mem])) wake.kernel
          (io.narrow wake.answer.value)
        rw [goOn_retries failing ready blocked rfl]
        exact .retries wake wakes failing blocked rest
      · rw [goOn_settles failing ready blocked]
        exact .settles wake wakes failing blocked
    · rw [goOn_fails failing]
      exact .fails wake wakes failing

end RoutineIo

namespace Waited

/-- The transfers of a call all would have blocked, the last one of a returned call apart. -/
theorem transfers_pairwise (waited : Waited io fd wakes result) :
    (result.steps.filterMap CallStep.answer?).Pairwise
      (fun first _ => WouldBlock (io.narrowed first)) := by
  -- Only a transfer that would have blocked is followed by another one.
  induction waited with
  | still | fails => exact .nil
  | settles => exact List.pairwise_singleton _ _
  | retries wake wakes spared blocked others ih =>
    simp only [List.filterMap_cons, CallStep.answer?, List.pairwise_cons]
    exact ⟨fun _ _ => blocked, ih⟩

/-- Nothing but `EAGAIN` keeps a call from its return. -/
theorem errno_ne (waited : Waited io fd wakes result) :
    ∀ answer, result.answer = some answer → answer.errno ≠ eagain := by
  -- A call that ends reports another error, or none.
  induction waited with
  | still => intro answer returned; cases returned
  | fails =>
    intro answer returned
    cases returned
    decide
  | settles wake wakes spared through =>
    intro answer returned
    cases returned
    show (if io.narrow wake.answer.value < 0 then wake.answer.errno else 0) ≠ eagain
    split
    · rename_i failed
      exact fun again => through ⟨failed, again⟩
    · decide
  | retries wake wakes spared blocked others ih => exact ih

/-- The first wake-up with an event that fails the call ends it so, before any last transfer. -/
theorem failing (waited : Waited io fd wakes result) :
    ∀ wake, .yield wake ∈ result.steps → wake.events &&& io.failing ≠ 0 →
      result.answer = some ⟨-1, ebadf⟩ := by
  -- Before such a wake-up the call has only yielded again.
  induction waited with
  | still => intro wake mem; cases mem
  | fails => intro _ _ _; rfl
  | settles first wakes spared through =>
    intro wake mem bad
    simp only [List.mem_cons, CallStep.yield.injEq, reduceCtorEq, List.not_mem_nil, or_false] at mem
    rw [mem] at bad
    exact absurd spared bad
  | retries first wakes spared blocked others ih =>
    intro wake mem bad
    simp only [List.mem_cons, CallStep.yield.injEq, reduceCtorEq, false_or] at mem
    rcases mem with same | mem
    · rw [same] at bad
      exact absurd spared bad
    · exact ih wake mem bad

/-- Without such a wake-up a call returns what its last transfer has given it. -/
theorem settled (waited : Waited io fd wakes result) :
    ∀ answer, result.answer = some answer →
      (∀ wake, .yield wake ∈ result.steps → wake.events &&& io.failing = 0) →
      ∃ last, (result.steps.filterMap CallStep.answer?).getLast? = some last ∧
        ¬ WouldBlock (io.narrowed last) ∧ answer = Ef.settled (io.narrowed last) := by
  -- The last transfer is the one that has not blocked.
  induction waited with
  | still => intro answer returned; cases returned
  | fails wake wakes failing =>
    intro answer returned spared
    exact absurd (spared wake (by simp)) failing
  | settles wake wakes spared through =>
    intro answer returned _
    cases returned
    exact ⟨wake.answer, rfl, through, rfl⟩
  | retries wake wakes spared blocked others ih =>
    intro answer returned spared
    obtain ⟨last, found, facts⟩ := ih answer returned fun wake mem => spared wake (by simp [mem])
    refine ⟨last, ?_, facts⟩
    -- The transfers of the rest of the call are not empty, and end as they do.
    simp only [List.filterMap_cons, CallStep.answer?, List.getLast?_cons, found]
    rfl

/-- A call that waits has used all the wake-ups, and keeps its registration. -/
theorem waiting_iff (waited : Waited io fd wakes result) :
    result.answer = none ↔
      ∀ wake ∈ wakes, wake.events &&& io.failing = 0 ∧ WouldBlock (io.narrowed wake.answer) := by
  -- Whatever else a wake-up brings ends the call.
  induction waited with
  | still => simp
  | fails wake wakes failing =>
    simp only [reduceCtorEq, List.forall_mem_cons, false_iff]
    exact fun all => failing all.1.1
  | settles wake wakes spared through =>
    simp only [reduceCtorEq, List.forall_mem_cons, false_iff]
    exact fun all => through all.1.2
  | retries wake wakes spared blocked others ih =>
    simp only [ih, List.forall_mem_cons]
    exact ⟨fun rest => ⟨⟨spared, blocked⟩, rest⟩, fun all => all.2⟩

/-- The registration is ended once by a call that returns, as its last step, and else never. -/
theorem dissociated (waited : Waited io fd wakes result) :
    result.steps.filterMap CallStep.dissociated? = (if result.answer.isSome then [fd] else []) ∧
      (result.answer.isSome → result.steps.getLast? = some (.dissociate fd)) := by
  -- The induction is on the call, which ends with the dissociation if it ends.
  induction waited with
  | still => exact ⟨rfl, nofun⟩
  | fails | settles => exact ⟨rfl, fun _ => rfl⟩
  | retries wake wakes spared blocked others ih =>
    refine ⟨ih.1, fun returned => ?_⟩
    simp only [List.getLast?_cons, ih.2 returned]
    rfl

/-- A call that has returned leaves the interest set of its last wake-up without the descriptor. -/
theorem interest (waited : Waited io fd wakes result) :
    result.answer.isSome → ∃ wake, .yield wake ∈ result.steps ∧
      ∀ other, result.kernel.interest other =
        if other = fd then none else wake.kernel.interest other := by
  -- The dissociation takes the descriptor out of the set as it was then.
  induction waited with
  | still => intro returned; cases returned
  | fails wake wakes failing => exact fun _ => ⟨wake, by simp, fun _ => Kernel.delete_interest⟩
  | settles wake wakes spared through =>
    exact fun _ => ⟨wake, by simp, fun _ => Kernel.delete_interest⟩
  | retries first wakes spared blocked others ih =>
    intro returned
    obtain ⟨wake, mem, same⟩ := ih returned
    exact ⟨wake, by simp [mem], same⟩

/-- A call yields for its wake-ups in their order, until it needs no more of them. -/
theorem woken (waited : Waited io fd wakes result) :
    result.steps.filterMap CallStep.wake? <+: wakes := by
  -- Each yield takes the next wake-up.
  induction waited with
  | still => exact List.nil_prefix
  | fails | settles =>
    simp only [List.filterMap_cons, CallStep.wake?, List.filterMap_nil, List.prefix_cons_inj]
    exact List.nil_prefix
  | retries wake wakes spared blocked others ih =>
    simp only [List.filterMap_cons, CallStep.wake?, List.prefix_cons_inj]
    exact ih

/-- Every wake-up that does not fail the call makes one transfer, which gets its answer. -/
theorem tried (waited : Waited io fd wakes result) :
    result.steps.filterMap CallStep.answer? =
      ((result.steps.filterMap CallStep.wake?).filter fun wake =>
        wake.events &&& io.failing = 0).map Wake.answer := by
  -- The transfer comes right behind its yield.
  induction waited with
  | still => rfl
  | fails wake wakes failing =>
    simp [List.filterMap_cons, CallStep.answer?, CallStep.wake?, failing]
  | settles wake wakes spared through =>
    simp [List.filterMap_cons, CallStep.answer?, CallStep.wake?, spared]
  | retries wake wakes spared blocked others ih =>
    simp [List.filterMap_cons, CallStep.answer?, CallStep.wake?, spared, ih]

end Waited

namespace RoutineIo

variable (io k fd)

/-- A call whose association the kernel refuses ends with this answer. -/
theorem call_refused {refusal : Option Int} (refused : ¬ k.Accepts fd refusal) (er : Ptr)
    (ticket : Nat) (answer : Answer) (wakes : List Wake) :
    ∃ errno, (errno = ebadf ∨ errno = eexist ∨ refusal = some errno) ∧
      io.call k er fd ticket refusal answer wakes =
        ⟨[.associate fd ⟨io.interest, .routine er, ticket⟩ ⟨-1, errno⟩], k, some ⟨-1, errno⟩⟩ := by
  obtain ⟨errno, kind, added⟩ := Kernel.add_refused refused
  refine ⟨errno, kind, ?_⟩
  simp [call, startSteps, start, efEpollAssociate, added, goOn]

/-- A call whose association the kernel accepts goes on with its first yield. -/
theorem call_accepted {refusal : Option Int} (accepted : k.Accepts fd refusal) (er : Ptr)
    (ticket : Nat) (answer : Answer) (wakes : List Wake) {rest : CallResult}
    (others : io.goOn fd (k.register fd ⟨io.interest, .routine er, ticket⟩, .waiting 0) wakes =
      rest) :
    io.call k er fd ticket refusal answer wakes =
      ⟨.associate fd ⟨io.interest, .routine er, ticket⟩ ⟨0, 0⟩ :: rest.steps, rest.kernel,
        rest.answer⟩ := by
  have added := Kernel.add_accepted accepted ⟨io.interest, .routine er, ticket⟩
  simp [call, startSteps, start, efEpollAssociate, added, others]

end RoutineIo

/--
A whole call behaves like one blocking transfer, started over these interests.

It asks for the events of `interest`, and those of `failing` make it fail.
-/
structure BlocksOnce (interest failing : Nat) (k : Kernel) (er : Ptr) (fd : Fd) (ticket : Nat)
    (refusal : Option Int) (wakes : List Wake) (result : CallResult) : Prop where
  /-- The call begins with the association, for the events that it asks for. -/
  requested : ∃ added, result.steps.head? =
    some (.associate fd ⟨interest, .routine er, ticket⟩ added)
  /-- A refused association is all that happens, and its error is returned. -/
  refused : ¬ k.Accepts fd refusal → ∃ failure : Answer, failure.value < 0 ∧ result =
    ⟨[.associate fd ⟨interest, .routine er, ticket⟩ failure], k, some failure⟩
  /-- The call goes on waiting only while nothing fails it and every transfer would block. -/
  waiting : result.answer = none ↔ k.Accepts fd refusal ∧
    ∀ wake ∈ wakes, wake.events &&& failing = 0 ∧ WouldBlock wake.answer
  /-- It is woken up by these wake-ups, in their order. -/
  woken : result.steps.filterMap CallStep.wake? <+: wakes
  /-- Every one of them that does not fail it makes one transfer. -/
  tried : result.steps.filterMap CallStep.answer? =
    ((result.steps.filterMap CallStep.wake?).filter fun wake =>
      wake.events &&& failing = 0).map Wake.answer
  errno : ∀ answer, result.answer = some answer → answer.errno ≠ eagain
  /-- There is no transfer behind one that did not fail with `EAGAIN`. -/
  transfers : (result.steps.filterMap CallStep.answer?).Pairwise fun first _ => WouldBlock first
  /-- An event that fails the call ends it with `EBADF`. -/
  failed : ∀ wake, .yield wake ∈ result.steps → wake.events &&& failing ≠ 0 →
    result.answer = some ⟨-1, ebadf⟩
  /-- Without such an event the answer is that of the last transfer, with no error of a success. -/
  value : k.Accepts fd refusal → ∀ answer, result.answer = some answer →
    (∀ wake, .yield wake ∈ result.steps → wake.events &&& failing = 0) →
    ∃ last, (result.steps.filterMap CallStep.answer?).getLast? = some last ∧
      ¬ WouldBlock last ∧ answer = settled last
  /-- A call that returns dissociates its descriptor once, with its last step. -/
  dissociated : k.Accepts fd refusal → result.answer.isSome →
    result.steps.filterMap CallStep.dissociated? = [fd] ∧
      result.steps.getLast? = some (.dissociate fd)
  /-- The entries of the interest set are as before, unless others have changed them. -/
  restored : result.answer.isSome → ∀ other,
    (other = fd ∨ ∀ wake, .yield wake ∈ result.steps →
      wake.kernel.interest other = k.interest other) →
    result.kernel.interest other = k.interest other

/-- A transfer that keeps its result as it is, and reacts to all events, blocks once. -/
theorem RoutineIo.Covers.blocksOnce (covers : io.Covers)
    (kept : ∀ answer, io.narrowed answer = answer) (k : Kernel) (er : Ptr) (fd : Fd)
    (ticket : Nat) (refusal : Option Int) (documented : refusal ≠ some eagain)
    (answer : Answer) (wakes : List Wake)
    (delivered : ∀ wake ∈ wakes, Delivered io.interest wake.events) :
    BlocksOnce io.interest io.failing k er fd ticket refusal wakes
      (io.call k er fd ticket refusal answer wakes) := by
  -- The association is accepted or refused, and the rest is read off the call.
  by_cases accepted : k.Accepts fd refusal
  · -- The association is the first step, and all the others are those behind the first yield.
    obtain ⟨rest, others⟩ : ∃ rest, io.goOn fd
        (k.register fd ⟨io.interest, .routine er, ticket⟩, .waiting 0) wakes = rest := ⟨_, rfl⟩
    have called := io.call_accepted k fd accepted er ticket answer wakes others
    have waited : Waited io fd wakes rest := others ▸ goOn_waited covers wakes delivered _ 0
    have pairwise := waited.transfers_pairwise
    have value := waited.settled
    have waiting := waited.waiting_iff
    simp only [kept] at pairwise value waiting
    rw [called]
    exact {
      requested := ⟨_, rfl⟩
      refused := fun refused => absurd accepted refused
      waiting := by simpa only [accepted, true_and] using waiting
      woken := waited.woken
      tried := waited.tried
      errno := waited.errno_ne
      transfers := pairwise
      failed := fun wake mem bad => waited.failing wake (by simpa using mem) bad
      value := fun _ answer returned spared =>
        value answer returned fun wake mem => spared wake (by simp [mem])
      dissociated := by
        intro _ returned
        obtain ⟨once, last⟩ := waited.dissociated
        rw [if_pos returned] at once
        refine ⟨once, ?_⟩
        simp only [List.getLast?_cons, last returned]
        rfl
      restored := by
        intro returned other same
        obtain ⟨wake, mem, left⟩ := waited.interest returned
        show rest.kernel.interest other = k.interest other
        rw [left other]
        by_cases own : other = fd
        · rw [if_pos own, own, accepted.2.1]
        · rw [if_neg own]
          exact same.resolve_left own wake (by simp [mem]) }
  · obtain ⟨errno, kind, called⟩ := io.call_refused k fd accepted er ticket answer wakes
    rw [called]
    exact {
      requested := ⟨_, rfl⟩
      refused := fun _ => ⟨⟨-1, errno⟩, by simp, rfl⟩
      waiting := by simp [accepted]
      woken := List.nil_prefix
      tried := rfl
      errno := by
        intro answer returned
        cases returned
        rcases kind with closed | twice | own
        · rw [show errno = ebadf from closed]
          decide
        · rw [show errno = eexist from twice]
          decide
        · exact fun again => documented (own.trans (congrArg some again))
      transfers := .nil
      failed := by simp
      value := fun accepts => absurd accepts accepted
      dissociated := fun accepts => absurd accepts accepted
      restored := fun _ _ _ => rfl }

/-- `ef_routine_read` reacts to every event that can wake it up. -/
theorem efRoutineRead_covers : efRoutineRead.Covers := rfl

/-- `ef_routine_write` reacts to every event that can wake it up. -/
theorem efRoutineWrite_covers : efRoutineWrite.Covers := rfl

/--
Whatever wake-ups a read or a write sees, it behaves like one blocking call.

A read asks for `EF_POLLIN` and fails on `EF_POLLERR` only.
A write asks for `EF_POLLOUT` and fails on `EF_POLLERR` and on `EF_POLLHUP`.
The kernel may refuse the association for any reason but `EAGAIN`, which `epoll_ctl` never gives.
-/
theorem read_write_block_once (k : Kernel) (er : Ptr) (fd : Fd) (ticket : Nat)
    (refusal : Option Int) (documented : refusal ≠ some eagain) (answer : Answer)
    (wakes : List Wake) :
    ((∀ wake ∈ wakes, Delivered efPollIn wake.events) →
      BlocksOnce efPollIn efPollErr k er fd ticket refusal wakes
        (efRoutineRead.call k er fd ticket refusal answer wakes)) ∧
    ((∀ wake ∈ wakes, Delivered efPollOut wake.events) →
      BlocksOnce efPollOut (efPollErr ||| efPollHup) k er fd ticket refusal wakes
        (efRoutineWrite.call k er fd ticket refusal answer wakes)) := by
  -- Both react to every event that they can get, and have a result of the full width.
  constructor
  · intro delivered
    exact efRoutineRead_covers.blocksOnce (fun _ => rfl) k er fd ticket refusal documented answer
      wakes delivered
  · intro delivered
    exact efRoutineWrite_covers.blocksOnce (fun _ => rfl) k er fd ticket refusal documented answer
      wakes delivered

/-- Descriptor 5 is open, and nothing is registered. -/
def onlyFive : Kernel where
  owner fd := if fd = 5 then some .other else none
  interest _ := none

/-- Two wake-ups, the first of them in vain. -/
def inVainThen (interest events : Nat) (last : Answer) : List Wake :=
  [⟨onlyFive.register 5 ⟨interest, .routine 400, 0⟩, interest, ⟨-1, eagain⟩⟩,
    ⟨onlyFive.register 5 ⟨interest, .routine 400, 0⟩, events, last⟩]

/-- A read of ten bytes behind a hang-up, and a write that the hang-up fails. -/
theorem read_write_block_once_hup :
    BlocksOnce efPollIn efPollErr onlyFive 400 5 0 none (inVainThen efPollIn 16 ⟨10, 0⟩)
      (efRoutineRead.call onlyFive 400 5 0 none ⟨0, 0⟩ (inVainThen efPollIn 16 ⟨10, 0⟩)) ∧
    BlocksOnce efPollOut (efPollErr ||| efPollHup) onlyFive 400 5 0 none
      (inVainThen efPollOut 16 ⟨10, 0⟩)
      (efRoutineWrite.call onlyFive 400 5 0 none ⟨0, 0⟩ (inVainThen efPollOut 16 ⟨10, 0⟩)) :=
  ⟨(read_write_block_once onlyFive 400 5 0 none (by decide) ⟨0, 0⟩ _).1 (by
      intro wake mem
      simp only [inVainThen, List.mem_cons, List.not_mem_nil, or_false] at mem
      rcases mem with rfl | rfl <;> decide),
    (read_write_block_once onlyFive 400 5 0 none (by decide) ⟨0, 0⟩ _).2 (by
      intro wake mem
      simp only [inVainThen, List.mem_cons, List.not_mem_nil, or_false] at mem
      rcases mem with rfl | rfl <;> decide)⟩

namespace RoutineIo

/-- The same call with a `retval` of the type `int`. -/
def inInt (io : RoutineIo) : RoutineIo := { io with narrow := toInt }

/-- Every result that the call meets up to its end survives the conversion to an `int`. -/
def FitsInt (io : RoutineIo) : Int → List Wake → Prop
  | _, [] => True
  | retval, wake :: wakes =>
    if wake.events &&& io.failing ≠ 0 then True
    else if wake.events &&& io.ready ≠ 0 then
      if WouldBlock wake.answer then
        toInt wake.answer.value < 0 ∧ io.FitsInt wake.answer.value wakes
      else toInt wake.answer.value = wake.answer.value
    else toInt retval = retval

/-- From a yield on, the conversions make no difference exactly while the results survive them. -/
theorem goOn_inInt_iff (wide : io.narrow = id) (fd : Fd) (wakes : List Wake) (k : Kernel)
    (retval : Int) : io.inInt.goOn fd (k, .waiting (toInt retval)) wakes =
      io.goOn fd (k, .waiting retval) wakes ↔ io.FitsInt retval wakes := by
  have kept : ∀ answer, io.narrowed answer = answer := by
    intro answer
    rw [narrowed, wide]
    rfl
  induction wakes generalizing k retval with
  | nil => exact ⟨fun _ => trivial, fun _ => rfl⟩
  | cons wake wakes ih =>
    by_cases failing : wake.events &&& io.failing ≠ 0
    · have same : io.inInt.goOn fd (k, .waiting (toInt retval)) (wake :: wakes) =
          io.goOn fd (k, .waiting retval) (wake :: wakes) := by
        rw [goOn_fails failing]
        exact goOn_fails failing
      simp only [FitsInt, if_pos failing, same]
    · have spared := not_not.mp failing
      by_cases ready : wake.events &&& io.ready ≠ 0
      · simp only [FitsInt, if_neg failing, if_pos ready]
        have rest := ih wake.kernel wake.answer.value
        by_cases blocked : WouldBlock wake.answer
        · rw [if_pos blocked, goOn_retries spared ready (by rwa [kept]) rfl, wide]
          by_cases negative : toInt wake.answer.value < 0
          · have again : io.inInt.goOn fd (k, .waiting (toInt retval)) (wake :: wakes) = _ :=
              goOn_retries spared ready ⟨negative, blocked.2⟩ rfl
            rw [again]
            simp only [CallResult.ext_iff, List.cons.injEq, true_and, negative, ← rest, id]
            exact ⟨fun same => ⟨same.1.2, same.2⟩, fun same => ⟨⟨rfl, same.1⟩, same.2⟩⟩
          · have ended : io.inInt.goOn fd (k, .waiting (toInt retval)) (wake :: wakes) = _ :=
              goOn_settles spared ready fun again => negative again.1
            rw [ended]
            simp [CallResult.ext_iff, negative]
        · rw [if_neg blocked, goOn_settles spared ready (by rwa [kept]), kept]
          by_cases again : WouldBlock (io.inInt.narrowed wake.answer)
          · have yields : io.inInt.goOn fd (k, .waiting (toInt retval)) (wake :: wakes) = _ :=
              goOn_retries spared ready again rfl
            have changed : toInt wake.answer.value ≠ wake.answer.value := by
              intro same
              exact blocked ⟨same ▸ again.1, again.2⟩
            rw [yields]
            simp [CallResult.ext_iff, changed]
          · have ended : io.inInt.goOn fd (k, .waiting (toInt retval)) (wake :: wakes) = _ :=
              goOn_settles spared ready again
            rw [ended]
            simp only [CallResult.ext_iff, true_and, Option.some.injEq]
            constructor
            · intro same
              exact congrArg Answer.value same
            · intro same
              show settled ⟨toInt wake.answer.value, wake.answer.errno⟩ = settled wake.answer
              rw [same]
      · simp only [FitsInt, if_neg failing, if_neg ready]
        have unready := not_not.mp ready
        rw [goOn_idle spared unready]
        have idle : io.inInt.goOn fd (k, .waiting (toInt retval)) (wake :: wakes) = _ :=
          goOn_idle spared unready
        rw [idle]
        simp

/-- A whole call makes the same steps with the same result exactly if its results fit. -/
theorem call_inInt_iff (io : RoutineIo) (wide : io.narrow = id) (k : Kernel) (er : Ptr) (fd : Fd)
    (ticket : Nat) (refusal : Option Int) (answer : Answer) (wakes : List Wake) :
    io.inInt.call k er fd ticket refusal answer wakes =
        io.call k er fd ticket refusal answer wakes ↔
      (k.Accepts fd refusal → io.FitsInt 0 wakes) := by
  -- An accepted call goes on from its first yield.
  by_cases accepted : k.Accepts fd refusal
  · have rest := goOn_inInt_iff wide fd wakes
      (k.register fd ⟨io.interest, .routine er, ticket⟩) 0
    have called := io.call_accepted k fd accepted er ticket answer wakes rfl
    have narrow := io.inInt.call_accepted k fd accepted er ticket answer wakes rfl
    rw [called, narrow, imp_iff_right accepted, ← rest]
    simp only [CallResult.ext_iff, List.cons.injEq]
    exact ⟨fun same => ⟨same.1.2, same.2⟩, fun same => ⟨⟨rfl, same.1⟩, same.2⟩⟩
  · -- A refused call does not come to its first transfer.
    obtain ⟨errno, _, refused⟩ := Kernel.add_refused accepted
    simp [call, startSteps, start, efEpollAssociate, inInt, refused, goOn, accepted]

end RoutineIo

/--
A call with an `int` agrees with the sibling exactly if all results it meets fit into an `int`.

The association may be refused as well, and then there is no result.
-/
theorem recv_send_agree_iff (k : Kernel) (er : Ptr) (fd : Fd) (ticket : Nat)
    (refusal : Option Int) (answer : Answer) (wakes : List Wake) :
    (efRoutineRecv.call k er fd ticket refusal answer wakes =
        efRoutineRead.call k er fd ticket refusal answer wakes ↔
      (k.Accepts fd refusal → efRoutineRead.FitsInt 0 wakes)) ∧
    (efRoutineSend.call k er fd ticket refusal answer wakes =
        efRoutineWrite.call k er fd ticket refusal answer wakes ↔
      (k.Accepts fd refusal → efRoutineWrite.FitsInt 0 wakes)) := by
  constructor
  · exact efRoutineRead.call_inInt_iff rfl k er fd ticket refusal answer wakes
  · exact efRoutineWrite.call_inInt_iff rfl k er fd ticket refusal answer wakes

/-- A transfer of two gibibytes, for which `ef_routine_recv` returns a negative number. -/
theorem recv_disagrees :
    ¬ ∀ (k : Kernel) (er : Ptr) (fd : Fd) (ticket : Nat) (refusal : Option Int) (answer : Answer)
        (wakes : List Wake),
      (∀ wake ∈ wakes, -2 ^ 63 ≤ wake.answer.value ∧ wake.answer.value < 2 ^ 63) →
      efRoutineRecv.call k er fd ticket refusal answer wakes =
        efRoutineRead.call k er fd ticket refusal answer wakes := by
  -- The two results are computed.
  intro claimed
  have same := claimed onlyFive 400 5 0 none ⟨0, 0⟩ [⟨onlyFive, 1, ⟨2 ^ 31, 0⟩⟩] (by simp)
  have received : (efRoutineRecv.call onlyFive 400 5 0 none ⟨0, 0⟩
      [⟨onlyFive, 1, ⟨2 ^ 31, 0⟩⟩]).answer = some ⟨-2 ^ 31, 0⟩ := by
    decide
  have read : (efRoutineRead.call onlyFive 400 5 0 none ⟨0, 0⟩
      [⟨onlyFive, 1, ⟨2 ^ 31, 0⟩⟩]).answer = some ⟨2 ^ 31, 0⟩ := by
    decide
  rw [same, read] at received
  exact absurd received (by decide)

end SimpleSrv.Ef
