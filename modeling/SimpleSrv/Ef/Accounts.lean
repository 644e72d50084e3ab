import SimpleSrv.Ef.LoopInvariant

/-! An account of the runs that have been started and of the listening sockets that are open. -/

namespace SimpleSrv.Ef

/-- The runs that have been started, in start order. -/
def startedRuns (trace : List LoopEvent) : List Nat :=
  trace.filterMap fun
    | .started _ _ _ _ run => some run
    | _ => none

/-- The sockets that a listener has been set up for. -/
def listenedFds (li : Ptr) (trace : List LoopEvent) : List Fd :=
  trace.filterMap fun
    | .listened other fd => if other = li then some fd else none
    | _ => none

/-- The sockets of a listener that the loop has dissociated and closed. -/
def closedFds (li : Ptr) (trace : List LoopEvent) : List Fd :=
  trace.filterMap fun
    | .listenClosed other fd => if other = li then some fd else none
    | _ => none

/-- How often a listener has been freed. -/
def freedCount (li : Ptr) (trace : List LoopEvent) : Nat := trace.count (.listenFreed li)

section Append

variable (trace extra : List LoopEvent)

/-- What happens later starts its runs behind those of before. -/
theorem startedRuns_append :
    startedRuns (trace ++ extra) = startedRuns trace ++ startedRuns extra :=
  List.filterMap_append

/-- A later listener comes behind those that have been set up before. -/
theorem listenedFds_append (li : Ptr) :
    listenedFds li (trace ++ extra) = listenedFds li trace ++ listenedFds li extra :=
  List.filterMap_append

/-- A listener that the loop closes later comes behind those it has closed before. -/
theorem closedFds_append (li : Ptr) :
    closedFds li (trace ++ extra) = closedFds li trace ++ closedFds li extra :=
  List.filterMap_append

/-- How often a listener is freed later adds to how often it has been freed before. -/
theorem freedCount_append (li : Ptr) :
    freedCount li (trace ++ extra) = freedCount li trace + freedCount li extra :=
  List.count_append

end Append

/-- Events that start nothing and are about no listening socket. -/
inductive Passing : LoopEvent → Prop
  | queued (li : Ptr) (fd : Fd) : Passing (.queued li fd)
  | exited (er : Ptr) (run : Nat) : Passing (.exited er run)

/-- Passing events are invisible to everything but the queues and the exits. -/
theorem Passing.invisible {extra : List LoopEvent} (passing : ∀ event ∈ extra, Passing event) :
    startedRuns extra = [] ∧ (∀ li, listenedFds li extra = []) ∧ (∀ li, closedFds li extra = []) ∧
      (∀ li, freedCount li extra = 0) ∧ extra.count .pollFreed = 0 := by
  -- Each account skips both kinds of events.
  refine ⟨?_, ?_, ?_, ?_, ?_⟩
  · refine List.filterMap_eq_nil_iff.mpr fun event member => ?_
    cases passing event member <;> rfl
  · refine fun li => List.filterMap_eq_nil_iff.mpr fun event member => ?_
    cases passing event member <;> rfl
  · refine fun li => List.filterMap_eq_nil_iff.mpr fun event member => ?_
    cases passing event member <;> rfl
  · exact fun li => List.count_eq_zero.mpr fun member => by cases passing _ member
  · exact List.count_eq_zero.mpr fun member => by cases passing _ member

/-- Every run that has been started has exited or is still in use, and no two runs are the same. -/
structure RunsInv (w : World) : Prop where
  distinct : (startedRuns w.trace).Nodup
  numbered : ∀ run ∈ startedRuns w.trace, run < w.machine.number
  served : ∀ li er proc fd run, .started li er proc fd run ∈ w.trace →
    .exited er run ∈ w.trace ∨ (w.machine.pool.Busy er ∧ (w.machine.routines er).run = run)

/-- The run of a started event is one of the started runs. -/
theorem mem_startedRuns {trace : List LoopEvent} {li er proc : Ptr} {fd : Fd} {run : Nat}
    (member : .started li er proc fd run ∈ trace) : run ∈ startedRuns trace :=
  List.mem_filterMap.mpr ⟨_, member, rfl⟩

/-- Whoever stays in use keeps its run, and whoever leaves has exited. -/
theorem RunsInv.extend {w after : World} (inv : RunsInv w) {extra : List LoopEvent}
    (trace : after.trace = w.trace ++ extra) (quiet : startedRuns extra = [])
    (number : w.machine.number ≤ after.machine.number)
    (kept : ∀ er, w.machine.pool.Busy er →
      (after.machine.pool.Busy er ∧ (after.machine.routines er).run = (w.machine.routines er).run) ∨
        .exited er (w.machine.routines er).run ∈ extra) : RunsInv after := by
  -- The further events start nothing, so the runs are the same.
  have same : startedRuns after.trace = startedRuns w.trace := by
    rw [trace, startedRuns_append, quiet, List.append_nil]
  refine ⟨same ▸ inv.distinct, fun run member => ?_, fun li er proc fd run member => ?_⟩
  · have below := inv.numbered run (same ▸ member)
    omega
  · rw [trace] at member ⊢
    rcases List.mem_append.mp member with member | member
    · rcases inv.served li er proc fd run member with exited | ⟨busy, rfl⟩
      · exact .inl (List.mem_append_left _ exited)
      · -- Whoever was in use is so still, or the exit is among the further events.
        rcases kept er busy with ⟨still, runs⟩ | exited
        · exact .inr ⟨still, runs⟩
        · exact .inl (List.mem_append_right _ exited)
    · have absurd_member := mem_startedRuns member
      rw [quiet] at absurd_member
      cases absurd_member

/-- The socket of a listener that is still open. -/
def World.openSocket (w : World) (li : Ptr) : List Fd :=
  if li ∈ w.listenList ∧ 0 ≤ (w.listens li).pollData.fd then [(w.listens li).pollData.fd] else []

/-- Every listening socket is open or has been closed, and every listener is listed or freed. -/
structure SocketsInv (w : World) : Prop where
  closed : ∀ li, listenedFds li w.trace = closedFds li w.trace ++ w.openSocket li
  freed : ∀ li, (listenedFds li w.trace).length =
    freedCount li w.trace + if li ∈ w.listenList then 1 else 0

/-- Steps without an event about a listening socket leave all of them as they are. -/
theorem SocketsInv.extend {w after : World} (inv : SocketsInv w) {extra : List LoopEvent}
    (trace : after.trace = w.trace ++ extra) (listened : ∀ li, listenedFds li extra = [])
    (closed : ∀ li, closedFds li extra = []) (freed : ∀ li, freedCount li extra = 0)
    (listenList : after.listenList = w.listenList)
    (pollData : ∀ li, (after.listens li).pollData = (w.listens li).pollData) :
    SocketsInv after := by
  -- The further events are about no listening socket, so each account is the same.
  have sameListened : ∀ li, listenedFds li after.trace = listenedFds li w.trace := by
    intro li
    rw [trace, listenedFds_append, listened, List.append_nil]
  have sameClosed : ∀ li, closedFds li after.trace = closedFds li w.trace := by
    intro li
    rw [trace, closedFds_append, closed, List.append_nil]
  have sameFreed : ∀ li, freedCount li after.trace = freedCount li w.trace := by
    intro li
    rw [trace, freedCount_append, freed, Nat.add_zero]
  refine ⟨fun li => ?_, fun li => ?_⟩
  · rw [sameListened, sameClosed, World.openSocket, listenList, pollData]
    exact inv.closed li
  · rw [sameListened, sameFreed, listenList]
    exact inv.freed li

/-- Events of the loop that closes the listening sockets. -/
inductive Stopping : LoopEvent → Prop
  | closed (li : Ptr) (fd : Fd) : Stopping (.listenClosed li fd)
  | freed (li : Ptr) : Stopping (.listenFreed li)

/-- What the loop that closes the listening sockets leaves alone. -/
structure StoppedFrom (w after : World) : Prop where
  pool : after.machine.pool = w.machine.pool
  routines : after.machine.routines = w.machine.routines
  number : after.machine.number = w.machine.number
  clock : after.machine.clock = w.machine.clock
  trace : ∃ extra, after.trace = w.trace ++ extra ∧ ∀ event ∈ extra, Stopping event

namespace StoppedFrom

/-- Doing nothing leaves everything alone. -/
theorem refl (w : World) : StoppedFrom w w := ⟨rfl, rfl, rfl, rfl, [], by simp, by simp⟩

/-- Two parts of that loop leave alone what both of them do. -/
theorem trans {a b c : World} (first : StoppedFrom a b) (second : StoppedFrom b c) :
    StoppedFrom a c := by
  -- The events of the second part follow those of the first.
  obtain ⟨extra, traced, stops⟩ := first.trace
  obtain ⟨more, tracedMore, stopsMore⟩ := second.trace
  refine ⟨second.pool.trans first.pool, second.routines.trans first.routines,
    second.number.trans first.number, second.clock.trans first.clock, extra ++ more, ?_, ?_⟩
  · rw [tracedMore, traced, List.append_assoc]
  · intro event member
    exact (List.mem_append.mp member).elim (stops event) (stopsMore event)

/-- Closing a listening socket changes no coroutine. -/
theorem closeListen (w : World) (li : Ptr) : StoppedFrom w (w.closeListen li) := by
  -- A socket that has been closed is not closed again.
  by_cases open_ : (w.listens li).pollData.fd ≥ 0
  · rw [World.closeListen, if_pos open_]
    refine ⟨rfl, rfl, rfl, rfl, [.listenClosed li (w.listens li).pollData.fd], rfl, ?_⟩
    intro event member
    obtain rfl := List.mem_singleton.mp member
    exact .closed _ _
  · rw [World.closeListen, if_neg open_]
    exact .refl w

/-- Freeing a listener changes no coroutine. -/
theorem freeListen (w : World) (li : Ptr) : StoppedFrom w (w.freeListen li) := by
  -- A listener with connections in its queue is not freed.
  by_cases empty : (w.listens li).fdList = []
  · rw [World.freeListen, if_pos empty]
    refine ⟨rfl, rfl, rfl, rfl, [.listenFreed li], rfl, ?_⟩
    intro event member
    obtain rfl := List.mem_singleton.mp member
    exact .freed _
  · rw [World.freeListen, if_neg empty]
    exact .refl w

/-- The whole loop changes no coroutine. -/
theorem stopListens (w : World) : StoppedFrom w w.stopListens := by
  -- Each turn of the loop appends its own events, so the induction is on the list it walks over.
  have walk : ∀ (todo : List Ptr) (w : World), StoppedFrom w (todo.foldl World.stopListen w) := by
    intro todo
    induction todo with
    | nil => exact fun w => .refl w
    | cons li rest ih =>
      intro w
      exact ((closeListen w li).trans (freeListen _ li)).trans (ih _)
  exact walk w.listenList w

end StoppedFrom

/-- That loop starts nothing and frees no poll object. -/
theorem Stopping.invisible {extra : List LoopEvent} (stops : ∀ event ∈ extra, Stopping event) :
    startedRuns extra = [] ∧ extra.count .pollFreed = 0 := by
  -- Both kinds of events are about listeners.
  refine ⟨List.filterMap_eq_nil_iff.mpr fun event member => ?_, ?_⟩
  · cases stops event member <;> rfl
  · exact List.count_eq_zero.mpr fun member => by cases stops _ member

namespace RunsInv

variable {w : World}

/-- Starting a coroutine gives it a run that nobody has had. -/
theorem starts (inv : RunsInv w) (loop : WorldInv w) {li qf : Ptr} {mapped : Option Ptr}
    (fresh : w.machine.pool.Fresh mapped) {pool : Pool} {er : Ptr}
    (effect : Created w.machine.pool efProcAddress 0 mapped (pool, some er)) :
    RunsInv (w.started li qf pool er) := by
  -- The new run has the number of this switch, which is above all earlier ones.
  obtain ⟨idle, busy, _⟩ := loop.machine.pool.created_busy fresh effect
  have runs : startedRuns (w.started li qf pool er).trace =
      startedRuns w.trace ++ [w.machine.number] := by
    simp [World.started, startedRuns]
  have number : (w.started li qf pool er).machine.number = w.machine.number + 1 := rfl
  refine ⟨?_, ?_, ?_⟩
  · rw [runs, List.nodup_append]
    refine ⟨inv.distinct, List.nodup_singleton _, ?_⟩
    intro run member other new same
    have below := inv.numbered run member
    rw [List.mem_singleton] at new
    omega
  · intro run member
    rw [runs, List.mem_append, List.mem_singleton] at member
    rw [number]
    rcases member with member | rfl
    · have below := inv.numbered run member
      omega
    · omega
  · intro other theirs proc fd run member
    rcases List.mem_append.mp member with member | member
    · rcases inv.served other theirs proc fd run member with exited | ⟨inUse, rfl⟩
      · exact .inl (List.mem_append_left _ exited)
      · -- Whoever was in use before is not the one that is started.
        have apart : theirs ≠ er := fun same => idle (same ▸ inUse)
        refine .inr ⟨(busy theirs).mpr (.inl inUse), ?_⟩
        simp [World.started, Machine.started, Machine.wake, Machine.modify_routines, apart]
    · -- The event is that of the coroutine that has just been started.
      simp only [List.mem_singleton, LoopEvent.started.injEq] at member
      obtain ⟨_, rfl, _, _, rfl⟩ := member
      refine .inr ⟨(busy theirs).mpr (.inr rfl), ?_⟩
      simp [World.started, Machine.started, Machine.wake, Machine.modify_routines, Routine.goOn]

/-- Steps that take nobody out of use and start nobody keep the runs in order. -/
theorem same (inv : RunsInv w) {after : World} (trace : after.trace = w.trace)
    (number : w.machine.number ≤ after.machine.number)
    (kept : ∀ er, w.machine.pool.Busy er → after.machine.pool.Busy er ∧
      (after.machine.routines er).run = (w.machine.routines er).run) : RunsInv after := by
  -- The further events are none.
  have traced : after.trace = w.trace ++ [] := by rw [trace, List.append_nil]
  exact inv.extend traced rfl number fun er busy => .inl (kept er busy)

/-- A handler that returns leaves the exit of its run on record. -/
theorem handlerMove (inv : RunsInv w) (loop : WorldInv w) {op : HandlerOp} {er : Ptr} {pool : Pool}
    {kernel : Kernel} {record : Routine} (current : efCoroutineCurrent w.machine.pool = some er)
    (move : HandlerMove w.machine er op pool kernel record) :
    RunsInv { w with
      machine := w.machine.moved er pool kernel record
      trace := w.trace ++ w.machine.exitedEvents op } := by
  -- A coroutine other than the running one keeps its use and its run.
  obtain ⟨_, _, others, _⟩ := move.pool_kept loop.machine current
  have busy := loop.machine.current_busy current
  have running := (loop.machine.routines er busy).running current
  have quiet : startedRuns (w.machine.exitedEvents op) = [] := by
    cases op with
    | ret retval => simp [Machine.exitedEvents, current, startedRuns]
    | transfer | connect | goOn | close | socket => rfl
  refine inv.extend rfl quiet (Nat.le_succ _) fun other inUse => ?_
  by_cases apart : other = er
  · subst apart
    have run : record.run = (w.machine.routines other).run := by cases move <;> rfl
    have mine : (w.machine.moved other pool kernel record).routines other = record := by
      simp [Machine.moved, Machine.modify_routines]
    -- Only the return takes the coroutine out of use.
    cases move with
    | finishes retval handler =>
      refine .inr ?_
      simp [Machine.exitedEvents, current]
    | registers => exact .inl ⟨busy, by rw [mine, run]⟩
    | returns => exact .inl ⟨busy, by rw [mine, run]⟩
    | retries => exact .inl ⟨busy, by rw [mine, run]⟩
    | completes => exact .inl ⟨busy, by rw [mine, run]⟩
    | closes => exact .inl ⟨busy, by rw [mine, run]⟩
    | opens => exact .inl ⟨busy, by rw [mine, run]⟩
  · refine .inl ⟨(others other inUse apart).1, ?_⟩
    simp [Machine.moved, Machine.modify_routines, apart]

/-- The code behind the label `exit_queue` takes nobody out of use. -/
theorem exitQueue (inv : RunsInv w) (loop : WorldInv w) : RunsInv w.exitQueue := by
  -- Only the shrinks touch the pool, behind the loop that closes the sockets.
  unfold World.exitQueue
  split
  · have left := StoppedFrom.stopListens w
    obtain ⟨extra, traced, stops⟩ := left.trace
    obtain ⟨quiet, _⟩ := Stopping.invisible stops
    -- Either shrink deletes free coroutines only.
    have kept : ∀ maxCount er, w.machine.pool.Busy er →
        (efCoroutinePoolShrink w.stopListens.machine.pool 0 maxCount
          w.stopListens.machine.clock).1.Busy er ∧
        (w.stopListens.machine.routines er).run = (w.machine.routines er).run := by
      intro maxCount er busy
      rw [left.pool, left.routines]
      exact ⟨((loop.machine.shrunk 0 maxCount _).2.1 er).mpr busy, rfl⟩
    have number : w.machine.number ≤ w.stopListens.machine.number := left.number.ge
    simp only
    split
    · have traced : w.stopListens.trace ++ [LoopEvent.pollFreed] =
          w.trace ++ (extra ++ [LoopEvent.pollFreed]) := by
        rw [traced, List.append_assoc]
      refine inv.extend traced ?_ number fun er busy => .inl (kept _ er busy)
      rw [startedRuns_append, quiet]
      rfl
    · exact inv.extend traced quiet number fun er busy => .inl (kept _ er busy)
  · exact inv.same rfl (Nat.le_refl _) fun er busy => ⟨busy, rfl⟩

/-- Every move of the loop keeps the runs in order. -/
theorem loopMove (inv : RunsInv w) (loop : WorldInv w) {op : LoopOp} {after : World}
    (fresh : ∀ mapped, op = .start mapped → w.machine.pool.Fresh mapped)
    (move : LoopMove w op after) : RunsInv after := by
  -- Most moves change neither who is in use nor a run.
  have stays : ∀ er, w.machine.pool.Busy er → w.machine.pool.Busy er ∧
      (w.machine.routines er).run = (w.machine.routines er).run := fun _ busy => ⟨busy, rfl⟩
  cases move with
  | starts li qf mapped pool er at_ effect => exact inv.starts loop (fresh mapped rfl) effect
  | stops at_ stopping => exact inv.exitQueue loop
  | reuses li batch fd answers qf rest at_ unused shape =>
    exact inv.extend rfl rfl (Nat.le_refl _) fun er busy => .inl (stays er busy)
  | allocates li batch fd answers qf at_ unused empty new =>
    exact inv.extend rfl rfl (Nat.le_refl _) fun er busy => .inl (stays er busy)
  | listens socket proc setfl li at_ numbered unlisted =>
    exact inv.extend rfl rfl (Nat.le_refl _) fun er busy => .inl (stays er busy)
  | wakes er event batch at_ points =>
    refine inv.same rfl (Nat.le_succ _) fun other busy => ⟨busy, ?_⟩
    -- A coroutine that is woken goes on in the same run.
    simp only [Machine.wake, Machine.modify_routines, Routine.goOn]
    split
    · rename_i same
      subst same
      split <;> rfl
    · rfl
  | shrinks at_ =>
    unfold World.shrink
    simp only
    split
    · exact inv.same rfl (Nat.le_refl _) fun er busy =>
        ⟨((loop.machine.shrunk _ _ _).2.1 er).mpr busy, rfl⟩
    · exact inv.same rfl (Nat.le_refl _) stays
  | jumps | associates | refuses | drops | recycles => exact inv.same rfl (Nat.le_refl _) stays

end RunsInv

namespace SocketsInv

variable {w : World}

/-- Steps without an event change nothing about the listening sockets. -/
theorem same (inv : SocketsInv w) {after : World} (trace : after.trace = w.trace)
    (listenList : after.listenList = w.listenList)
    (pollData : ∀ li, (after.listens li).pollData = (w.listens li).pollData) :
    SocketsInv after := by
  -- The further events are none.
  have traced : after.trace = w.trace ++ [] := by rw [trace, List.append_nil]
  exact inv.extend traced (fun _ => rfl) (fun _ => rfl) (fun _ => rfl) listenList pollData

/-- A listener that is set up has one more open socket. -/
theorem listened (inv : SocketsInv w) {socket : Fd} {proc li : Ptr} (numbered : 0 ≤ socket)
    (unlisted : li ∉ w.listenList) : SocketsInv (w.listened socket proc li) := by
  -- The listener was on no list, so all of its former sockets have been closed.
  refine ⟨fun other => ?_, fun other => ?_⟩
  · have closed := inv.closed other
    by_cases here : other = li
    · subst here
      simp only [World.openSocket, unlisted, false_and, if_false, List.append_nil] at closed
      simp [World.listened, World.openSocket, listenedFds, closedFds, numbered] at closed ⊢
      exact closed
    · simpa [World.listened, World.openSocket, listenedFds, closedFds, here, Ne.symm here]
        using closed
  · have freed := inv.freed other
    by_cases here : other = li
    · subst here
      simp only [unlisted, if_false, Nat.add_zero] at freed
      simpa [World.listened, listenedFds, freedCount] using freed
    · simpa [World.listened, listenedFds, freedCount, here, Ne.symm here] using freed

/-- Closing the socket of a listener moves it from the open ones to the closed ones. -/
theorem closeListen (inv : SocketsInv w) {li : Ptr} (listed : li ∈ w.listenList) :
    SocketsInv (w.closeListen li) ∧ ((w.closeListen li).listens li).pollData.fd < 0 := by
  -- The socket is the last of those that the listener was set up for.
  by_cases open_ : (w.listens li).pollData.fd ≥ 0
  · rw [World.closeListen, if_pos open_]
    refine ⟨⟨fun other => ?_, fun other => ?_⟩, ?_⟩
    · have closed := inv.closed other
      by_cases here : other = li
      · subst here
        simpa [World.modifyListen, World.withKernel, World.openSocket, listenedFds, closedFds,
          listed, open_] using closed
      · simpa [World.modifyListen, World.withKernel, World.openSocket, listenedFds, closedFds, here,
          Ne.symm here] using closed
    · have freed := inv.freed other
      simp [World.modifyListen, World.withKernel, listenedFds, freedCount] at freed ⊢
      exact freed
    · simp [World.modifyListen, World.withKernel]
  · rw [World.closeListen, if_neg open_]
    exact ⟨inv, Int.not_le.mp open_⟩

/-- A listener is freed only when its socket has been closed. -/
theorem freeListen (inv : SocketsInv w) {li : Ptr} (listed : li ∈ w.listenList)
    (nodup : w.listenList.Nodup) (shut : (w.listens li).pollData.fd < 0) :
    SocketsInv (w.freeListen li) := by
  -- A closed socket is not open, listed or not.
  unfold World.freeListen
  split
  · refine ⟨fun other => ?_, fun other => ?_⟩
    · have closed := inv.closed other
      by_cases here : other = li
      · subst here
        simpa [World.openSocket, listenedFds, closedFds, nodup.mem_erase_iff,
          Int.not_le.mpr shut] using closed
      · simpa [World.openSocket, listenedFds, closedFds, nodup.mem_erase_iff, here] using closed
    · have freed := inv.freed other
      by_cases here : other = li
      · subst here
        simpa [listenedFds, freedCount, nodup.mem_erase_iff, listed] using freed
      · simpa [listenedFds, freedCount, nodup.mem_erase_iff, here, Ne.symm here,
          List.count_singleton] using freed
  · exact inv

/-- The loop that closes the listening sockets closes each open one. -/
theorem stopListens (inv : SocketsInv w) (loop : WorldInv w)
    (idle : efCoroutineCurrent w.machine.pool = none) (at_ : w.pc = .exitQueue) :
    SocketsInv w.stopListens := by
  -- Each turn closes the socket before it frees the listener.
  have turn : ∀ {w : World} {li : Ptr}, WorldInv w → efCoroutineCurrent w.machine.pool = none →
      w.pc = .exitQueue → li ∈ w.listenList → SocketsInv w → SocketsInv (w.stopListen li) := by
    intro w li loop _ _ listed inv
    obtain ⟨kept, shut⟩ := inv.closeListen listed
    obtain ⟨same, _⟩ := w.closeListen_lists li
    exact kept.freeListen (same ▸ listed) (same ▸ loop.nodup) shut
  exact (WorldInv.foldl_stopListen turn loop idle at_ loop.nodup (fun _ member => member) inv).2.2.2

/-- The code behind the label `exit_queue` keeps the account of the listening sockets. -/
theorem exitQueue (inv : SocketsInv w) (loop : WorldInv w)
    (idle : efCoroutineCurrent w.machine.pool = none) (at_ : w.pc = .exitQueue) :
    SocketsInv w.exitQueue := by
  -- Behind that loop no event is about a listening socket.
  unfold World.exitQueue
  split
  · have stopped := inv.stopListens loop idle at_
    simp only
    split
    · exact stopped.extend rfl (fun _ => rfl) (fun _ => rfl) (fun _ => rfl) rfl fun _ => rfl
    · exact stopped.same rfl rfl fun _ => rfl
  · exact inv.same rfl rfl fun _ => rfl

/-- Every move of the loop keeps the account of the listening sockets. -/
theorem loopMove (inv : SocketsInv w) (loop : WorldInv w)
    (idle : efCoroutineCurrent w.machine.pool = none) {op : LoopOp} {after : World}
    (move : LoopMove w op after) : SocketsInv after := by
  -- Writes to a queue leave the poll data of its listener alone.
  have queueing : ∀ (li : Ptr) (change : List Ptr → List Ptr) (other : Ptr),
      (Function.update w.listens li
        { w.listens li with fdList := change (w.listens li).fdList } other).pollData =
        (w.listens other).pollData := by
    intro li change other
    -- The write goes to one listener and changes its queue.
    simp only [Function.update_apply]
    split
    · rename_i same
      rw [same]
    · rfl
  cases move with
  | listens socket proc setfl li at_ numbered unlisted => exact inv.listened numbered unlisted
  | reuses li batch fd answers qf rest at_ unused shape =>
    exact inv.extend rfl (fun _ => rfl) (fun _ => rfl) (fun _ => rfl) rfl (queueing li (· ++ [qf]))
  | allocates li batch fd answers qf at_ unused empty new =>
    exact inv.extend rfl (fun _ => rfl) (fun _ => rfl) (fun _ => rfl) rfl (queueing li (· ++ [qf]))
  | starts li qf mapped pool er at_ effect =>
    exact inv.extend rfl (fun _ => rfl) (fun _ => rfl) (fun _ => rfl) rfl fun _ => rfl
  | recycles li qf enf at_ => exact inv.same rfl rfl (queueing li (·.erase qf))
  | stops at_ stopping => exact inv.exitQueue loop idle at_
  | shrinks at_ =>
    unfold World.shrink
    simp only
    split <;> exact inv.same rfl rfl fun _ => rfl
  | jumps | associates | refuses | drops | wakes => exact inv.same rfl rfl fun _ => rfl

end SocketsInv

end SimpleSrv.Ef
