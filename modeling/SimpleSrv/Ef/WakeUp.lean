import SimpleSrv.Ef.OwnedLoop

/-! Every waiting coroutine is registered once, and every event wakes the wait it was made for. -/

namespace SimpleSrv.Ef

/-- The handlers use only descriptors of their own and leave their connection open. -/
def TidyOk (w : World) (label : Label) : Prop :=
  UserOk w label ∧
    match label with
    | .handler op => ∀ er ∈ efCoroutineCurrent w.machine.pool,
      op ≠ .close (w.machine.routines er).connFd
    | .tick _ | .stop | .loop _ => True

instance (w : World) : (label : Label) → Decidable (TidyOk w label)
  | .handler op => inferInstanceAs (Decidable (UserOk w (.handler op) ∧
      ∀ er ∈ efCoroutineCurrent w.machine.pool, op ≠ .close (w.machine.routines er).connFd))
  | .tick now => inferInstanceAs (Decidable (UserOk w (.tick now) ∧ True))
  | .stop => inferInstanceAs (Decidable (UserOk w .stop ∧ True))
  | .loop op => inferInstanceAs (Decidable (UserOk w (.loop op) ∧ True))

/-- No handler has closed its connection. -/
def TidyInv (w : World) : Prop :=
  ∀ er, w.machine.pool.Busy er → (w.machine.routines er).closedConn = false

namespace TidyInv

variable {w : World}

/-- Steps that start nobody and write to no record close no connection. -/
theorem same (inv : TidyInv w) {after : World}
    (busy : ∀ er, after.machine.pool.Busy er → w.machine.pool.Busy er)
    (routines : after.machine.routines = w.machine.routines) : TidyInv after := by
  -- The same records are asked for fewer coroutines.
  intro er inUse
  rw [routines]
  exact inv er (busy er inUse)

/-- The loop closes no connection that a coroutine has got. -/
theorem loopMove (inv : TidyInv w) (loop : WorldInv w) {op : LoopOp} {after : World}
    (fresh : ∀ mapped, op = .start mapped → w.machine.pool.Fresh mapped)
    (move : LoopMove w op after) : TidyInv after := by
  -- Most moves change neither who is in use nor a record.
  cases move with
  | starts li qf mapped pool er at_ effect =>
    obtain ⟨_, busy, _⟩ := loop.machine.pool.created_busy (fresh mapped rfl) effect
    intro other inUse
    -- A new coroutine begins with an open connection.
    by_cases same : other = er
    · simp [World.started, Machine.started, Machine.wake, Machine.modify_routines, same,
        Routine.goOn]
    · have older := ((busy other).mp inUse).resolve_right same
      simpa [World.started, Machine.started, Machine.wake, Machine.modify_routines, same]
        using inv other older
  | wakes er event batch at_ points =>
    intro other inUse
    simp only [Machine.wake, Machine.modify_routines, Routine.goOn]
    split
    · rename_i same
      subst same
      -- Going on in a call does not close the connection.
      have open_ := inv other inUse
      split <;> exact open_
    · exact inv other inUse
  | stops at_ stopping =>
    have left := StoppedFrom.stopListens w
    have kept : ∀ maxCount er, (efCoroutinePoolShrink w.stopListens.machine.pool 0 maxCount
        w.stopListens.machine.clock).1.Busy er → w.machine.pool.Busy er := by
      intro maxCount er busy
      rw [left.pool] at busy
      exact ((loop.machine.shrunk 0 maxCount _).2.1 er).mp busy
    rw [World.exitQueue, if_pos stopping]
    simp only
    split <;> exact inv.same (kept _) left.routines
  | shrinks at_ =>
    unfold World.shrink
    simp only
    split
    · exact inv.same (fun er busy => ((loop.machine.shrunk _ _ _).2.1 er).mp busy) rfl
    · exact inv
  | jumps | listens | associates | refuses | drops | reuses | allocates | recycles => exact inv

/-- A tidy handler does not close its connection. -/
theorem handlerMove (inv : TidyInv w) (loop : WorldInv w) {op : HandlerOp} {er : Ptr} {pool : Pool}
    {kernel : Kernel} {record : Routine} (current : efCoroutineCurrent w.machine.pool = some er)
    (move : HandlerMove w.machine er op pool kernel record)
    (tidy : op ≠ .close (w.machine.routines er).connFd) (trace : List LoopEvent) :
    TidyInv { w with machine := w.machine.moved er pool kernel record, trace := trace } := by
  -- Only a close marks a connection as closed, and only its own.
  obtain ⟨_, older, _, _⟩ := move.pool_kept loop.machine current
  have mine := inv er (loop.machine.current_busy current)
  intro other inUse
  simp only [Machine.moved, Machine.modify_routines]
  split
  · cases move with
    | closes fd handler =>
      have apart : fd ≠ (w.machine.routines er).connFd := fun same => tidy (by rw [same])
      simp [mine, apart]
    | registers | returns | retries | completes | opens | finishes => exact mine
  · exact inv other (older other inUse)

/-- Every tidy step keeps every connection open. -/
theorem step (inv : TidyInv w) (loop : WorldInv w) {label : Label} (ok : TidyOk w label)
    {after : World} (stepped : SimpleSrv.Ef.step w label = some after) : TidyInv after := by
  -- The labels are taken one by one.
  cases label with
  | tick now =>
    obtain rfl := Option.some.inj stepped
    exact inv
  | stop =>
    obtain rfl := Option.some.inj stepped
    exact inv
  | loop op =>
    obtain ⟨idle, stepped⟩ := Option.ite_none_right_eq_some.mp stepped
    have fresh : ∀ mapped, op = .start mapped → w.machine.pool.Fresh mapped := by
      rintro mapped rfl
      exact ok.1.1
    exact inv.loopMove loop fresh (loop.loopStep_move idle fresh stepped)
  | handler op =>
    obtain ⟨machine, moved, rfl⟩ := Option.map_eq_some_iff.mp stepped
    obtain ⟨er, pool, kernel, record, current, move, rfl⟩ := loop.machine.handlerStep_move moved
    exact inv.handlerMove loop current move (ok.2 er current) _

/-- A handler that has left its connection open may always return. -/
theorem permits (inv : TidyInv w) (loop : WorldInv w) {label : Label} (ok : TidyOk w label) :
    OwnershipOk w label := by
  -- The condition on a return is void as long as the connection is open.
  refine ⟨ok.1, ?_⟩
  cases label with
  | tick | stop | loop => trivial
  | handler op =>
    intro er current
    cases op with
    | ret retval =>
      intro closed
      rw [inv er (loop.machine.current_busy current)] at closed
      cases closed
    | transfer | connect | goOn | close | socket => trivial

end TidyInv

/-- What holds of the loop while its handlers are tidy. -/
structure TidyServerInv (w : World) : Prop where
  loop : WorldInv w
  tidy : TidyInv w

/-- A run with tidy handlers keeps all the owners in order. -/
theorem Setting.tidyInv (setting : Setting) {labels : List Label} {w : World}
    (run : Run SimpleSrv.Ef.step TidyOk setting.world labels w) : OwnedInv w := by
  -- Tidy steps are permitted ones, so that the run is one of those known already.
  have start : TidyServerInv setting.world :=
    ⟨.initial setting, fun er busy => absurd busy.1 List.not_mem_nil⟩
  refine setting.ownedInv (run.strengthen start ?_ ?_)
  · intro _ _ _ inv ok stepped
    exact ⟨inv.loop.step ok.1.1 stepped, inv.tidy.step inv.loop ok stepped⟩
  · intro _ _ _ inv ok _
    exact inv.tidy.permits inv.loop ok

/-- The coroutine is suspended in this call, which has registered its descriptor and number. -/
def Machine.SuspendedIn (m : Machine) (er : Ptr) (call : RoutineCall) (ticket : Nat) : Prop :=
  (∃ retval, (m.routines er).stage = .waiting call retval ticket) ∧
    ∃ number, (m.pool.fiberSched.fibers er).stackPtr = some ⟨er, .yielding number⟩

/--
Every coroutine in use is registered for the one call it waits in, over every run of the loop.

At each wait of the poll every such coroutine has exactly one entry, for its own descriptor.
No other entry belongs to a connection.
Each event is about a coroutine that is still suspended in the wait that made its entry.
-/
theorem waiting_registered (setting : Setting) {labels : List Label} {w : World}
    (run : Run step TidyOk setting.world labels w) :
    (w.pc = .wait →
      (∀ er, w.machine.pool.Busy er → ∃ call ticket events,
        w.machine.SuspendedIn er call ticket ∧
        (w.machine.routines er).pollData.fd = call.fd ∧
        w.machine.kernel.interest call.fd = some ⟨events, .routine er, ticket⟩ ∧
        ∀ fd entry, w.machine.kernel.interest fd = some entry → entry.ptr = .routine er →
          fd = call.fd) ∧
      ∀ fd entry, w.machine.kernel.interest fd = some entry →
        (w.pollData entry.ptr).type = .rwc → ∃ er, entry.ptr = .routine er ∧
          w.machine.pool.Busy er) ∧
    ∀ event batch, w.pc = .dispatch (event :: batch) → (w.pollData event.ptr).type = .rwc →
      ∃ er call, event.ptr = .routine er ∧ (w.pollData event.ptr).routinePtr = er ∧
        w.machine.pool.Busy er ∧ efCoroutineCurrent w.machine.pool ≠ some er ∧
        (w.machine.pool.fiberSched.fibers er).status = fiberStatusInited ∧
        w.machine.SuspendedIn er call event.ticket := by
  -- The statement is read off the invariants of the loop and of the owners.
  obtain ⟨⟨loop, _⟩, owners⟩ := setting.tidyInv run
  refine ⟨fun boundary => ⟨fun er busy => ?_, fun fd entry found type => ?_⟩,
    fun event batch at_ type => ?_⟩
  · -- At a wait nobody runs, so whoever is in use has yielded in a call.
    have idle : efCoroutineCurrent w.machine.pool ≠ some er := by
      intro runs
      rcases loop.runner (by rw [runs]; simp) with ⟨_, at_⟩ | ⟨_, _, _, at_⟩ <;>
        cases boundary.symm.trans at_
    obtain ⟨fits, _, suspended⟩ := loop.machine.routines er busy
    obtain ⟨call, retval, ticket, number, waiting, saved⟩ := suspended idle
    have waitsFor : (w.machine.routines er).stage.waitsFor = some (call.fd, ticket) := by
      rw [waiting]
      rfl
    obtain ⟨_, events, registered⟩ := (owners.routines er busy).waits call.fd ticket waitsFor
    refine ⟨call, ticket, events, ⟨⟨retval, waiting⟩, number, saved⟩,
      fits.aimed call.fd ticket waitsFor, registered, ?_⟩
    intro fd entry found points
    obtain ⟨_, other⟩ := loop.machine.entries fd entry er found points
    rw [waitsFor, Option.some.injEq, Prod.mk.injEq] at other
    exact other.1.symm
  · cases points : entry.ptr with
    | routine er => exact ⟨er, rfl, (loop.machine.entries fd entry er found points).1⟩
    | listen li =>
      -- The entries of listeners have poll data of the other type.
      obtain ⟨listed, _⟩ := loop.entries fd entry li found points
      rw [points, World.pollData, loop.types li listed] at type
      cases type
  · have ok := loop.batch
    rw [at_] at ok
    cases points : event.ptr with
    | listen li =>
      rw [points, World.pollData, loop.types li (ok.listens event List.mem_cons_self li points)]
        at type
      cases type
    | routine er =>
      obtain ⟨busy, idle, fd, waitsFor⟩ := ok.waits event List.mem_cons_self er points
      obtain ⟨fits, _, suspended⟩ := loop.machine.routines er busy
      obtain ⟨call, retval, ticket, number, waiting, saved⟩ := suspended idle
      rw [waiting] at waitsFor
      obtain ⟨rfl, rfl⟩ := Prod.mk.inj (Option.some.inj waitsFor)
      exact ⟨er, call, rfl, fits.self, busy, idle,
        loop.machine.pool.inited_of_not_free busy.1 busy.2, ⟨retval, waiting⟩, number, saved⟩

/-- Two connections, with an event for the second one before the first one's. -/
def twoReaders : List Label :=
  oneListener ++
    [.loop (.wait (.reported [(3, 1)])), .loop .advance,
      .loop (.accept (.accepted 5 ⟨true, 0, some 300⟩)),
      .loop (.accept (.accepted 6 ⟨true, 0, some 301⟩)), .loop (.accept .failed)] ++
    advances 2 ++ [.loop (.start (some 400)), .handler (.transfer .read 5 none ⟨0, 0⟩),
      .loop .advance, .loop (.start (some 401)), .handler (.transfer .read 6 none ⟨0, 0⟩)] ++
    advances 5 ++ [.loop (.wait (.reported [(6, 1), (5, 1)]))]

/-- The first event wakes the reader of the second connection from the wait that registered it. -/
theorem waiting_registered_two :
    ∃ w event batch, Run step TidyOk twoCoroutines.world twoReaders w ∧
      w.pc = .dispatch (event :: batch) ∧ w.machine.pool.Busy 401 ∧
      ∃ call, w.machine.SuspendedIn 401 call event.ticket := by
  -- The run is computed up to the events, and the rest is the theorem.
  have facts : (execute step TidyOk twoCoroutines.world twoReaders).map (fun w =>
      (w.pc, (w.pollData (.routine 401)).type)) =
        some (.dispatch [⟨1, .routine 401, 3⟩, ⟨1, .routine 400, 1⟩], .rwc) := by
    decide
  obtain ⟨w, ran, same⟩ := Option.map_eq_some_iff.mp facts
  simp only [Prod.mk.injEq] at same
  obtain ⟨er, call, points, _, busy, _, _, suspended⟩ :=
    (waiting_registered twoCoroutines (.of_execute ran)).2 _ _ same.1 same.2
  obtain rfl := PollPtr.routine.inj points
  exact ⟨w, _, _, .of_execute ran, same.1, busy, call, suspended⟩

end SimpleSrv.Ef
