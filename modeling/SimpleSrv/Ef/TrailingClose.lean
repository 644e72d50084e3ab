import SimpleSrv.Ef.OwnedLoop

/-! The close at the end of `ef_proc` meets the connection itself, or a number that may be taken. -/

namespace SimpleSrv.Ef

/-- The close at the end of `ef_proc` would meet a queued connection or another coroutine's. -/
def Machine.ClosesForeign (m : Machine) (er : Ptr) : Prop :=
  m.kernel.owner (m.routines er).connFd = some .queued ∨
    ∃ other, other ≠ er ∧ m.kernel.owner (m.routines er).connFd = some (.routine other)

/-- Whoever owns what it needs closes nothing foreign exactly when it may return. -/
theorem Machine.Owns.closes_iff {m : Machine} {er : Ptr} (owns : m.Owns er) :
    ¬ m.ClosesForeign er ↔ m.MayReturn er := by
  -- An open connection is the coroutine's own, so only a closed one makes a difference.
  constructor
  · intro spared _
    -- The cases are all there is to know about the number.
    cases found : m.kernel.owner (m.routines er).connFd with
    | none => exact .inl rfl
    | some owner =>
      cases owner with
      | listener => exact absurd found owns.unlike
      | queued => exact absurd (.inl found) spared
      | other => exact .inr (.inr rfl)
      | routine other =>
        by_cases same : other = er
        · exact .inr (.inl (by rw [same]))
        · exact absurd (.inr ⟨other, same, found⟩) spared
  · intro returns foreign
    -- Whoever the number belongs to, it is neither this coroutine nor a stray descriptor.
    obtain ⟨owner, found, mine, stray⟩ : ∃ owner,
        m.kernel.owner (m.routines er).connFd = some owner ∧ owner ≠ .routine er ∧
          owner ≠ .other := by
      rcases foreign with queued | ⟨other, apart, found⟩
      · exact ⟨.queued, queued, by simp, by simp⟩
      · exact ⟨.routine other, found, fun same => apart (Owner.routine.inj same), by simp⟩
    -- An open connection is the coroutine's own, so the number has been closed before.
    have closed : (m.routines er).closedConn = true := by
      by_contra still
      have own := owns.conn (by simpa using still)
      exact mine (Option.some.inj (found.symm.trans own))
    rcases returns closed with shut | own | other
    · cases shut.symm.trans found
    · exact mine (Option.some.inj (found.symm.trans own))
    · exact stray (Option.some.inj (found.symm.trans other))

/-- The handlers use only descriptors of their own, and no trailing close meets a foreign one. -/
def SparingOk (w : World) (label : Label) : Prop :=
  UserOk w label ∧
    match label with
    | .handler (.ret _) => ∀ er ∈ efCoroutineCurrent w.machine.pool, ¬ w.machine.ClosesForeign er
    | _ => True

/-- No trailing close of a run meets a foreign descriptor exactly if every return is permitted. -/
theorem sparing_iff_ownership (setting : Setting) (labels : List Label) (w : World) :
    Run step SparingOk setting.world labels w ↔ Run step OwnershipOk setting.world labels w := by
  -- In both directions the invariant tells what each return meets.
  constructor
  · -- The runs are compared step by step, from the first return on.
    intro run
    induction run with
    | start => exact .start _
    | next _ allowed stepped ih =>
      refine .next ih ⟨allowed.1, ?_⟩ stepped
      obtain ⟨server, owners⟩ := setting.ownedInv ih
      rename_i label _
      cases label with
      | tick | stop | loop => trivial
      | handler op =>
        intro er current
        cases op with
        | ret retval =>
          have owns := owners.routines er (server.loop.machine.current_busy current)
          exact owns.closes_iff.mp (allowed.2 er current)
        | transfer | connect | goOn | close | socket => trivial
  · intro run
    refine run.strengthen (OwnedInv.initial setting)
      (fun _ _ _ inv ok stepped => inv.step ok stepped) ?_
    intro t label _ inv ok _
    refine ⟨ok.1, ?_⟩
    split
    · rename_i retval
      intro er current
      have owns := inv.owners.routines er (inv.server.loop.machine.current_busy current)
      exact owns.closes_iff.mpr (ok.2 er current)
    · trivial

/-- What has become of the number of a connection since its handler has closed it. -/
inductive Fate where
  /-- It has been given to nobody else, or closed again, or left behind by whoever had it. -/
  | free
  /-- An `accept` has returned it for a new connection, which has been queued. -/
  | queued
  /-- This coroutine has opened it. -/
  | opened (er : Ptr)
  deriving DecidableEq, Repr

/-- What a step makes of the number of this coroutine's connection. -/
def World.fate (w : World) (label : Label) (er : Ptr) (fate : Fate) : Fate :=
  let number := (w.machine.routines er).connFd
  match label with
  | .loop (.accept (.accepted fd answers)) =>
    if fd = number ∧ w.Takes answers then .queued else fate
  | .handler op =>
    match efCoroutineCurrent w.machine.pool with
    | none => fate
    | some other =>
      match op with
      | .socket fd => if fd = number ∧ other ≠ er then .opened other else fate
      | .close fd => if fd = number then .free else fate
      -- The end of `ef_proc` closes a number, and leaves behind what its handler has left open.
      | .ret _ =>
        if (w.machine.routines other).connFd = number ∨ fate = .opened other then .free else fate
      | .transfer _ _ _ _ | .connect _ _ | .goOn _ => fate
  | .loop _ | .tick _ | .stop => fate

/-- A world with the fate of the number of each coroutine. -/
structure Watched where
  world : World
  fate : Ptr → Fate

/-- One step of the world, with what it makes of each number. -/
def watchedStep (x : Watched) (label : Label) : Option Watched :=
  (step x.world label).map fun w => ⟨w, fun er => x.world.fate label er (x.fate er)⟩

/-- Whoever returns behind its own close has its number still free. -/
def HarmlessOk (x : Watched) (label : Label) : Prop :=
  UserOk x.world label ∧
    match label with
    | .handler (.ret _) => ∀ er ∈ efCoroutineCurrent x.world.machine.pool,
        (x.world.machine.routines er).closedConn = true → x.fate er = .free
    | _ => True

/-- What the fate of a closed number says about its owner. -/
def Fate.Fits (m : Machine) (er : Ptr) : Fate → Prop
  | .free => ¬ m.ClosesForeign er
  | .queued => m.kernel.owner (m.routines er).connFd = some .queued ∨
      ∃ other, other ≠ er ∧ m.pool.Busy other ∧ (m.routines other).closedConn = false ∧
        (m.routines other).connFd = (m.routines er).connFd
  | .opened other => other ≠ er ∧
      m.kernel.owner (m.routines er).connFd = some (.routine other)

/-- The fates fit the owners of all numbers that have been closed. -/
def FateInv (m : Machine) (fate : Ptr → Fate) : Prop :=
  ∀ er, m.pool.Busy er → (m.routines er).closedConn = true → (fate er).Fits m er

namespace Fate.Fits

variable {m after : Machine} {er : Ptr} {fate : Fate}

/-- A number that belongs to nobody, or to nobody known, is free. -/
theorem free_of_stray (stray : m.kernel.owner (m.routines er).connFd = some .other ∨
    m.kernel.owner (m.routines er).connFd = none) : Fate.free.Fits m er := by
  -- A foreign number has an owner that is in the queue or in use.
  show ¬ m.ClosesForeign er
  unfold Machine.ClosesForeign
  rcases stray with other | none <;> simp [*]

/-- A number that is not free any more is a foreign one. -/
theorem closesForeign (fits : fate.Fits m er) (owns : ∀ other, m.pool.Busy other → m.Owns other)
    (given : fate ≠ .free) : m.ClosesForeign er := by
  -- Both other fates name who has the number now.
  cases fate with
  | free => exact absurd rfl given
  | queued =>
    rcases fits with waiting | ⟨other, apart, busy, still, same⟩
    · exact .inl waiting
    · exact .inr ⟨other, apart, same ▸ (owns other busy).conn still⟩
  | opened other => exact .inr ⟨other, fits⟩

/-- A step that changes neither the number nor its owner leaves its fate as it was. -/
theorem kept (fits : fate.Fits m er)
    (number : (after.routines er).connFd = (m.routines er).connFd)
    (owner : after.kernel.owner (m.routines er).connFd = m.kernel.owner (m.routines er).connFd)
    (others : ∀ other, other ≠ er → m.pool.Busy other →
      (m.routines other).connFd = (m.routines er).connFd →
      (m.routines other).closedConn = false →
      after.pool.Busy other ∧ (after.routines other).closedConn = false ∧
        (after.routines other).connFd = (m.routines other).connFd) :
    fate.Fits after er := by
  -- What the fate says is about this number and its owner only.
  cases fate with
  | free =>
    show ¬ after.ClosesForeign er
    unfold Machine.ClosesForeign
    rw [number, owner]
    exact fits
  | queued =>
    refine fits.imp (fun waiting => ?_) ?_
    · rw [number, owner]
      exact waiting
    · rintro ⟨other, apart, busy, still, same⟩
      obtain ⟨later, open_, there⟩ := others other apart busy same still
      exact ⟨other, apart, later, open_, by rw [there, number, same]⟩
  | opened other =>
    refine ⟨fits.1, ?_⟩
    rw [number, owner]
    exact fits.2

end Fate.Fits

namespace FateInv

variable {w : World} {m after : Machine} {fate : Ptr → Fate} {fd : Fd}

/-- Steps that change no number and no owner of one leave all fates as they were. -/
theorem frame (inv : FateInv m fate) (busy : ∀ er, after.pool.Busy er ↔ m.pool.Busy er)
    (records : ∀ er, (after.routines er).connFd = (m.routines er).connFd ∧
      (after.routines er).closedConn = (m.routines er).closedConn)
    (owner : ∀ er, m.pool.Busy er →
      after.kernel.owner (m.routines er).connFd = m.kernel.owner (m.routines er).connFd) :
    FateInv after fate := by
  -- Whoever has closed its number now had closed it before.
  intro er inUse closed
  have before := (busy er).mp inUse
  rw [(records er).2] at closed
  refine (inv er before closed).kept (records er).1 (owner er before) ?_
  intro other _ used _ still
  exact ⟨(busy other).mpr used, by rw [(records other).2, still], (records other).1⟩

/-- A number that nobody has is still free. -/
theorem free_of_unused (inv : FateInv m fate) (owns : ∀ er, m.pool.Busy er → m.Owns er)
    {er : Ptr} (busy : m.pool.Busy er) (closed : (m.routines er).closedConn = true)
    (unused : m.kernel.owner (m.routines er).connFd = none) : fate er = .free := by
  by_contra given
  -- Any other fate has left the number with somebody.
  rcases (inv er busy closed).closesForeign owns given with queued | ⟨_, _, found⟩
  · rw [unused] at queued
    cases queued
  · rw [unused] at found
    cases found

/-- A new connection that is not queued is given to nobody. -/
theorem refused (inv : FateInv m fate) (owns : ∀ er, m.pool.Busy er → m.Owns er)
    (unused : m.kernel.Unused fd) (pool : after.pool = m.pool)
    (routines : after.routines = m.routines)
    (stray : after.kernel.owner fd = some .other ∨ after.kernel.owner fd = none)
    (others : ∀ other, other ≠ fd → after.kernel.owner other = m.kernel.owner other) :
    FateInv after fate := by
  -- Only the numbers of those who have closed this one could be concerned.
  intro er busy closed
  rw [pool] at busy
  rw [routines] at closed
  by_cases mine : (m.routines er).connFd = fd
  · -- Nobody has had the number, and nobody has it now.
    rw [inv.free_of_unused owns busy closed (mine ▸ unused.2)]
    refine Fate.Fits.free_of_stray ?_
    rwa [routines, mine]
  · refine (inv er busy closed).kept (by rw [routines]) (others _ mine) ?_
    intro other _ used same still
    rw [pool, routines]
    exact ⟨used, still, rfl⟩

/-- A new connection that is queued takes its number away from whoever has closed it. -/
theorem taken (inv : FateInv m fate) (pool : after.pool = m.pool)
    (routines : after.routines = m.routines)
    (kernel : ∀ other, after.kernel.owner other =
      if other = fd then some .queued else m.kernel.owner other) :
    FateInv after fun er => if fd = (m.routines er).connFd then .queued else fate er := by
  -- Whoever has closed this number finds it in the queue from now on.
  intro er busy closed
  rw [pool] at busy
  rw [routines] at closed
  show (if fd = (m.routines er).connFd then Fate.queued else fate er).Fits after er
  by_cases mine : fd = (m.routines er).connFd
  · rw [if_pos mine]
    refine .inl ?_
    rw [routines, kernel, if_pos mine.symm]
  · rw [if_neg mine]
    refine (inv er busy closed).kept (by rw [routines]) ?_ ?_
    · rw [kernel, if_neg (Ne.symm mine)]
    · intro other _ used same still
      rw [pool, routines]
      exact ⟨used, still, rfl⟩

/-- A new connection belongs to the queue, whatever node it gets. -/
theorem enqueue_owner {free nodes : List Ptr} (w : World) (li qf : Ptr) (fd other : Fd) :
    ({ w.opened fd with freeFdList := free, nodes := nodes }.enqueue li qf fd).machine.kernel.owner
      other = if other = fd then some .queued else w.machine.kernel.owner other := by
  -- The number is given twice, first by the kernel and then by the queue.
  simp only [World.enqueue, World.modifyListen, World.opened, World.withKernel, Kernel.give_owner]
  split <;> simp [*]

/-- A coroutine that is started has the number that was queued. -/
theorem starts (inv : FateInv w.machine fate) (owned : OwnedInv w) {li qf : Ptr}
    (at_ : w.pc = .queueFd li (some qf)) {mapped : Option Ptr}
    (fresh : w.machine.pool.Fresh mapped) {pool : Pool} {er : Ptr}
    (effect : Created w.machine.pool efProcAddress 0 mapped (pool, some er)) :
    FateInv (w.started li qf pool er).machine fate := by
  -- The new coroutine has its number from the queue, and everybody else keeps the own one.
  obtain ⟨idle, busy, _⟩ := owned.server.loop.machine.pool.created_busy fresh effect
  obtain ⟨mine, _⟩ := owned.server.queues.started_pending at_ pool er
  have queued := owned.owners.queued li qf mine
  have record : ((w.started li qf pool er).machine.routines er).closedConn = false ∧
      ((w.started li qf pool er).machine.routines er).connFd = w.queueFds qf := by
    simp [World.started, Machine.started, Machine.wake, Machine.modify_routines, Routine.goOn]
  have theirs : ∀ other, other ≠ er →
      (w.started li qf pool er).machine.routines other = w.machine.routines other := by
    intro other apart
    simp [World.started, Machine.started, Machine.wake, Machine.modify_routines, apart]
  have used : ∀ other, (w.started li qf pool er).machine.pool.Busy other ↔
      w.machine.pool.Busy other ∨ other = er := busy
  have owner : ∀ number, (w.started li qf pool er).machine.kernel.owner number =
      if number = w.queueFds qf then some (.routine er) else w.machine.kernel.owner number := by
    intro number
    show (w.machine.kernel.handOver (w.queueFds qf) er).owner number = _
    rw [Kernel.handOver_owner]
    simp [queued]
  intro other inUse closed
  have apart : other ≠ er := by
    rintro rfl
    rw [record.1] at closed
    cases closed
  have before := ((used other).mp inUse).resolve_right apart
  rw [theirs other apart] at closed
  have fits := inv other before closed
  have older : ∀ third, w.machine.pool.Busy third → third ≠ er := fun third there same =>
    idle (same ▸ there)
  by_cases same : (w.machine.routines other).connFd = w.queueFds qf
  · -- The number was in the queue, so it had been queued since.
    have waiting : w.machine.kernel.owner (w.machine.routines other).connFd = some .queued := by
      rw [same]
      exact queued
    cases known : fate other with
    | free =>
      rw [known] at fits
      exact absurd (.inl waiting) fits
    | queued =>
      refine .inr ⟨er, Ne.symm apart, (used er).mpr (.inr rfl), record.1, ?_⟩
      rw [record.2, theirs other apart, same]
    | opened third =>
      rw [known] at fits
      cases Option.some.inj (waiting.symm.trans fits.2)
  · refine fits.kept (by rw [theirs other apart]) (by rw [owner, if_neg same]) ?_
    intro third _ there number still
    rw [theirs third (older third there)]
    exact ⟨(used third).mpr (.inl there), still, rfl⟩

/-- Closing the listening sockets takes only these numbers from anybody. -/
theorem stopListens_owner (owned : OwnedInv w) (idle : efCoroutineCurrent w.machine.pool = none)
    (at_ : w.pc = .exitQueue) (number : Fd)
    (unlike : w.machine.kernel.owner number ≠ some .listener) :
    w.stopListens.machine.kernel.owner number = w.machine.kernel.owner number := by
  -- The invariant of the turns says that this number has the owner it had.
  let holds (t : World) : Prop :=
    OwnerInv t ∧ t.machine.kernel.owner number = w.machine.kernel.owner number
  have turn : ∀ {t : World} {li : Ptr}, WorldInv t → efCoroutineCurrent t.machine.pool = none →
      t.pc = .exitQueue → li ∈ t.listenList → holds t → holds (t.stopListen li) := by
    rintro t li _ _ at_ listed ⟨inv, same⟩
    obtain ⟨_, pc⟩ := t.closeListen_frame li
    refine ⟨(inv.closeListen at_ listed).freeListen (pc.trans at_) li, ?_⟩
    have freed : (t.stopListen li).machine = (t.closeListen li).machine := by
      unfold World.stopListen World.freeListen
      split <;> rfl
    rw [freed, ← same]
    unfold World.closeListen
    simp only
    split
    · rename_i open_
      -- The socket belongs to its listener, so its number is another one.
      have owner := inv.listening li listed open_
      have apart : number ≠ (t.listens li).pollData.fd := by
        rintro rfl
        exact unlike (same ▸ owner)
      show (efRoutineClose t.machine.kernel (t.listens li).pollData.fd).1.owner number = _
      rw [efRoutineClose_owner, if_neg apart]
    · rfl
  exact (WorldInv.foldl_stopListen turn owned.server.loop idle at_ owned.server.loop.nodup
    (fun _ member => member) ⟨owned.owners, rfl⟩).2.2.2.2

/-- The shutdown takes no number from anybody else. -/
theorem exitQueue (inv : FateInv w.machine fate) (owned : OwnedInv w)
    (idle : efCoroutineCurrent w.machine.pool = none) (at_ : w.pc = .exitQueue)
    (stopping : w.stopping = true) : FateInv w.exitQueue.machine fate := by
  -- The shrink behind the closing loop touches no coroutine in use.
  obtain ⟨order, pool, pc⟩ := owned.server.loop.stopListens idle at_
  have routines := (StoppedFrom.stopListens w).routines
  have busy : ∀ maxCount : Int, ∀ er,
      (efCoroutinePoolShrink w.stopListens.machine.pool 0 maxCount
        w.stopListens.machine.clock).1.Busy er ↔ w.machine.pool.Busy er := by
    intro maxCount er
    rw [(order.machine.shrunk 0 maxCount w.stopListens.machine.clock).2.1, pool]
  have owner := fun er inUse =>
    stopListens_owner owned idle at_ _ (owned.owners.routines er inUse).unlike
  rw [World.exitQueue, if_pos stopping]
  simp only
  split
  · exact inv.frame (busy _) (fun er => by simp [World.withKernel, World.withPool, World.freeNodes,
      routines]) owner
  · exact inv.frame (busy _) (fun er => by simp [World.withPool, World.freeNodes, routines]) owner

/-- The loop makes of each number what its fate says. -/
theorem loopMove (inv : FateInv w.machine fate) (owned : OwnedInv w)
    (idle : efCoroutineCurrent w.machine.pool = none) {op : LoopOp} {later : World}
    (fresh : ∀ mapped, op = .start mapped → w.machine.pool.Fresh mapped)
    (move : LoopMove w op later) :
    FateInv later.machine fun er => w.fate (.loop op) er (fate er) := by
  -- The cases are the moves of the loop; only four of them change an owner.
  obtain ⟨⟨loop, queues⟩, owners⟩ := owned
  have early : w.pc.Early → ∀ er, ¬ w.machine.pool.Busy er := by
    intro before er busy
    have listed := busy.1
    rw [(owners.early before).1] at listed
    cases listed
  cases move with
  | jumps pc move => cases move <;> exact inv
  | listens socket proc setfl li at_ => exact fun er busy => absurd busy (early (.inl at_) er)
  | associates li refusal at_ => exact fun er busy => absurd busy (early (.inr ⟨_, at_⟩) er)
  | refuses li batch fd answers at_ unused rejected =>
    have stray : FateInv (w.opened fd).machine fate :=
      inv.refused owners.routines unused rfl rfl (.inl (by simp [World.opened, World.withKernel]))
        fun other apart => by simp [World.opened, World.withKernel, apart]
    simpa [World.fate, rejected] using stray
  | drops li batch fd answers at_ unused rejected =>
    have opened : (w.machine.kernel.give fd .other).owner fd ≠ none := by simp
    have shut : FateInv
        (w.withKernel ((w.machine.kernel.give fd .other).close fd).1).machine fate :=
      inv.refused owners.routines unused rfl rfl
        (.inr (by simp [World.withKernel, Kernel.close]))
        fun other apart => by simp [World.withKernel, Kernel.close, apart]
    simpa [World.fate, rejected] using shut
  | reuses li batch fd answers qf rest at_ unused shape takes =>
    have given : FateInv ({ w.opened fd with freeFdList := rest }.enqueue li qf fd).machine
        fun er => if fd = (w.machine.routines er).connFd then .queued else fate er :=
      inv.taken rfl rfl fun other => enqueue_owner w li qf fd other
    simpa [World.fate, takes] using given
  | allocates li batch fd answers qf at_ unused empty new takes =>
    have given : FateInv ({ w.opened fd with nodes := qf :: w.nodes }.enqueue li qf fd).machine
        fun er => if fd = (w.machine.routines er).connFd then .queued else fate er :=
      inv.taken rfl rfl fun other => enqueue_owner w li qf fd other
    simpa [World.fate, takes] using given
  | wakes er event batch at_ points =>
    -- The coroutine waits in a call, so it has its number already.
    have ok := loop.batch
    rw [at_] at ok
    obtain ⟨busy, _⟩ := ok.waits event List.mem_cons_self er points
    obtain ⟨call, retval, ticket, _, waits, _⟩ :=
      (loop.machine.routines er busy).suspended (by rw [idle]; simp)
    refine inv.frame (fun _ => Iff.rfl) (fun other => ?_) fun _ _ => rfl
    by_cases mine : other = er
    · simp [Machine.wake, Machine.modify_routines, mine, Routine.goOn, waits]
    · simp [Machine.wake, Machine.modify_routines, mine]
  | starts li qf mapped pool er at_ effect =>
    exact inv.starts ⟨⟨loop, queues⟩, owners⟩ at_ (fresh mapped rfl) effect
  | recycles li qf enf at_ => exact inv
  | stops at_ stopping => exact inv.exitQueue ⟨⟨loop, queues⟩, owners⟩ idle at_ stopping
  | shrinks at_ =>
    rw [World.shrink]
    simp only
    split
    · exact inv.frame (fun er => (loop.machine.shrunk _ _ _).2.1 er) (fun _ => ⟨rfl, rfl⟩)
        fun _ _ => rfl
    · exact inv

section Handlers

variable {er : Ptr} {op : HandlerOp} {pool : Pool} {kernel : Kernel} {record : Routine}

/-- A step that closes and opens nothing leaves all fates as they were. -/
theorem handlerStays (inv : FateInv m fate) (busy : ∀ other, pool.Busy other ↔ m.pool.Busy other)
    (number : record.connFd = (m.routines er).connFd)
    (closed : record.closedConn = (m.routines er).closedConn)
    (owner : ∀ fd, kernel.owner fd = m.kernel.owner fd) :
    FateInv (m.moved er pool kernel record) fate := by
  -- The step writes the record of one coroutine, with the number that was there.
  refine inv.frame busy (fun other => ?_) fun other _ => owner _
  by_cases mine : other = er
  · simp [Machine.moved, Machine.modify_routines, mine, number, closed]
  · simp [Machine.moved, Machine.modify_routines, mine]

/-- A number that a handler closes is free again. -/
theorem handlerCloses (inv : FateInv m fate) (er : Ptr) (fd : Fd) :
    FateInv (m.moved er m.pool (efRoutineClose m.kernel fd).1
        { m.routines er with
          closedConn := (m.routines er).closedConn || fd = (m.routines er).connFd })
      fun other => if fd = (m.routines other).connFd then .free else fate other := by
  -- Whoever has another number is not concerned, whether or not it is the one that closes.
  let later := m.moved er m.pool (efRoutineClose m.kernel fd).1
    { m.routines er with
      closedConn := (m.routines er).closedConn || fd = (m.routines er).connFd }
  have number : ∀ other, (later.routines other).connFd = (m.routines other).connFd := by
    intro other
    by_cases mine : other = er <;> simp [later, Machine.moved, Machine.modify_routines, mine]
  have marked : ∀ other, fd ≠ (m.routines other).connFd →
      (later.routines other).closedConn = (m.routines other).closedConn := by
    intro other apart
    by_cases mine : other = er
    · subst mine
      simp [later, Machine.moved, Machine.modify_routines, apart]
    · simp [later, Machine.moved, Machine.modify_routines, mine]
  have owner : ∀ other, later.kernel.owner other =
      if other = fd then none else m.kernel.owner other := efRoutineClose_owner m.kernel fd
  intro other busy closed
  show (if fd = (m.routines other).connFd then Fate.free else fate other).Fits later other
  by_cases same : fd = (m.routines other).connFd
  · rw [if_pos same]
    show ¬ later.ClosesForeign other
    unfold Machine.ClosesForeign
    rw [number, owner, if_pos same.symm]
    simp
  · rw [if_neg same]
    have before : (m.routines other).closedConn = true := marked other same ▸ closed
    refine (inv other busy before).kept (number other) ?_ ?_
    · rw [owner, if_neg (Ne.symm same)]
    · intro third _ used equal still
      exact ⟨used, (marked third (equal ▸ same)).trans still, number third⟩

/-- A number that a handler opens belongs to it from then on. -/
theorem handlerOpens (inv : FateInv m fate) (er : Ptr)
    (owns : ∀ other, m.pool.Busy other → m.Owns other) {fd : Fd} (unused : m.kernel.Unused fd) :
    FateInv (m.moved er m.pool (m.kernel.give fd (.routine er)) (m.routines er))
      fun other => if fd = (m.routines other).connFd ∧ er ≠ other then .opened er
        else fate other := by
  -- The number was nobody's before, so whoever had closed it found it free.
  rw [m.moved_same]
  intro other busy closed
  show (if fd = (m.routines other).connFd ∧ er ≠ other then Fate.opened er
    else fate other).Fits _ other
  by_cases same : fd = (m.routines other).connFd
  · by_cases mine : er = other
    · subst mine
      rw [if_neg (by simp), inv.free_of_unused owns busy closed (same ▸ unused.2)]
      -- The number is the coroutine's own again.
      show ¬ Machine.ClosesForeign _ er
      rintro (queued | ⟨third, apart, found⟩)
      · simp [← same] at queued
      · simp only [← same, Kernel.give_owner, if_true, Option.some.injEq, Owner.routine.injEq]
          at found
        exact apart found.symm
    · rw [if_pos ⟨same, mine⟩]
      exact ⟨mine, by simp [← same]⟩
  · rw [if_neg fun both => same both.1]
    refine (inv other busy closed).kept rfl ?_ fun third _ used _ still => ⟨used, still, rfl⟩
    rw [Kernel.give_owner, if_neg (Ne.symm same)]

/-- Whoever is at its end is the only one that is no longer in use. -/
theorem exited_busy (current : efCoroutineCurrent m.pool = some er) (other : Ptr) :
    (m.exited er).Busy other ↔ m.pool.Busy other ∧ other ≠ er := by
  -- It is put on the list of the free ones, and the others stay where they are.
  rw [Machine.exited_eq current]
  simp only [Pool.Busy, List.mem_cons, not_or]
  constructor
  · rintro ⟨full, apart, used⟩
    exact ⟨⟨full, used⟩, apart⟩
  · rintro ⟨⟨full, used⟩, apart⟩
    exact ⟨full, apart, used⟩

/-- A coroutine has only such closed numbers of others as it has opened, or as its connection. -/
theorem unowned (inv : FateInv m fate) (owns : ∀ other, m.pool.Busy other → m.Owns other)
    {other : Ptr} (used : m.pool.Busy other) (closed : (m.routines other).closedConn = true)
    (apart : other ≠ er) (different : (m.routines er).connFd ≠ (m.routines other).connFd)
    (unopened : fate other ≠ .opened er) :
    m.kernel.owner (m.routines other).connFd ≠ some (.routine er) := by
  -- Each of the three fates says who else has the number.
  intro found
  have fits := inv other used closed
  cases known : fate other with
  | free =>
    rw [known] at fits
    exact fits (.inr ⟨er, Ne.symm apart, found⟩)
  | queued =>
    rw [known] at fits
    -- Whoever has got the number from the queue still has it as its connection.
    rcases fits with waiting | ⟨third, _, there, still, equal⟩
    · cases Option.some.inj (waiting.symm.trans found)
    · have held := (owns third there).conn still
      rw [equal] at held
      obtain rfl := Owner.routine.inj (Option.some.inj (held.symm.trans found))
      exact different equal
  | opened third =>
    rw [known] at fits unopened
    obtain rfl := Owner.routine.inj (Option.some.inj (fits.2.symm.trans found))
    exact unopened rfl

/-- The end of `ef_proc` closes one number, and takes no other from anybody in use. -/
theorem handlerFinishes (inv : FateInv m fate)
    (owns : ∀ other, m.pool.Busy other → m.Owns other)
    (current : efCoroutineCurrent m.pool = some er) :
    FateInv (m.moved er (m.exited er)
        ((efRoutineClose m.kernel (m.routines er).connFd).1.orphan er)
        { m.routines er with stage := .idle })
      fun other => if (m.routines er).connFd = (m.routines other).connFd ∨ fate other = .opened er
        then .free else fate other := by
  -- Two kinds of numbers change their owner: the one closed, and those left open.
  let later := m.moved er (m.exited er)
    ((efRoutineClose m.kernel (m.routines er).connFd).1.orphan er)
    { m.routines er with stage := .idle }
  have number : ∀ other, (later.routines other).connFd = (m.routines other).connFd := by
    intro other
    by_cases mine : other = er <;> simp [later, Machine.moved, Machine.modify_routines, mine]
  have marked : ∀ other, (later.routines other).closedConn = (m.routines other).closedConn := by
    intro other
    by_cases mine : other = er <;> simp [later, Machine.moved, Machine.modify_routines, mine]
  have owner : ∀ fd, fd ≠ (m.routines er).connFd → later.kernel.owner fd =
      if m.kernel.owner fd = some (.routine er) then some .other else m.kernel.owner fd := by
    intro fd apart
    simp [later, Machine.moved, Kernel.orphan, efRoutineClose_owner, apart]
  have busy : ∀ other, later.pool.Busy other ↔ m.pool.Busy other ∧ other ≠ er :=
    exited_busy current
  intro other inUse closed
  show (if (m.routines er).connFd = (m.routines other).connFd ∨ fate other = .opened er
    then Fate.free else fate other).Fits later other
  obtain ⟨used, apart⟩ := (busy other).mp inUse
  rw [marked] at closed
  have fits := inv other used closed
  by_cases same : (m.routines er).connFd = (m.routines other).connFd
  · -- The number has just been closed.
    rw [if_pos (.inl same)]
    refine Fate.Fits.free_of_stray (.inr ?_)
    rw [number]
    simp [later, Machine.moved, Kernel.orphan, efRoutineClose_owner, same]
  · have after := owner _ (Ne.symm same)
    by_cases opened : fate other = .opened er
    · -- The number is left open, and belongs to nobody any more.
      rw [if_pos (.inr opened)]
      rw [opened] at fits
      rw [if_pos fits.2] at after
      refine Fate.Fits.free_of_stray (.inl ?_)
      rw [number, after]
    · rw [if_neg (by simp [same, opened])]
      rw [if_neg (inv.unowned owns used closed apart same opened)] at after
      refine fits.kept (number other) after ?_
      intro third _ there equal still
      refine ⟨(busy third).mpr ⟨there, ?_⟩, (marked third).trans still, number third⟩
      rintro rfl
      exact same equal

/-- A step of a handler makes of each number what its fate says. -/
theorem handlerMove (inv : FateInv w.machine fate) (owned : OwnedInv w)
    (current : efCoroutineCurrent w.machine.pool = some er)
    (move : HandlerMove w.machine er op pool kernel record) :
    FateInv (w.machine.moved er pool kernel record) fun other =>
      w.fate (.handler op) other (fate other) := by
  -- A call is made on a descriptor, whose owner it leaves alone.
  have calls : ∀ {call : RoutineCall}, op.call = some call → ∀ other,
      w.fate (.handler op) other (fate other) = fate other := by
    intro call named other
    cases op with
    | transfer | connect => simp [World.fate, current]
    | goOn | close | socket | ret => cases named
  cases move with
  | registers retval events named =>
    simp only [calls named]
    exact inv.handlerStays (fun _ => Iff.rfl) rfl rfl fun _ => rfl
  | returns answer named =>
    simp only [calls named]
    exact inv.handlerStays (fun _ => Iff.rfl) rfl rfl fun _ => rfl
  | retries answer retval woken =>
    simp only [World.fate, current]
    exact inv.handlerStays (fun _ => Iff.rfl) rfl rfl fun _ => rfl
  | completes answer result woken =>
    simp only [World.fate, current]
    exact inv.handlerStays (fun _ => Iff.rfl) rfl rfl fun fd => by rw [Kernel.delete_owner]
  | closes fd handler =>
    simpa [World.fate, current] using inv.handlerCloses er fd
  | opens fd handler unused =>
    simpa [World.fate, current] using inv.handlerOpens er owned.owners.routines unused
  | finishes retval handler =>
    simpa [World.fate, current] using inv.handlerFinishes owned.owners.routines current

end Handlers

/-- Before the loop no number has been closed. -/
theorem initial (setting : Setting) : FateInv setting.world.machine fun _ => .free := by
  -- No coroutine is in use yet.
  intro er busy
  have listed := busy.1
  rw [((OwnerInv.initial setting).early (.inl rfl)).1] at listed
  cases listed

/-- Every step makes of each number what its fate says. -/
theorem step (inv : FateInv w.machine fate) (owned : OwnedInv w) {label : Label}
    (allowed : KernelOk w label) {later : World}
    (stepped : SimpleSrv.Ef.step w label = some later) :
    FateInv later.machine fun er => w.fate label er (fate er) := by
  -- The labels are taken one by one.
  cases label with
  | tick now =>
    obtain rfl := Option.some.inj stepped
    exact inv.frame (fun _ => Iff.rfl) (fun _ => ⟨rfl, rfl⟩) fun _ _ => rfl
  | stop =>
    obtain rfl := Option.some.inj stepped
    exact inv
  | loop op =>
    obtain ⟨idle, stepped⟩ := Option.ite_none_right_eq_some.mp stepped
    have fresh : ∀ mapped, op = .start mapped → w.machine.pool.Fresh mapped := by
      rintro mapped rfl
      exact allowed
    exact inv.loopMove owned idle fresh (owned.server.loop.loopStep_move idle fresh stepped)
  | handler op =>
    obtain ⟨machine, moved, rfl⟩ := Option.map_eq_some_iff.mp stepped
    obtain ⟨er, pool, kernel, record, current, move, rfl⟩ :=
      owned.server.loop.machine.handlerStep_move moved
    exact inv.handlerMove owned current move

end FateInv

/-- The world is in order, and the fates fit it. -/
structure WatchedInv (x : Watched) : Prop where
  owned : OwnedInv x.world
  fates : FateInv x.world.machine x.fate

namespace WatchedInv

variable {x y : Watched} {label : Label}

/-- A number is still free exactly if nobody foreign would be met by closing it. -/
theorem free_iff (inv : WatchedInv x) {er : Ptr} (busy : x.world.machine.pool.Busy er)
    (closed : (x.world.machine.routines er).closedConn = true) :
    x.fate er = .free ↔ ¬ x.world.machine.ClosesForeign er := by
  -- The fate fits the owner, in both directions.
  have fits := inv.fates er busy closed
  constructor
  · intro free
    rwa [free] at fits
  · intro spared
    by_contra given
    exact spared (fits.closesForeign inv.owned.owners.routines given)

/-- A step is harmless by what has happened exactly if it is one by who owns the number now. -/
theorem harmless_iff (inv : WatchedInv x) : HarmlessOk x label ↔ OwnershipOk x.world label := by
  -- Only a return behind a handler's own close is restricted by either.
  refine and_congr_right fun _ => ?_
  cases label with
  | tick | stop | loop => exact Iff.rfl
  | handler op =>
    cases op with
    | ret retval =>
      refine forall₂_congr fun er current => ?_
      have busy := inv.owned.server.loop.machine.current_busy current
      have owns := inv.owned.owners.routines er busy
      show (_ → _) ↔ x.world.machine.MayReturn er
      constructor
      · intro free closed
        exact owns.closes_iff.mp ((inv.free_iff busy closed).mp (free closed)) closed
      · intro returns closed
        exact (inv.free_iff busy closed).mpr (owns.closes_iff.mpr returns)
    | transfer | connect | goOn | close | socket => simp [Machine.ReturnOk]

/-- Every harmless step keeps the world in order and the fates fitting. -/
theorem step (inv : WatchedInv x) (ok : HarmlessOk x label)
    (stepped : watchedStep x label = some y) : WatchedInv y := by
  obtain ⟨later, moved, rfl⟩ := Option.map_eq_some_iff.mp stepped
  exact ⟨inv.owned.step (inv.harmless_iff.mp ok) moved, inv.fates.step inv.owned ok.1.1 moved⟩

/-- Before the loop everything is in order, and every number is free. -/
theorem initial (setting : Setting) : WatchedInv ⟨setting.world, fun _ => .free⟩ :=
  ⟨.initial setting, .initial setting⟩

end WatchedInv

/-- A run in which every return is permitted is harmless, with the fates recorded beside it. -/
theorem Setting.watched (setting : Setting) {labels : List Label} {w : World}
    (run : Run step OwnershipOk setting.world labels w) :
    ∃ fate, Run watchedStep HarmlessOk ⟨setting.world, fun _ => .free⟩ labels ⟨w, fate⟩ ∧
      WatchedInv ⟨w, fate⟩ := by
  -- The invariant says of each return that the record and the kernel agree about it.
  induction run with
  | start => exact ⟨_, .start _, .initial setting⟩
  | @next t u labels label _ allowed stepped ih =>
    obtain ⟨fate, watched, inv⟩ := ih
    have harmless : HarmlessOk ⟨t, fate⟩ label := inv.harmless_iff.mpr allowed
    have moved : watchedStep ⟨t, fate⟩ label =
        some ⟨u, fun er => t.fate label er (fate er)⟩ := by
      simp [watchedStep, stepped]
    exact ⟨_, watched.next harmless moved, inv.step harmless moved⟩

/-- In a harmless run every return is permitted. -/
theorem Setting.of_watched (setting : Setting) {labels : List Label} {x : Watched}
    (run : Run watchedStep HarmlessOk ⟨setting.world, fun _ => .free⟩ labels x) :
    Run step OwnershipOk setting.world labels x.world ∧ WatchedInv x := by
  -- The invariant is needed at each step, and goes with the run.
  induction run with
  | start => exact ⟨.start _, .initial setting⟩
  | next _ harmless stepped ih =>
    obtain ⟨ran, inv⟩ := ih
    have later := inv.step harmless stepped
    obtain ⟨after, moved, rfl⟩ := Option.map_eq_some_iff.mp stepped
    exact ⟨ran.next (inv.harmless_iff.mp harmless) moved, later⟩

/--
No trailing close meets a foreign descriptor exactly if whoever has closed its own connection
returns while nobody has been given the number since, or after it has been given back.
-/
theorem trailing_close_spares_iff (setting : Setting) (labels : List Label) (w : World) :
    Run step SparingOk setting.world labels w ↔
      ∃ fate, Run watchedStep HarmlessOk ⟨setting.world, fun _ => .free⟩ labels ⟨w, fate⟩ := by
  -- The runs by owners and those by fates take the same steps.
  rw [sparing_iff_ownership]
  constructor
  · intro run
    obtain ⟨fate, watched, _⟩ := setting.watched run
    exact ⟨fate, watched⟩
  · rintro ⟨fate, watched⟩
    exact (setting.of_watched watched).1

/-- Two connections, the second with the number that the handler of the first has closed. -/
def reusedNumber : List Label :=
  oneListener ++
    [.loop (.wait (.reported [(3, 1)])), .loop .advance,
      .loop (.accept (.accepted 5 ⟨true, 0, some 300⟩)), .loop (.accept .failed)] ++
    advances 2 ++ [.loop (.start (some 400)), .handler (.socket 6), .handler (.close 5),
      .handler (.transfer .read 6 none ⟨0, 0⟩)] ++
    advances 5 ++ [.loop (.wait (.reported [(3, 1)])), .loop .advance,
      .loop (.accept (.accepted 5 ⟨true, 0, none⟩)), .loop (.accept .failed)] ++
    advances 2 ++ [.loop (.start (some 401)), .handler (.transfer .read 5 none ⟨0, 0⟩)] ++
    advances 5 ++ [.loop (.wait (.reported [(6, 1)])), .loop .advance, .handler (.goOn ⟨1, 0⟩)]

-- The number that the first handler has closed has been queued since.
example : (execute watchedStep (fun _ _ => True) ⟨twoCoroutines.world, fun _ => .free⟩
    reusedNumber).map (fun x => x.fate 400) = some .queued := by decide

/-- The first handler returns and closes the second connection, which is still being read. -/
theorem trailing_close_hits_stranger :
    ¬ ∀ (setting : Setting) (labels : List Label) (w : World),
      Run step UserOk setting.world labels w → Run step SparingOk setting.world labels w := by
  -- The run up to the return is computed, and so is what the return would meet.
  intro claimed
  have facts : (execute step UserOk twoCoroutines.world reusedNumber).map (fun w =>
      (efCoroutineCurrent w.machine.pool, (w.machine.routines 400).connFd,
        w.machine.kernel.owner 5)) = some (some 400, 5, some (.routine 401)) ∧
      (execute step UserOk twoCoroutines.world
        (reusedNumber ++ [.handler (.ret 0)])).isSome = true := by
    decide
  obtain ⟨before, ran, same⟩ := Option.map_eq_some_iff.mp facts.1
  simp only [Prod.mk.injEq] at same
  obtain ⟨after, returned⟩ := Option.isSome_iff_exists.mp facts.2
  -- The return starts in the one state that the labels before it lead to.
  obtain ⟨t, run, allowed, _⟩ := (claimed _ _ _ (.of_execute returned)).last
  have reached : execute step UserOk twoCoroutines.world reusedNumber = some t :=
    (run.weaken fun _ _ ok => ok.1).execute_eq
  obtain rfl := Option.some.inj (ran.symm.trans reached)
  refine allowed.2 400 same.1 (.inr ⟨401, by decide, ?_⟩)
  rw [same.2.1, same.2.2]

end SimpleSrv.Ef
