import SimpleSrv.Ef.CoroutineLaws
import SimpleSrv.Ef.Machine

/-! What the loop and the handlers do to the coroutines, and what stays true of them throughout. -/

namespace SimpleSrv.Ef

/-- The running coroutine above the system thread, or the system thread alone. -/
def Pool.chain (pool : Pool) : List Ptr :=
  if pool.fiberSched.currentFiber = pool.fiberSched.threadFiber then [pool.fiberSched.threadFiber]
  else [pool.fiberSched.currentFiber, pool.fiberSched.threadFiber]

/-- The running coroutine is the current fiber, unless that is the system thread. -/
theorem efCoroutineCurrent_eq_some {pool : Pool} {er : Ptr} :
    efCoroutineCurrent pool = some er ↔
      pool.fiberSched.currentFiber = er ∧ er ≠ pool.fiberSched.threadFiber := by
  -- The function compares the current fiber with that of the thread.
  unfold efCoroutineCurrent
  split
  · rename_i thread
    simp only [reduceCtorEq, false_iff, not_and, not_not]
    exact fun same => same ▸ thread
  · rename_i nested
    simp only [Option.some.injEq]
    exact ⟨fun same => ⟨same, same ▸ nested⟩, fun both => both.1⟩

/-- No coroutine runs exactly when the system thread does. -/
theorem efCoroutineCurrent_eq_none {pool : Pool} :
    efCoroutineCurrent pool = none ↔
      pool.fiberSched.currentFiber = pool.fiberSched.threadFiber := by
  -- The function compares the current fiber with that of the thread.
  unfold efCoroutineCurrent
  split <;> simp_all

/-- Stages in which a coroutine runs. -/
def Stage.Running : Stage → Prop
  | .handler | .woken _ _ _ _ => True
  | .idle | .entry | .waiting _ _ _ => False

/-- The poll data of a coroutine points back to it, and to the descriptor that it waits for. -/
structure Routine.Fits (r : Routine) (er : Ptr) : Prop where
  type : r.pollData.type = .rwc
  self : r.pollData.routinePtr = er
  aimed : ∀ fd ticket, r.stage.waitsFor = some (fd, ticket) → r.pollData.fd = fd

/-- The record of a coroutine in use fits what the scheduler says about that coroutine. -/
structure RoutineInv (m : Machine) (er : Ptr) : Prop where
  fits : (m.routines er).Fits er
  running : efCoroutineCurrent m.pool = some er → (m.routines er).stage.Running
  /-- Whoever does not run waits in one of the calls, where its stack has been left. -/
  suspended : efCoroutineCurrent m.pool ≠ some er → ∃ call retval ticket number,
    (m.routines er).stage = .waiting call retval ticket ∧
      (m.pool.fiberSched.fibers er).stackPtr = some ⟨er, .yielding number⟩

/-- What is always true of the coroutines, whatever descriptors the handlers use. -/
structure MachineInv (m : Machine) : Prop where
  pool : PoolInv m.pool m.pool.chain
  routines : ∀ er, m.pool.Busy er → RoutineInv m er
  /-- An entry that points to a coroutine was made by the call in which that coroutine is. -/
  entries : ∀ fd entry er, m.kernel.interest fd = some entry → entry.ptr = .routine er →
    m.pool.Busy er ∧ (m.routines er).stage.waitsFor = some (fd, entry.ticket)
  opened : ∀ fd, m.kernel.interest fd ≠ none → m.kernel.owner fd ≠ none

namespace Machine

/-- The pool is not part of a coroutine's own record. -/
@[simp] theorem modify_pool (m : Machine) (er : Ptr) (change : Routine → Routine) :
    (m.modify er change).pool = m.pool := rfl

/-- Neither is what the kernel knows. -/
@[simp] theorem modify_kernel (m : Machine) (er : Ptr) (change : Routine → Routine) :
    (m.modify er change).kernel = m.kernel := rfl

/-- A write shows exactly at the coroutine it was made to. -/
theorem modify_routines (m : Machine) (er other : Ptr) (change : Routine → Routine) :
    (m.modify er change).routines other =
      if other = er then change (m.routines er) else m.routines other := by
  -- The table of records is updated in one place.
  simp only [modify, Function.update_apply]

/-- The machine after a resume that was accepted. -/
def wake (m : Machine) (er : Ptr) (toYield : Nat) : Machine :=
  { m with
    pool := { m.pool with fiberSched := m.pool.fiberSched.entered er m.number }
    number := m.number + 1 }.modify er fun r => r.goOn toYield

/-- The pool after the running coroutine has yielded. -/
def paused (m : Machine) : Pool :=
  { m.pool with fiberSched := m.pool.fiberSched.left m.number }

/-- The machine after `ef_routine_run` has started this coroutine. -/
def started (m : Machine) (pool : Pool) (er proc : Ptr) (socket : Fd) : Machine :=
  ({ m with pool := pool, kernel := m.kernel.handOver socket er }.modify er fun r =>
    { r with
      pollData := ⟨.rwc, socket, er, proc⟩
      stage := .entry
      run := m.number
      closedConn := false }).wake er 0

/-- The pool after the running coroutine has exited. -/
def exited (m : Machine) (er : Ptr) : Pool :=
  efCoroutineResumed { m.pool with fiberSched := m.pool.fiberSched.ended } er m.clock

/-- The machine after a step of a coroutine that leaves it this pool, kernel and record. -/
def moved (m : Machine) (er : Ptr) (pool : Pool) (kernel : Kernel) (record : Routine) : Machine :=
  { m with pool := pool, kernel := kernel, number := m.number + 1 }.modify er fun _ => record

end Machine

/-- A coroutine that creation hands out was not in use, and nobody else is affected. -/
theorem PoolInv.created_busy {pool after : Pool} {chain : List Ptr} {er fiberProc param : Ptr}
    {mapped : Option Ptr} (inv : PoolInv pool chain) (fresh : pool.Fresh mapped)
    (effect : Created pool fiberProc param mapped (after, some er)) :
    ¬ pool.Busy er ∧ (∀ other, after.Busy other ↔ pool.Busy other ∨ other = er) ∧
      after.fiberSched = efFiberInit pool.fiberSched er fiberProc param := by
  -- What is handed out was free or unknown, and is in use afterwards.
  cases effect with
  | reused _ rest shape =>
    -- The head of the free list occurs there once.
    have nodup := inv.freeNodup
    rw [shape, List.nodup_cons] at nodup
    have full := inv.freeFull er (by simp [shape])
    refine ⟨fun busy => busy.2 (by simp [shape]), ?_, rfl⟩
    intro other
    simp only [Pool.Busy, Pool.reused, shape, List.mem_cons, not_or]
    by_cases same : other = er
    · simp [same, full, nodup.1]
    · simp [same]
  | added _ mapped _ _ =>
    -- New memory is no coroutine of the pool yet.
    obtain ⟨new, _⟩ := fresh er mapped
    refine ⟨fun busy => new busy.1, ?_, rfl⟩
    intro other
    simp only [Pool.Busy, Pool.added, List.mem_cons]
    by_cases same : other = er
    · have used : er ∉ pool.freeList := fun free => new (inv.freeFull er free)
      simp [same, used]
    · simp [same]

/-- A number that changes hands is watched for the same events as before. -/
@[simp] theorem Kernel.handOver_interest (k : Kernel) (fd : Fd) (er : Ptr) :
    (k.handOver fd er).interest = k.interest := by
  unfold Kernel.handOver
  split <;> rfl

/-- A handed over connection stays open, and nothing else changes its owner. -/
theorem Kernel.handOver_owner (k : Kernel) (fd other : Fd) (er : Ptr) :
    (k.handOver fd er).owner other =
      if other = fd ∧ k.owner fd = some .queued then some (.routine er) else k.owner other := by
  -- Only a connection that waits in the queue is handed over.
  unfold Kernel.handOver
  split
  · rename_i queued
    simp [queued]
  · rename_i away
    simp [away]

/-- On the system thread the chain is that thread alone. -/
theorem Pool.chain_thread {pool : Pool} (loop : efCoroutineCurrent pool = none) :
    pool.chain = [pool.fiberSched.threadFiber] := by
  rw [Pool.chain, if_pos (efCoroutineCurrent_eq_none.mp loop)]

/-- In a coroutine the chain is that coroutine above the system thread. -/
theorem Pool.chain_coroutine {pool : Pool} {er : Ptr}
    (current : efCoroutineCurrent pool = some er) :
    pool.chain = [er, pool.fiberSched.threadFiber] := by
  obtain ⟨rfl, nested⟩ := efCoroutineCurrent_eq_some.mp current
  rw [Pool.chain, if_neg nested]

namespace MachineInv

variable {m : Machine} {er : Ptr}

/-- A coroutine of the pool is not the system thread. -/
theorem ne_thread (inv : MachineInv m) (full : er ∈ m.pool.fullList) :
    er ≠ m.pool.fiberSched.threadFiber :=
  -- The system thread has its own fiber, outside the pool.
  fun same => inv.pool.threadAway (same ▸ full)

/-- The running coroutine is in use. -/
theorem current_busy (inv : MachineInv m) (current : efCoroutineCurrent m.pool = some er) :
    m.pool.Busy er := by
  obtain ⟨rfl, nested⟩ := efCoroutineCurrent_eq_some.mp current
  exact inv.pool.current_busy nested

/-- A resume from the system thread wakes any coroutine in use. -/
theorem resume_wakes (pool : PoolInv m.pool m.pool.chain)
    (loop : efCoroutineCurrent m.pool = none) (busy : m.pool.Busy er) (toYield : Nat) :
    m.resume er toYield = some (m.wake er toYield) ∧
      efCoroutineCurrent (m.wake er toYield).pool = some er ∧
      PoolInv (m.wake er toYield).pool (m.wake er toYield).pool.chain := by
  -- The chain holds the system thread only, so the coroutine is not on it.
  have mapped : er ≠ m.pool.fiberSched.threadFiber := fun same => pool.threadAway (same ▸ busy.1)
  have off : er ∉ m.pool.chain := by
    rw [Pool.chain_thread loop, List.mem_singleton]
    exact mapped
  obtain ⟨switched, kept⟩ := pool.resume_switched busy.1 off busy.2 toYield m.number m.clock
  have current : efCoroutineCurrent (m.wake er toYield).pool = some er :=
    efCoroutineCurrent_eq_some.mpr ⟨rfl, mapped⟩
  refine ⟨?_, current, ?_⟩
  · have entered : efCoroutineCurrent
        { m.pool with fiberSched := m.pool.fiberSched.entered er m.number } = some er := current
    simp only [Machine.resume, switched, Option.map_some, entered, if_true]
    rfl
  · rw [Pool.chain_coroutine current]
    rw [Pool.chain_thread loop] at kept
    exact kept

/-- Waking one coroutine leaves the saved stack of every other coroutine where it was. -/
theorem wake_stackPtr (m : Machine) (er other : Ptr) (toYield : Nat)
    (loop : efCoroutineCurrent m.pool = none) (mapped : other ≠ m.pool.fiberSched.threadFiber) :
    ((m.wake er toYield).pool.fiberSched.fibers other).stackPtr =
      (m.pool.fiberSched.fibers other).stackPtr := by
  -- The resume saves the stack of the fiber that was current, and that is the thread's.
  have away : other ≠ m.pool.fiberSched.currentFiber := by
    rw [efCoroutineCurrent_eq_none.mp loop]
    exact mapped
  simp only [Machine.wake, Machine.modify_pool, Sched.entered, Sched.modify_fibers, away, if_false]
  split
  · rename_i same
    rw [same]
  · rfl

/-- Waking a waiting coroutine keeps the machine in order. -/
theorem wake (inv : MachineInv m) (loop : efCoroutineCurrent m.pool = none)
    (busy : m.pool.Busy er) (toYield : Nat) : MachineInv (m.wake er toYield) := by
  -- The coroutine waits in some call, and goes on in that call with the events it got.
  obtain ⟨_, current, pool⟩ := resume_wakes inv.pool loop busy toYield
  obtain ⟨call, retval, ticket, _, waits, _⟩ :=
    (inv.routines er busy).suspended (by rw [loop]; simp)
  have woken : ((m.wake er toYield).routines er).stage = .woken call retval ticket toYield := by
    simp [Machine.wake, Machine.modify_routines, Routine.goOn, waits]
  have data : ((m.wake er toYield).routines er).pollData = (m.routines er).pollData := by
    simp [Machine.wake, Machine.modify_routines, Routine.goOn, waits]
  have others : ∀ other, other ≠ er → (m.wake er toYield).routines other = m.routines other := by
    intro other apart
    simp [Machine.wake, Machine.modify_routines, apart]
  refine ⟨pool, ?_, ?_, inv.opened⟩
  · intro other inUse
    have old := inv.routines other inUse
    by_cases same : other = er
    · subst same
      -- The poll data is the same, and so is the descriptor that the call is about.
      refine ⟨⟨data ▸ old.fits.type, data ▸ old.fits.self, ?_⟩, ?_, fun idle => absurd current idle⟩
      · intro fd number waitsFor
        rw [woken] at waitsFor
        rw [data]
        exact old.fits.aimed fd number (by rw [waits]; exact waitsFor)
      · intro _
        rw [woken]
        trivial
    · -- Any other coroutine waits where it did.
      obtain ⟨call, retval, ticket, number, waiting, saved⟩ := old.suspended (by rw [loop]; simp)
      refine ⟨?_, ?_, ?_⟩
      · rw [others other same]
        exact old.fits
      · intro runs
        rw [current, Option.some.injEq] at runs
        exact absurd runs.symm same
      · intro _
        rw [others other same, wake_stackPtr m er other toYield loop (inv.ne_thread inUse.1)]
        exact ⟨call, retval, ticket, number, waiting, saved⟩
  · intro fd entry other registered points
    -- The entry stays as long as the call is not completed.
    obtain ⟨inUse, waitsFor⟩ := inv.entries fd entry other registered points
    refine ⟨inUse, ?_⟩
    by_cases same : other = er
    · subst same
      rw [waits] at waitsFor
      rw [woken]
      exact waitsFor
    · rw [others other same]
      exact waitsFor

/-- Starting a coroutine that creation has handed out keeps the machine in order. -/
theorem started (inv : MachineInv m) (loop : efCoroutineCurrent m.pool = none)
    {mapped : Option Ptr} (fresh : m.pool.Fresh mapped) {pool : Pool}
    (effect : Created m.pool efProcAddress 0 mapped (pool, some er)) (proc : Ptr) (socket : Fd) :
    efRoutineRun m proc socket mapped = some (m.started pool er proc socket, 0) ∧
      efCoroutineCurrent (m.started pool er proc socket).pool = some er ∧
      MachineInv (m.started pool er proc socket) := by
  -- Creation keeps the pool, and what it hands out was not in use.
  obtain ⟨idle, busy, sched⟩ := inv.pool.created_busy fresh effect
  obtain ⟨kept, _⟩ := inv.pool.create fresh effect
  have created := inv.pool.created_eq effect
  -- Between its creation and its resume the new coroutine waits at its entry.
  let ready : Machine := { m with pool := pool, kernel := m.kernel.handOver socket er }.modify er
    fun r => { r with pollData := ⟨.rwc, socket, er, proc⟩, stage := .entry, run := m.number,
                      closedConn := false }
  have thread : pool.fiberSched.threadFiber = m.pool.fiberSched.threadFiber := by
    rw [sched]
    rfl
  -- Creation switches to nobody.
  have still : efCoroutineCurrent ready.pool = none := by
    rw [efCoroutineCurrent_eq_none] at loop ⊢
    simp only [ready, Machine.modify_pool, sched]
    exact loop
  have chain : ready.pool.chain = m.pool.chain := by
    rw [Pool.chain_thread still, Pool.chain_thread loop]
    exact congrArg (fun fiber => [fiber]) thread
  have wellFormed : PoolInv ready.pool ready.pool.chain := chain ▸ kept
  obtain ⟨resumed, current, running⟩ :=
    resume_wakes wellFormed still ((busy er).mpr (.inr rfl)) 0
  refine ⟨by simp [efRoutineRun, created, resumed, ready, Machine.started], current, running,
    ?_, ?_, ?_⟩
  · intro other inUse
    by_cases same : other = er
    · subst same
      refine ⟨⟨?_, ?_, ?_⟩, ?_, fun away => absurd current away⟩
      all_goals simp [Machine.started, Machine.wake, Machine.modify_routines, Routine.goOn,
        Stage.waitsFor, Stage.Running]
    · -- Any other coroutine is as it was, whether new memory was mapped or not.
      have old := inv.routines other (((busy other).mp inUse).resolve_right same)
      have record : (m.started pool er proc socket).routines other = m.routines other := by
        simp [Machine.started, Machine.wake, Machine.modify_routines, same]
      obtain ⟨call, retval, ticket, number, waiting, saved⟩ := old.suspended (by rw [loop]; simp)
      refine ⟨record ▸ old.fits, ?_, ?_⟩
      · intro runs
        exact absurd (Option.some.inj (current.symm.trans runs)).symm same
      · intro _
        have mapped := inv.ne_thread (((busy other).mp inUse).resolve_right same).1
        rw [record, Machine.started, wake_stackPtr ready er other 0 still (thread ▸ mapped)]
        refine ⟨call, retval, ticket, number, waiting, ?_⟩
        simpa [ready, sched, efFiberInit, Sched.modify_fibers, same] using saved
  · intro fd entry other registered points
    obtain ⟨inUse, waitsFor⟩ := inv.entries fd entry other
      (by simpa [Machine.started, Machine.wake] using registered) points
    -- Entries point to coroutines in use, which the new one was not.
    have apart : other ≠ er := fun same => idle (same ▸ inUse)
    refine ⟨(busy other).mpr (.inl inUse), ?_⟩
    simpa [Machine.started, Machine.wake, Machine.modify_routines, apart] using waitsFor
  · intro fd registered
    simp only [Machine.started, Machine.wake, Machine.modify_kernel, Kernel.handOver_owner,
      Kernel.handOver_interest] at registered ⊢
    split
    · simp
    · exact inv.opened fd registered

/-- `ef_routine_run` starts a coroutine that was not in use, or finds none and changes nothing. -/
theorem routineRun_cases (inv : MachineInv m) (loop : efCoroutineCurrent m.pool = none)
    {mapped : Option Ptr} (fresh : m.pool.Fresh mapped) (proc : Ptr) (socket : Fd) :
    (efRoutineRun m proc socket mapped = some (m, -1) ∧ m.pool.freeCount ≤ 0 ∧
        (m.pool.limitMax ≤ m.pool.fullCount ∨ mapped = none)) ∨
      ∃ pool er, Created m.pool efProcAddress 0 mapped (pool, some er) ∧
        efRoutineRun m proc socket mapped = some (m.started pool er proc socket, 0) ∧
        efCoroutineCurrent (m.started pool er proc socket).pool = some er := by
  -- Creation hands out a coroutine, or refuses with the pool as it was.
  obtain ⟨⟨pool, handed⟩, created, effect⟩ := inv.pool.created efProcAddress 0 mapped
  cases handed with
  | none =>
    cases effect with
    | refused empty why => exact .inl ⟨by simp [efRoutineRun, created], empty, why⟩
  | some er =>
    obtain ⟨ran, current, _⟩ := inv.started loop fresh effect proc socket
    exact .inr ⟨pool, er, effect, ran, current⟩

/-- The machine stays in order when only entries and owners change that no coroutine relies on. -/
theorem reframe (inv : MachineInv m) {after : Machine} (pool : after.pool = m.pool)
    (routines : after.routines = m.routines)
    (entries : ∀ fd entry er, after.kernel.interest fd = some entry → entry.ptr = .routine er →
      m.kernel.interest fd = some entry)
    (opened : ∀ fd, after.kernel.interest fd ≠ none → after.kernel.owner fd ≠ none) :
    MachineInv after := by
  -- What is said of each coroutine mentions neither foreign entries nor owners.
  refine ⟨pool ▸ inv.pool, ?_, ?_, opened⟩
  · intro er busy
    obtain ⟨fits, running, suspended⟩ := inv.routines er (pool ▸ busy)
    exact ⟨routines ▸ fits, pool ▸ routines ▸ running, pool ▸ routines ▸ suspended⟩
  · intro fd entry er registered points
    rw [pool, routines]
    exact inv.entries fd entry er (entries fd entry er registered points) points

end MachineInv

/-- The call that an operation of a handler begins. -/
def HandlerOp.call : HandlerOp → Option RoutineCall
  | .transfer kind fd _ _ => some (.transfer kind fd)
  | .connect sockfd _ => some (.connect sockfd)
  | .goOn _ | .close _ | .socket _ | .ret _ => none

/-- The record of a coroutine that is about to wait for, or has tried, a descriptor. -/
def Routine.aimedAt (r : Routine) (fd : Fd) : Routine :=
  { r with pollData := { r.pollData with type := .rwc, fd := fd } }

/-- What a step of the running coroutine does to the pool, the kernel and its own record. -/
inductive HandlerMove (m : Machine) (er : Ptr) : HandlerOp → Pool → Kernel → Routine → Prop
  /-- A call registers its descriptor and yields. -/
  | registers {op : HandlerOp} {call : RoutineCall} (retval : Int) (events : Nat) :
      op.call = some call → (m.routines er).stage = .handler →
      m.kernel.owner call.fd ≠ none → m.kernel.interest call.fd = none →
      HandlerMove m er op m.paused
        (m.kernel.register call.fd ⟨events, .routine er, m.number⟩)
        { (m.routines er).aimedAt call.fd with stage := .waiting call retval m.number }
  /-- A call returns without having waited. -/
  | returns {op : HandlerOp} {call : RoutineCall} (answer : Answer) :
      op.call = some call → (m.routines er).stage = .handler →
      HandlerMove m er op m.pool m.kernel
        { (m.routines er).aimedAt call.fd with stage := .handler, result := answer }
  /-- A call finds its descriptor not ready and yields once more. -/
  | retries {call : RoutineCall} {before : Int} {ticket events : Nat} (answer : Answer)
      (retval : Int) : (m.routines er).stage = .woken call before ticket events →
      HandlerMove m er (.goOn answer) m.paused m.kernel
        { m.routines er with stage := .waiting call retval ticket }
  /-- A call dissociates its descriptor and returns. -/
  | completes {call : RoutineCall} {before : Int} {ticket events : Nat} (answer result : Answer) :
      (m.routines er).stage = .woken call before ticket events →
      HandlerMove m er (.goOn answer) m.pool (m.kernel.delete call.fd).1
        { m.routines er with stage := .handler, result := result }
  | closes (fd : Fd) : (m.routines er).stage = .handler →
      HandlerMove m er (.close fd) m.pool (efRoutineClose m.kernel fd).1
        { m.routines er with
          closedConn := (m.routines er).closedConn || fd = (m.routines er).connFd }
  | opens (fd : Fd) : (m.routines er).stage = .handler → m.kernel.Unused fd →
      HandlerMove m er (.socket fd) m.pool (m.kernel.give fd (.routine er)) (m.routines er)
  | finishes (retval : Int) : (m.routines er).stage = .handler →
      HandlerMove m er (.ret retval) (m.exited er)
        ((efRoutineClose m.kernel (m.routines er).connFd).1.orphan er)
        { m.routines er with stage := .idle }

/-- A write that keeps the record of a coroutine changes nothing. -/
theorem Machine.moved_same (m : Machine) (er : Ptr) (pool : Pool) (kernel : Kernel) :
    m.moved er pool kernel (m.routines er) =
      { m with pool := pool, kernel := kernel, number := m.number + 1 } := by
  -- An update with the value that is there is none.
  simp [Machine.moved, Machine.modify]

namespace MachineInv

variable {m : Machine} {er : Ptr}

/-- A part of a call that ends in a yield pauses the coroutine. -/
theorem leave_waiting (inv : MachineInv m) (current : efCoroutineCurrent m.pool = some er)
    (call : RoutineCall) (ticket : Nat) (kernel : Kernel) (retval : Int)
    (change : Routine → Routine) :
    (m.modify er change).leave er call ticket (kernel, .waiting retval) = some
      (m.moved er m.paused kernel
        { change (m.routines er) with stage := .waiting call retval ticket }) := by
  -- The running coroutine is above the thread, so its yield succeeds.
  obtain ⟨rfl, nested⟩ := efCoroutineCurrent_eq_some.mp current
  obtain ⟨switched, _⟩ := inv.pool.yield_switched nested 0 m.number m.clock
  simp [Machine.leave, Machine.yield, Machine.modify, switched, Machine.moved, Machine.paused]

/-- A part of a call that ends in a return leaves the coroutine in its handler. -/
theorem leave_returned (m : Machine) (er : Ptr) (call : RoutineCall) (ticket : Nat)
    (kernel : Kernel) (answer : Answer) (change : Routine → Routine) :
    (m.modify er change).leave er call ticket (kernel, .returned answer) = some
      (m.moved er m.pool kernel
        { change (m.routines er) with stage := .handler, result := answer }) := by
  -- Nothing is switched, and only the record changes.
  simp [Machine.leave, Machine.modify, Machine.moved]

/-- The first part of a call is one of two moves. -/
theorem leave_started (inv : MachineInv m) (current : efCoroutineCurrent m.pool = some er)
    {op : HandlerOp} {call : RoutineCall} (calls : op.call = some call)
    (handler : (m.routines er).stage = .handler) {effect : Kernel × Outcome}
    (started : Started m.kernel er call.fd m.number effect) :
    ∃ pool kernel record, HandlerMove m er op pool kernel record ∧
      (m.aim er call.fd).leave er call m.number effect = some (m.moved er pool kernel record) := by
  -- The outcome of the first part tells which of the moves it is.
  cases started with
  | waiting retval events opened absent =>
    exact ⟨_, _, _, .registers retval events calls handler opened absent,
      inv.leave_waiting current call m.number _ retval _⟩
  | returned answer =>
    exact ⟨_, _, _, .returns answer calls handler,
      leave_returned m er call m.number m.kernel answer _⟩

/-- The part of a call behind its yield is one of two moves. -/
theorem leave_woken (inv : MachineInv m) (current : efCoroutineCurrent m.pool = some er)
    {call : RoutineCall} {before : Int} {ticket events : Nat}
    (stage : (m.routines er).stage = .woken call before ticket events) (answer : Answer)
    {effect : Kernel × Outcome} (woken : Woken m.kernel call.fd effect) :
    ∃ pool kernel record, HandlerMove m er (.goOn answer) pool kernel record ∧
      m.leave er call ticket effect = some (m.moved er pool kernel record) := by
  -- The record is not aimed anew, which is a change by the identity.
  have same : m.modify er id = m := by simp [Machine.modify]
  cases woken with
  | waiting retval =>
    have left := inv.leave_waiting current call ticket m.kernel retval id
    rw [same] at left
    exact ⟨_, _, _, .retries answer retval stage, left⟩
  | returned result =>
    have left := leave_returned m er call ticket (m.kernel.delete call.fd).1 result id
    rw [same] at left
    exact ⟨_, _, _, .completes answer result stage, left⟩

/-- Every step of the running coroutine is one of the moves. -/
theorem handlerStep_move (inv : MachineInv m) {op : HandlerOp} {after : Machine}
    (stepped : handlerStep m op = some after) :
    ∃ er pool kernel record, efCoroutineCurrent m.pool = some er ∧
      HandlerMove m er op pool kernel record ∧ after = m.moved er pool kernel record := by
  obtain ⟨er, current, stepped⟩ := Option.bind_eq_some_iff.mp stepped
  -- The cases are the operations, each of which is one move or two.
  suffices ∃ pool kernel record, HandlerMove m er op pool kernel record ∧
      some after = some (m.moved er pool kernel record) by
    obtain ⟨pool, kernel, record, move, same⟩ := this
    exact ⟨er, pool, kernel, record, current, move, Option.some.inj same⟩
  cases op with
  | transfer kind fd refusal answer =>
    obtain ⟨inside, stepped⟩ := Option.ite_none_right_eq_some.mp stepped
    rw [← stepped]
    have calls : HandlerOp.call (.transfer kind fd refusal answer) = some (.transfer kind fd) := rfl
    exact inv.leave_started current calls inside.1
      (kind.io.start_started m.kernel er fd m.number refusal answer)
  | connect sockfd answers =>
    obtain ⟨inside, stepped⟩ := Option.ite_none_right_eq_some.mp stepped
    rw [← stepped]
    have calls : HandlerOp.call (.connect sockfd answers) = some (.connect sockfd) := rfl
    exact inv.leave_started current calls inside.1
      (efRoutineConnect_started m.kernel er sockfd m.number answers)
  | goOn answer =>
    cases stage : (m.routines er).stage with
    | woken call retval ticket events =>
      simp only [stage] at stepped
      rw [← stepped]
      exact inv.leave_woken current stage answer (call.woken_woken m.kernel retval events answer)
    | idle | entry | handler | waiting => simp [stage] at stepped
  | close fd =>
    obtain ⟨inside, stepped⟩ := Option.ite_none_right_eq_some.mp stepped
    rw [← stepped]
    exact ⟨_, _, _, .closes fd inside.1, rfl⟩
  | socket fd =>
    obtain ⟨inside, stepped⟩ := Option.ite_none_right_eq_some.mp stepped
    rw [← stepped]
    exact ⟨_, _, _, .opens fd inside.1.1 inside.2, by rw [m.moved_same]⟩
  | ret retval =>
    obtain ⟨handler, stepped⟩ := Option.ite_none_right_eq_some.mp stepped
    rw [← stepped]
    obtain ⟨rfl, nested⟩ := efCoroutineCurrent_eq_some.mp current
    obtain ⟨switched, _⟩ := inv.pool.exit_switched nested
      (if (m.routines m.pool.fiberSched.currentFiber).pollData.efProc = 0 then 0 else retval)
      m.clock
    refine ⟨_, _, _, .finishes retval handler, ?_⟩
    simp [Machine.finish, switched, Machine.moved, Machine.exited, Machine.modify]

end MachineInv

section Moves

variable {m : Machine} {er : Ptr} {op : HandlerOp} {pool : Pool} {kernel : Kernel}
  {record : Routine}

/-- A coroutine's own record still fits after each of its steps. -/
theorem HandlerMove.fits (move : HandlerMove m er op pool kernel record)
    (fits : (m.routines er).Fits er) : record.Fits er := by
  -- Only a first part aims the record at another descriptor.
  cases move with
  | registers retval events calls handler opened absent =>
    refine ⟨rfl, fits.self, ?_⟩
    intro fd ticket waitsFor
    simp only [Stage.waitsFor, Option.some.injEq, Prod.mk.injEq] at waitsFor
    exact waitsFor.1
  | returns answer calls handler => exact ⟨rfl, fits.self, by simp [Stage.waitsFor]⟩
  | retries answer retval woken =>
    refine ⟨fits.type, fits.self, ?_⟩
    intro fd ticket waitsFor
    exact fits.aimed fd ticket (by rw [woken]; exact waitsFor)
  | completes answer result woken => exact ⟨fits.type, fits.self, by simp [Stage.waitsFor]⟩
  | closes fd handler => exact ⟨fits.type, fits.self, fits.aimed⟩
  | opens fd handler unused => exact fits
  | finishes retval handler => exact ⟨fits.type, fits.self, by simp [Stage.waitsFor]⟩

/-- After a step the entries are old ones of others, or the one for the call the coroutine is in. -/
theorem HandlerMove.entries (move : HandlerMove m er op pool kernel record)
    (mine : ∀ fd entry, m.kernel.interest fd = some entry → entry.ptr = .routine er →
      (m.routines er).stage.waitsFor = some (fd, entry.ticket))
    {fd : Fd} {entry : Registration} (registered : kernel.interest fd = some entry) :
    (m.kernel.interest fd = some entry ∧ entry.ptr ≠ .routine er) ∨
      (entry.ptr = .routine er ∧ record.stage.waitsFor = some (fd, entry.ticket)) := by
  -- A coroutine in its handler has no entry, and one that was woken has just the one it made.
  have idle : (m.routines er).stage = .handler → ∀ {fd entry},
      m.kernel.interest fd = some entry → entry.ptr ≠ .routine er := by
    intro handler fd entry registered points
    have waitsFor := mine fd entry registered points
    rw [handler] at waitsFor
    cases waitsFor
  cases move with
  | registers retval events calls handler opened absent =>
    -- The new entry carries the number of this call, and there was none at its descriptor.
    rw [Kernel.register_interest] at registered
    split at registered
    · rename_i same
      obtain rfl := Option.some.inj registered
      exact .inr ⟨rfl, by rw [same]; rfl⟩
    · exact .inl ⟨registered, idle handler registered⟩
  | returns answer calls handler => exact .inl ⟨registered, idle handler registered⟩
  | retries answer retval woken =>
    -- The entry of the call stays while it waits once more.
    by_cases points : entry.ptr = .routine er
    · refine .inr ⟨points, ?_⟩
      have waitsFor := mine fd entry registered points
      rw [woken] at waitsFor
      exact waitsFor
    · exact .inl ⟨registered, points⟩
  | completes answer result woken =>
    -- The one entry of the coroutine is at the descriptor that is dissociated.
    rw [Kernel.delete_interest] at registered
    split at registered
    · cases registered
    · rename_i away
      refine .inl ⟨registered, fun points => away ?_⟩
      have waitsFor := mine fd entry registered points
      rw [woken] at waitsFor
      simp only [Stage.waitsFor, Option.some.injEq, Prod.mk.injEq] at waitsFor
      exact waitsFor.1.symm
  | closes closed handler =>
    rw [efRoutineClose_interest] at registered
    split at registered
    · cases registered
    · exact .inl ⟨registered, idle handler registered⟩
  | opens opened handler unused => exact .inl ⟨registered, idle handler registered⟩
  | finishes retval handler =>
    change (efRoutineClose m.kernel (m.routines er).connFd).1.interest fd = some entry at registered
    rw [efRoutineClose_interest] at registered
    split at registered
    · cases registered
    · exact .inl ⟨registered, idle handler registered⟩

/-- Leaving descriptors to nobody closes none of them. -/
theorem Kernel.orphan_owner_eq_none (k : Kernel) (er : Ptr) (fd : Fd) :
    (k.orphan er).owner fd = none ↔ k.owner fd = none := by
  -- Such descriptors get another owner, which is none of the coroutines.
  simp only [Kernel.orphan]
  split
  · rename_i mine
    simp [mine]
  · rfl

/-- Every entry belongs to an open descriptor after each step, too. -/
theorem HandlerMove.opened (move : HandlerMove m er op pool kernel record)
    (opened : ∀ fd, m.kernel.interest fd ≠ none → m.kernel.owner fd ≠ none) (fd : Fd)
    (registered : kernel.interest fd ≠ none) : kernel.owner fd ≠ none := by
  -- The cases are those in which entries are added or descriptors closed.
  cases move with
  | registers retval events calls handler present absent =>
    rw [Kernel.register_owner]
    rw [Kernel.register_interest] at registered
    split at registered
    · rename_i same
      rw [same]
      exact present
    · exact opened fd registered
  | returns answer calls handler => exact opened fd registered
  | retries answer retval woken => exact opened fd registered
  | completes answer result woken =>
    rw [Kernel.delete_owner]
    rw [Kernel.delete_interest] at registered
    split at registered
    · exact absurd rfl registered
    · exact opened fd registered
  | closes closed handler =>
    rw [efRoutineClose_interest] at registered
    rw [efRoutineClose_owner]
    split at registered
    · exact absurd rfl registered
    · rename_i away
      rw [if_neg away]
      exact opened fd registered
  | opens new handler unused =>
    rw [Kernel.give_owner]
    split
    · simp
    · exact opened fd registered
  | finishes retval handler =>
    change (efRoutineClose m.kernel (m.routines er).connFd).1.interest fd ≠ none at registered
    rw [Ne, Kernel.orphan_owner_eq_none, efRoutineClose_owner]
    rw [efRoutineClose_interest] at registered
    split at registered
    · exact absurd rfl registered
    · rename_i away
      rw [if_neg away]
      exact opened fd registered

/-- A step goes on, ends in a yield of the call the coroutine is in, or ends in its exit. -/
theorem HandlerMove.place (move : HandlerMove m er op pool kernel record)
    (running : (m.routines er).stage.Running) :
    (pool = m.pool ∧ record.stage.Running) ∨
      (pool = m.paused ∧ ∃ call retval ticket, record.stage = .waiting call retval ticket) ∨
      (pool = m.exited er ∧ record.stage = .idle) := by
  -- Only a yield or an exit leaves the coroutine.
  cases move with
  | registers => exact .inr (.inl ⟨rfl, _, _, _, rfl⟩)
  | returns => exact .inl ⟨rfl, trivial⟩
  | retries => exact .inr (.inl ⟨rfl, _, _, _, rfl⟩)
  | completes => exact .inl ⟨rfl, trivial⟩
  | closes => exact .inl ⟨rfl, running⟩
  | opens => exact .inl ⟨rfl, running⟩
  | finishes => exact .inr (.inr ⟨rfl, rfl⟩)

/-- Every coroutine has been resumed by the loop, on the system thread. -/
theorem MachineInv.parent_thread (inv : MachineInv m)
    (current : efCoroutineCurrent m.pool = some er) :
    (m.pool.fiberSched.fibers er).parent = m.pool.fiberSched.threadFiber := by
  -- The chain has two members, and the second is the parent of the first.
  have linked := inv.pool.sched.linked
  rw [Pool.chain_coroutine current] at linked
  exact linked.2.1

/-- The free list of the pool gets the coroutine that exits. -/
theorem Machine.exited_eq (current : efCoroutineCurrent m.pool = some er) :
    m.exited er = { m.pool with
      fiberSched := m.pool.fiberSched.ended
      coroutines := Function.update m.pool.coroutines er
        { runCount := (m.pool.coroutines er).runCount + 1, lastRunTime := m.clock }
      freeList := er :: m.pool.freeList
      freeCount := m.pool.freeCount + 1
      runCount := m.pool.runCount + 1 } := by
  -- The fiber has just ended, so the test for its status succeeds.
  obtain ⟨rfl, _⟩ := efCoroutineCurrent_eq_some.mp current
  rw [Machine.exited, efCoroutineResumed, if_pos]
  simp [Sched.ended, Sched.modify_fibers]

/-- A coroutine that yields leaves a well-formed pool to the loop. -/
theorem MachineInv.paused_pool (inv : MachineInv m)
    (current : efCoroutineCurrent m.pool = some er) :
    efCoroutineCurrent m.paused = none ∧ PoolInv m.paused m.paused.chain := by
  -- The yield goes to the parent, which is the system thread.
  have parent := inv.parent_thread current
  have chain := Pool.chain_coroutine current
  obtain ⟨rfl, nested⟩ := efCoroutineCurrent_eq_some.mp current
  have loop : efCoroutineCurrent m.paused = none := efCoroutineCurrent_eq_none.mpr parent
  obtain ⟨_, kept⟩ := inv.pool.yield_switched nested 0 m.number m.clock
  refine ⟨loop, ?_⟩
  rw [Pool.chain_thread loop]
  rw [chain] at kept
  exact kept

/-- A coroutine that exits leaves a well-formed pool to the loop. -/
theorem MachineInv.exited_pool (inv : MachineInv m)
    (current : efCoroutineCurrent m.pool = some er) :
    efCoroutineCurrent (m.exited er) = none ∧ PoolInv (m.exited er) (m.exited er).chain := by
  -- The exit goes to the parent, which is the system thread.
  have parent := inv.parent_thread current
  have chain := Pool.chain_coroutine current
  have shape := Machine.exited_eq current
  obtain ⟨rfl, nested⟩ := efCoroutineCurrent_eq_some.mp current
  have loop : efCoroutineCurrent (m.exited m.pool.fiberSched.currentFiber) = none := by
    rw [shape]
    exact efCoroutineCurrent_eq_none.mpr parent
  obtain ⟨_, kept⟩ := inv.pool.exit_switched nested 0 m.clock
  refine ⟨loop, ?_⟩
  rw [Pool.chain_thread loop]
  rw [chain] at kept
  have thread : (m.exited m.pool.fiberSched.currentFiber).fiberSched.threadFiber =
      m.pool.fiberSched.threadFiber := by
    rw [shape]
    rfl
  rw [thread]
  exact kept

/-- After a step the pool is well formed, and in use are those in use before but for an exit. -/
theorem HandlerMove.pool_kept (move : HandlerMove m er op pool kernel record) (inv : MachineInv m)
    (current : efCoroutineCurrent m.pool = some er) :
    PoolInv pool pool.chain ∧
      (∀ other, pool.Busy other → m.pool.Busy other) ∧
      (∀ other, m.pool.Busy other → other ≠ er → pool.Busy other ∧
        (pool.fiberSched.fibers other).stackPtr = (m.pool.fiberSched.fibers other).stackPtr) ∧
      (∀ other, efCoroutineCurrent pool = some other → other = er) := by
  -- The pool is the same, paused or exited.
  have running := (inv.routines er (inv.current_busy current)).running current
  rcases move.place running with ⟨rfl, _⟩ | ⟨rfl, _⟩ | ⟨rfl, _⟩
  · exact ⟨inv.pool, fun _ busy => busy, fun _ busy _ => ⟨busy, rfl⟩,
      fun _ runs => Option.some.inj (runs.symm.trans current)⟩
  · -- A yield saves the stack of the running coroutine only.
    obtain ⟨loop, kept⟩ := inv.paused_pool current
    refine ⟨kept, fun _ busy => busy, ?_, fun _ runs => absurd (loop.symm.trans runs) (by simp)⟩
    intro other busy apart
    obtain ⟨rfl, _⟩ := efCoroutineCurrent_eq_some.mp current
    exact ⟨busy, by simp [Machine.paused, Sched.left, Sched.modify_fibers, apart]⟩
  · obtain ⟨loop, kept⟩ := inv.exited_pool current
    -- An exit frees the running coroutine only.
    have shape := Machine.exited_eq current
    refine ⟨kept, ?_, ?_, fun _ runs => absurd (loop.symm.trans runs) (by simp)⟩
    · intro other busy
      rw [shape] at busy
      exact ⟨busy.1, fun free => busy.2 (List.mem_cons_of_mem _ free)⟩
    · intro other busy apart
      rw [shape]
      refine ⟨⟨busy.1, ?_⟩, ?_⟩
      · simp only [List.mem_cons, not_or]
        exact ⟨apart, busy.2⟩
      · obtain ⟨rfl, _⟩ := efCoroutineCurrent_eq_some.mp current
        simp [Sched.ended, Sched.modify_fibers, apart]

/-- A coroutine that a step leaves in use runs in its handler or waits in the call it is in. -/
theorem HandlerMove.self_placed (move : HandlerMove m er op pool kernel record)
    (inv : MachineInv m) (current : efCoroutineCurrent m.pool = some er) (busy : pool.Busy er) :
    (efCoroutineCurrent pool = some er → record.stage.Running) ∧
      (efCoroutineCurrent pool ≠ some er → ∃ call retval ticket number,
        record.stage = .waiting call retval ticket ∧
          (pool.fiberSched.fibers er).stackPtr = some ⟨er, .yielding number⟩) := by
  -- The pool is the same, paused or exited.
  have running := (inv.routines er (inv.current_busy current)).running current
  rcases move.place running with ⟨rfl, runs⟩ | ⟨rfl, call, retval, ticket, waits⟩ | ⟨rfl, _⟩
  · exact ⟨fun _ => runs, fun away => absurd current away⟩
  · obtain ⟨loop, _⟩ := inv.paused_pool current
    refine ⟨fun runs => absurd (loop.symm.trans runs) (by simp), fun _ => ?_⟩
    refine ⟨call, retval, ticket, m.number, waits, ?_⟩
    obtain ⟨rfl, _⟩ := efCoroutineCurrent_eq_some.mp current
    simp [Machine.paused, Sched.left, Sched.modify_fibers, inv.pool.sched.running]
  · -- Behind an exit the coroutine is free.
    rw [Machine.exited_eq current] at busy
    exact absurd List.mem_cons_self busy.2

/-- Every step of a coroutine keeps the machine in order. -/
theorem HandlerMove.machineInv (move : HandlerMove m er op pool kernel record)
    (inv : MachineInv m) (current : efCoroutineCurrent m.pool = some er) :
    MachineInv (m.moved er pool kernel record) := by
  -- The step writes to the record of the running coroutine, and to no other.
  obtain ⟨kept, older, others, runner⟩ := move.pool_kept inv current
  have busy := inv.current_busy current
  have mine : (m.moved er pool kernel record).routines er = record := by
    simp [Machine.moved, Machine.modify_routines]
  have theirs : ∀ other, other ≠ er →
      (m.moved er pool kernel record).routines other = m.routines other := by
    intro other apart
    simp [Machine.moved, Machine.modify_routines, apart]
  refine ⟨kept, ?_, ?_, move.opened inv.opened⟩
  · intro other inUse
    by_cases same : other = er
    · subst same
      obtain ⟨running, suspended⟩ := move.self_placed inv current inUse
      refine ⟨?_, ?_, ?_⟩
      · rw [mine]
        exact move.fits (inv.routines other busy).fits
      · rw [mine]
        exact running
      · rw [mine]
        exact suspended
    · -- Any other coroutine in use was so before, and waits where it did.
      have old := inv.routines other (older other inUse)
      refine ⟨theirs other same ▸ old.fits, fun runs => absurd (runner other runs) same, ?_⟩
      intro _
      obtain ⟨call, retval, ticket, number, waiting, saved⟩ := old.suspended
        fun runs => same (Option.some.inj (runs.symm.trans current))
      rw [theirs other same]
      exact ⟨call, retval, ticket, number, waiting,
        ((others other (older other inUse) same).2).trans saved⟩
  · intro fd entry other registered points
    rcases move.entries (fun fd entry registered points =>
      (inv.entries fd entry er registered points).2) registered with ⟨old, foreign⟩ | ⟨own, waits⟩
    · -- An entry of another coroutine is an old one.
      have apart : other ≠ er := fun same => foreign (same ▸ points)
      obtain ⟨inUse, waitsFor⟩ := inv.entries fd entry other old points
      exact ⟨(others other inUse apart).1, theirs other apart ▸ waitsFor⟩
    · obtain rfl : other = er := PollPtr.routine.inj (points.symm.trans own)
      refine ⟨?_, by rw [mine]; exact waits⟩
      -- Only an exit takes the coroutine out of use, and behind an exit it waits for nothing.
      rcases move.place ((inv.routines other busy).running current) with
        ⟨rfl, _⟩ | ⟨rfl, _⟩ | ⟨_, idle⟩
      · exact busy
      · exact busy
      · rw [idle] at waits
        cases waits

end Moves

/-- A shrink deletes nobody in use and resumes nobody. -/
theorem MachineInv.shrunk {m : Machine} (inv : MachineInv m) (idleMillisecs maxCount : Int)
    (tv : TimeVal) :
    MachineInv { m with pool := (efCoroutinePoolShrink m.pool idleMillisecs maxCount tv).1 } ∧
      (∀ er, (efCoroutinePoolShrink m.pool idleMillisecs maxCount tv).1.Busy er ↔
        m.pool.Busy er) ∧
      (efCoroutinePoolShrink m.pool idleMillisecs maxCount tv).1.fiberSched =
        m.pool.fiberSched := by
  -- The scheduler is not touched, and being in use is not either.
  obtain ⟨gone, free, shrunk, kept, left⟩ := inv.pool.shrink idleMillisecs maxCount tv
  rw [shrunk]
  have sched := foldl_delete_fiberSched gone m.pool
  -- Only free coroutines are deleted, so being in use means the same before and after.
  have busy : ∀ er, (gone.foldl Pool.delete m.pool).Busy er ↔ m.pool.Busy er := by
    intro er
    simp only [Pool.Busy, (left er).1, (left er).2, not_and, not_not]
    constructor
    · rintro ⟨⟨full, stays⟩, away⟩
      exact ⟨full, fun isFree => stays (away isFree)⟩
    · rintro ⟨full, used⟩
      exact ⟨⟨full, fun member => used (free er member)⟩, fun isFree => absurd isFree used⟩
  have current :
      efCoroutineCurrent (gone.foldl Pool.delete m.pool) = efCoroutineCurrent m.pool := by
    simp only [efCoroutineCurrent, sched]
  have chain : (gone.foldl Pool.delete m.pool).chain = m.pool.chain := by
    simp only [Pool.chain, sched]
  refine ⟨⟨chain ▸ kept, ?_, ?_, inv.opened⟩, busy, sched⟩
  · intro er inUse
    obtain ⟨fits, running, suspended⟩ := inv.routines er ((busy er).mp inUse)
    refine ⟨fits, fun runs => running (current ▸ runs), fun idle => ?_⟩
    simp only [sched]
    exact suspended (current ▸ idle)
  · intro fd entry er registered points
    obtain ⟨inUse, waitsFor⟩ := inv.entries fd entry er registered points
    exact ⟨(busy er).mpr inUse, waitsFor⟩

end SimpleSrv.Ef
