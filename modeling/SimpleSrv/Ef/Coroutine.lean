import SimpleSrv.Ef.Fiber
import SimpleSrv.Lib.CInt

/-! The coroutine pool: creation with re-use, resuming, and shrinking. -/

namespace SimpleSrv.Ef

/-- `struct timeval`. -/
structure TimeVal where
  sec : Int
  usec : Int
  deriving DecidableEq, Repr

/-- Times in the order in which they come. -/
instance : LE TimeVal := ⟨fun a b => a.sec < b.sec ∨ (a.sec = b.sec ∧ a.usec ≤ b.usec)⟩

instance (a b : TimeVal) : Decidable (a ≤ b) :=
  inferInstanceAs (Decidable (a.sec < b.sec ∨ (a.sec = b.sec ∧ a.usec ≤ b.usec)))

/-- The fields of `ef_coroutine_t` besides its fiber and its list entries. -/
structure Coroutine where
  lastRunTime : TimeVal
  runCount : Nat
  deriving DecidableEq, Repr

/-- `ef_coroutine_pool_t`, each list from its head on, and the memory of the coroutines. -/
structure Pool where
  fiberSched : Sched
  stackSize : Nat
  limitMin : Int
  limitMax : Int
  fullList : List Ptr
  freeList : List Ptr
  fullCount : Int
  freeCount : Int
  runCount : Nat
  coroutines : Ptr → Coroutine

/-- `ef_coroutine_pool_init`, once the scheduler is initialised. -/
def efCoroutinePoolInit (threadFiber : Ptr) (memory : Ptr → Fiber) (coroutines : Ptr → Coroutine)
    (stackSize : Nat) (limitMin limitMax : Int) : Pool where
  fiberSched := efFiberInitSched threadFiber memory
  stackSize := stackSize
  limitMin := limitMin
  limitMax := limitMax
  fullList := []
  freeList := []
  fullCount := 0
  freeCount := 0
  runCount := 0
  coroutines := coroutines

/-- `ef_coroutine_current`, which is null on the system thread. -/
def efCoroutineCurrent (pool : Pool) : Option Ptr :=
  if pool.fiberSched.currentFiber = pool.fiberSched.threadFiber then none
  else some pool.fiberSched.currentFiber

/--
`ef_coroutine_create`, given what `ef_fiber_create` would answer.

The second component is the coroutine, or nothing for a null pointer.
There is no behaviour to describe when the counter promises an entry of an empty free list.
-/
def efCoroutineCreate (pool : Pool) (fiberProc param : Ptr) (mapped : Option Ptr) :
    Option (Pool × Option Ptr) :=
  if pool.freeCount > 0 then
    match pool.freeList with
    | [] => none
    | co :: rest =>
      some ({ pool with
        freeCount := pool.freeCount - 1
        freeList := rest
        fiberSched := efFiberInit pool.fiberSched co fiberProc param }, some co)
  else if pool.fullCount ≥ pool.limitMax then some (pool, none)
  else
    match mapped with
    | none => some (pool, none)
    | some co =>
      some ({ pool with
        fiberSched := efFiberInit pool.fiberSched co fiberProc param
        coroutines := Function.update pool.coroutines co { pool.coroutines co with runCount := 0 }
        fullCount := pool.fullCount + 1
        fullList := co :: pool.fullList }, some co)

/-- The end of `ef_coroutine_resume`, after its `ef_fiber_resume` has returned 0. -/
def efCoroutineResumed (pool : Pool) (co : Ptr) (now : TimeVal) : Pool :=
  if (pool.fiberSched.fibers co).status = fiberStatusExited then
    { pool with
      coroutines := Function.update pool.coroutines co
        { runCount := (pool.coroutines co).runCount + 1, lastRunTime := now }
      freeList := co :: pool.freeList
      freeCount := pool.freeCount + 1
      runCount := pool.runCount + 1 }
  else pool

/-- What the pool does at once when a switch of stacks arrives somewhere. -/
def Pool.arrive (pool : Pool) (s : Sched) (arrival : Arrival) (now : TimeVal) : Pool :=
  let pool := { pool with fiberSched := s }
  match arrival.point with
  -- Only the code behind the resume of a coroutine belongs to the pool.
  | .resuming _ co => efCoroutineResumed pool co now
  | .entry _ _ | .yielding _ => pool

/-- `ef_coroutine_resume`, up to its return or to its switch of stacks. -/
def efCoroutineResume (pool : Pool) (co : Ptr) (toYield : Int) (call : Nat) (now : TimeVal) :
    Option Pool :=
  (efFiberResume pool.fiberSched co toYield call).map fun
    | .returned _ => pool
    | .switched s arrival => pool.arrive s arrival now

/-- `ef_fiber_yield` of the running coroutine, with what the pool does where it arrives. -/
def Pool.yield (pool : Pool) (sndval : Int) (call : Nat) (now : TimeVal) : Option Pool :=
  (efFiberYield pool.fiberSched sndval call).map fun (s, arrival) => pool.arrive s arrival now

/-- The exit of the running coroutine, with what the pool does where it arrives. -/
def Pool.exit (pool : Pool) (retval : Int) (now : TimeVal) : Option Pool :=
  (efFiberExit pool.fiberSched retval).map fun (s, arrival) => pool.arrive s arrival now

/-- The test by which a shrink takes a coroutine to be idle for long enough. -/
def IdleEnough (tv last : TimeVal) (idleMillisecs : Int) : Prop :=
  (tv.sec - last.sec) * 1000 > idleMillisecs ∨
    ((tv.sec - last.sec) * 1000 = idleMillisecs ∧
      tv.usec - last.usec ≥ idleMillisecs.tmod 1000)

instance (tv last : TimeVal) (idleMillisecs : Int) : Decidable (IdleEnough tv last idleMillisecs) :=
  inferInstanceAs (Decidable (_ ∨ _))

/-- Take a coroutine out of the pool and delete its fiber. -/
def Pool.delete (pool : Pool) (co : Ptr) : Pool :=
  { pool with
    freeCount := pool.freeCount - 1
    fullCount := pool.fullCount - 1
    freeList := pool.freeList.erase co
    fullList := pool.fullList.erase co }

/-- The loop of `ef_coroutine_pool_shrink`, over the free list from its tail to its head. -/
def shrinkLoop (idleMillisecs : Int) (tv : TimeVal) :
    List Ptr → Nat → Pool → Int → Pool × Int
  | [], _, pool, freeCount => (pool, freeCount)
  | _ :: _, 0, pool, freeCount => (pool, freeCount)
  | co :: before, maxCount + 1, pool, freeCount =>
    if IdleEnough tv (pool.coroutines co).lastRunTime idleMillisecs then
      shrinkLoop idleMillisecs tv before maxCount (pool.delete co) (freeCount + 1)
    else (pool, freeCount)

/-- `ef_coroutine_pool_shrink`, with the time it reads and the number of coroutines it deletes. -/
def efCoroutinePoolShrink (pool : Pool) (idleMillisecs maxCount : Int) (tv : TimeVal) :
    Pool × Int :=
  if pool.freeCount ≤ 0 ∨ (maxCount > 0 ∧ pool.fullCount ≤ pool.limitMin) then (pool, 0)
  else
    -- The difference is an `int`, which may wrap around when the lower limit is negative.
    let beyondMin := toInt (pool.fullCount - pool.limitMin)
    let maxCount := if maxCount > beyondMin then beyondMin else maxCount
    -- The least `int` is its own negative there, and is counted down in as many turns as here.
    let maxCount := if maxCount < 0 then -maxCount else maxCount
    shrinkLoop idleMillisecs tv pool.freeList.reverse maxCount.toNat pool 0

/-- What the running code, on the system thread or in a coroutine, can ask of the pool. -/
inductive PoolOp where
  | create (fiberProc param : Ptr) (mapped : Option Ptr)
  | resume (co : Ptr) (toYield : Int) (now : TimeVal)
  | yield (sndval : Int) (now : TimeVal)
  | exit (retval : Int) (now : TimeVal)
  | shrink (idleMillisecs maxCount : Int) (now : TimeVal)
  deriving DecidableEq, Repr

/-- A pool in use, with the number of operations made on it. -/
structure PoolRun where
  pool : Pool
  number : Nat

/-- One operation of the running code on the pool. -/
def poolStep (r : PoolRun) : PoolOp → Option PoolRun
  | .create fiberProc param mapped =>
    (efCoroutineCreate r.pool fiberProc param mapped).map fun (pool, _) => ⟨pool, r.number + 1⟩
  | .resume co toYield now =>
    (efCoroutineResume r.pool co toYield r.number now).map fun pool => ⟨pool, r.number + 1⟩
  | .yield sndval now => (r.pool.yield sndval r.number now).map fun pool => ⟨pool, r.number + 1⟩
  | .exit retval now => (r.pool.exit retval now).map fun pool => ⟨pool, r.number + 1⟩
  | .shrink idleMillisecs maxCount now =>
    some ⟨(efCoroutinePoolShrink r.pool idleMillisecs maxCount now).1, r.number + 1⟩

/-- A mapping made by the kernel never overlaps the memory that is in use already. -/
def Pool.Fresh (pool : Pool) (mapped : Option Ptr) : Prop :=
  ∀ co ∈ mapped, co ∉ pool.fullList ∧ co ≠ pool.fiberSched.threadFiber

instance (pool : Pool) (mapped : Option Ptr) : Decidable (pool.Fresh mapped) :=
  inferInstanceAs (Decidable (∀ co ∈ mapped, _ ∧ _))

/-- What the kernel and the callers of the pool owe it. -/
def PoolDiscipline (r : PoolRun) : PoolOp → Prop
  | .create _ _ mapped => r.pool.Fresh mapped
  -- A coroutine of the pool, suspended or exited, that is not on the running parent chain.
  | .resume co _ _ => co ∈ r.pool.fullList ∧ ¬ OnChain r.pool.fiberSched co
  | .yield _ _ | .exit _ _ => r.pool.fiberSched.currentFiber ≠ r.pool.fiberSched.threadFiber
  | .shrink _ _ _ => True

end SimpleSrv.Ef
