import SimpleSrv.Lib.Progress
import SimpleSrv.Lib.TaskHistory

/-! The pool that creates its threads on demand, whose lock some calls return with. -/

namespace SimpleSrv.Pools

/-- Where a thread of `thread_routine` stands. -/
inductive Thread where
  /-- It is about to lock the pool at the top of its loop. -/
  | starting
  /-- It waits in `condition_timedwait`. -/
  | asleep
  /-- It has left the wait, and is about to lock the pool again. -/
  | woken (timedOut : Bool)
  | running (task : Nat) (timedOut : Bool)
  /-- It has run its task, and is about to lock the pool again. -/
  | finishing (timedOut : Bool)
  | ended
  deriving DecidableEq, Repr

namespace Thread

/-- The task that a thread is inside of. -/
def runs : Thread → Option Nat
  | .running task _ => some task
  | .starting | .asleep | .woken _ | .finishing _ | .ended => none

/-- What a thread contributes to `idle`. -/
def idle : Thread → Nat
  | .asleep | .woken _ => 1
  | .starting | .running _ _ | .finishing _ | .ended => 0

/-- What a thread contributes to `counter`. -/
def alive : Thread → Nat
  | .ended => 0
  | .starting | .asleep | .woken _ | .running _ _ | .finishing _ => 1

/-- A thread that looks at the pool again without being woken up. -/
def IsAwake : Thread → Prop
  | .starting | .woken _ | .running _ _ | .finishing _ => True
  | .asleep | .ended => False

/-- What a wake-up does to a thread. -/
def wakened : Thread → Thread
  | .asleep => .woken false
  | thread => thread

end Thread

/-- How far `threadpool_destroy` has come. -/
inductive Destroyer where
  | uncalled
  | waiting
  /-- It has left its wait, and is about to lock the pool again. -/
  | woken
  | returned
  /-- It has found no thread to wait for, and has returned without unlocking. -/
  | keeping
  deriving DecidableEq, Repr

/-- Who can wait for the pool's only condition variable. -/
inductive Waiter where
  | thread (k : Nat)
  | destroyer
  deriving DecidableEq, Repr

/-- `threadpool_t`, with its history, where a task is the number of submitted ones before it. -/
structure GrowingPool where
  maxThreads : Int
  threads : List Thread := []
  tasks : List Nat := []
  idle : Int := 0
  counter : Int := 0
  quit : Bool := false
  destroyer : Destroyer := .uncalled
  /-- A call has returned without unlocking the pool. -/
  locked : Bool := false
  submitted : Nat := 0
  /-- The calls of `threadpool_add_task` that have returned -1. -/
  refused : Nat := 0
  /-- The calls of `pthread_create` that have failed, which nobody notices. -/
  failed : Nat := 0
  taken : List Taken := []
  finished : List Nat := []
  /-- The threads that have left tasks behind because of an earlier time-out. -/
  deserted : Nat := 0
  deriving DecidableEq, Repr

/-- One step of a caller or of a thread, each from one lock of the pool to its unlock. -/
inductive GrowingOp where
  /-- `threadpool_add_task`, with whom its signal wakes up, and whether a thread can be created. -/
  | addTask (woken : Option Waiter) (created : Bool)
  /-- A thread locks the pool at the top of its loop. -/
  | enter (k : Nat) (woken : Option Waiter)
  /-- A thread locks the pool again behind its wait. -/
  | relock (k : Nat) (woken : Option Waiter)
  | finish (k : Nat)
  /-- A thread locks the pool again behind its task. -/
  | recheck (k : Nat) (woken : Option Waiter)
  | timeOut (k : Nat)
  /-- Somebody who waits is woken up for no reason. -/
  | wake (waiter : Waiter)
  /-- `threadpool_destroy` up to its wait or to its return. -/
  | destroy
  /-- The destroyer locks the pool again behind its wait. -/
  | settle
  deriving DecidableEq, Repr

namespace GrowingPool

/-- `threadpool_init`. -/
def init (threadsNum : Int) : GrowingPool := { maxThreads := threadsNum }

/-- `condition_signal`, with whom it wakes up. -/
def signal (s : GrowingPool) : Option Waiter → Option GrowingPool
  | some (.thread k) =>
    if s.threads[k]? = some .asleep then some { s with threads := s.threads.set k (.woken false) }
    else none
  | some .destroyer =>
    if s.destroyer = .waiting then some { s with destroyer := .woken } else none
  -- Nobody is woken up only if nobody waits.
  | none => if .asleep ∈ s.threads ∨ s.destroyer = .waiting then none else some s

/-- The end of a thread, which only the last one announces. -/
def leave (s : GrowingPool) (k : Nat) (woken : Option Waiter) : Option GrowingPool :=
  let s := { s with counter := s.counter - 1, threads := s.threads.set k .ended }
  if s.counter = 0 then s.signal woken else some s

/-- The tests of `thread_routine` behind its task, or in place of one. -/
def conclude (s : GrowingPool) (k : Nat) (timedOut : Bool) (woken : Option Waiter) :
    Option GrowingPool :=
  if s.quit ∧ s.tasks = [] then s.leave k woken
  else if timedOut then
    -- The queue is not looked at here.
    some { s with
      counter := s.counter - 1
      threads := s.threads.set k .ended
      deserted := if s.tasks = [] then s.deserted else s.deserted + 1 }
  else some { s with threads := s.threads.set k .starting }

/-- What `thread_routine` does from the test of its inner loop to its next unlock. -/
def look (s : GrowingPool) (k : Nat) (timedOut : Bool) (woken : Option Waiter) :
    Option GrowingPool :=
  if timedOut = false ∧ s.tasks = [] ∧ s.quit = false then
    some { s with threads := s.threads.set k .asleep }
  else
    let s := { s with idle := s.idle - 1 }
    match s.tasks with
    | task :: rest => some { s with
        threads := s.threads.set k (.running task timedOut)
        tasks := rest
        taken := s.taken ++ [⟨task, k⟩] }
    | [] => s.conclude k timedOut woken

/-- The critical section of `threadpool_add_task`. -/
def add (s : GrowingPool) (woken : Option Waiter) (created : Bool) : Option GrowingPool :=
  let s := { s with tasks := s.tasks ++ [s.submitted], submitted := s.submitted + 1 }
  if s.idle > 0 then s.signal woken
  else if s.counter < s.maxThreads then
    if created then some { s with threads := s.threads ++ [.starting], counter := s.counter + 1 }
    else some { s with counter := s.counter + 1, failed := s.failed + 1 }
  -- It returns here, without unlocking.
  else some { s with refused := s.refused + 1, locked := true }

/-- The critical section of `threadpool_destroy`, up to its first wait. -/
def stop (s : GrowingPool) : GrowingPool :=
  let s := { s with quit := true }
  if s.counter > 0 then
    let s := if s.idle > 0 then { s with threads := s.threads.map Thread.wakened } else s
    { s with destroyer := .waiting }
  -- The unlocking belongs to the other branch.
  else { s with destroyer := .keeping, locked := true }

/-- One step, where `none` says that it cannot be taken yet, or no longer. -/
def step (s : GrowingPool) : GrowingOp → Option GrowingPool
  | .addTask woken created => if s.locked then none else s.add woken created
  | .enter k woken =>
    if s.locked = false ∧ s.threads[k]? = some .starting then
      { s with idle := s.idle + 1 }.look k false woken
    else none
  | .relock k woken =>
    match s.threads[k]? with
    | some (.woken timedOut) => if s.locked then none else s.look k timedOut woken
    | _ => none
  | .finish k =>
    match s.threads[k]? with
    | some (.running task timedOut) => some { s with
        threads := s.threads.set k (.finishing timedOut)
        finished := s.finished ++ [task] }
    | _ => none
  | .recheck k woken =>
    match s.threads[k]? with
    | some (.finishing timedOut) => if s.locked then none else s.conclude k timedOut woken
    | _ => none
  | .timeOut k =>
    if s.threads[k]? = some .asleep then some { s with threads := s.threads.set k (.woken true) }
    else none
  | .wake (.thread k) =>
    if s.threads[k]? = some .asleep then some { s with threads := s.threads.set k (.woken false) }
    else none
  | .wake .destroyer =>
    if s.destroyer = .waiting then some { s with destroyer := .woken } else none
  | .destroy =>
    -- A second call returns at once.
    if s.quit then some s
    else if s.locked then none
    else some s.stop
  | .settle =>
    if s.locked = false ∧ s.destroyer = .woken then
      some { s with destroyer := if s.counter > 0 then .waiting else .returned }
    else none

/-- What is true of a pool whatever its threads wait for. -/
structure Core (threadsNum : Int) (s : GrowingPool) : Prop where
  history : TaskHistory Thread.runs s.threads s.tasks s.submitted s.taken s.finished
  maxThreads : s.maxThreads = threadsNum
  idle : s.idle = totalWeight Thread.idle s.threads
  counter : s.counter = totalWeight Thread.alive s.threads + s.failed
  bounded : s.counter ≤ max threadsNum 0
  stopped : s.quit = true ↔ s.destroyer ≠ .uncalled
  /-- In a pool that has been stopped nobody goes to sleep any more. -/
  awake : s.quit = true → Thread.asleep ∉ s.threads
  locked : s.locked = true ↔ 0 < s.refused ∨ s.destroyer = .keeping
  keeping : s.destroyer = .keeping → s.counter = 0
  /-- The task of a call that has been refused stays in the queue. -/
  refused : 0 < s.refused → s.tasks.getLast? = some (s.submitted - 1)

/-- What is always true of a pool. -/
structure Inv (threadsNum : Int) (s : GrowingPool) : Prop extends Core threadsNum s where
  /-- A task in the queue is going to be found there. -/
  noticed : s.deserted = 0 → s.failed = 0 → s.locked = false → s.tasks ≠ [] →
    ∃ thread ∈ s.threads, thread.IsAwake
  /-- The destroyer waits for somebody. -/
  announced : s.deserted = 0 → s.destroyer = .waiting → 0 < s.counter

variable {threadsNum : Int} {s t : GrowingPool} {op : GrowingOp} {k : Nat}
  {woken : Option Waiter} {timedOut : Bool}

/-- A new pool has neither threads nor tasks. -/
theorem Inv.init (threadsNum : Int) : (GrowingPool.init threadsNum).Inv threadsNum where
  history := .new fun thread none => by cases none
  maxThreads := rfl
  idle := rfl
  counter := rfl
  bounded := Int.le_max_right ..
  stopped := by simp [GrowingPool.init]
  awake := fun quit => by cases quit
  locked := by simp [GrowingPool.init]
  keeping := fun keeping => by cases keeping
  refused := fun some_ => by cases some_
  noticed := fun _ _ _ queued => absurd rfl queued
  announced := fun _ waiting => by cases waiting

namespace Core

/-- One thread moves, with the history that this leaves behind. -/
theorem move (core : s.Core threadsNum) {old next : Thread} {tasks finished : List Nat}
    {taken : List Taken} {idle counter : Int} {deserted : Nat} (at_ : s.threads[k]? = some old)
    (history : TaskHistory Thread.runs (s.threads.set k next) tasks s.submitted taken finished)
    (idles : idle + old.idle = s.idle + next.idle)
    (counts : counter + old.alive = s.counter + next.alive) (fewer : counter ≤ s.counter)
    (sleeps : next = .asleep → s.quit = false) (kept : s.locked = true → tasks = s.tasks) :
    ({ s with
      threads := s.threads.set k next
      tasks := tasks
      idle := idle
      counter := counter
      taken := taken
      finished := finished
      deserted := deserted } : GrowingPool).Core threadsNum := by
  -- Only `tasks`, the two counts and this one thread change, so each conjunct is either kept or is
  -- the hypothesis about that field; the two sums differ in one summand.
  have idleSum := totalWeight_set Thread.idle (b := next) at_
  have aliveSum := totalWeight_set Thread.alive (b := next) at_
  have idleBefore := core.idle
  have aliveBefore := core.counter
  have counter_eq : counter = totalWeight Thread.alive (s.threads.set k next) + s.failed := by
    omega
  constructor
  · exact history
  · exact core.maxThreads
  · show idle = totalWeight Thread.idle (s.threads.set k next)
    omega
  · exact counter_eq
  · exact Int.le_trans fewer core.bounded
  · exact core.stopped
  · intro quit asleep
    -- The only new sleeper would be this thread.
    rcases List.mem_or_eq_of_mem_set asleep with member | same
    · exact core.awake quit member
    · rw [sleeps same.symm] at quit
      cases quit
  · exact core.locked
  · intro keeping
    have none := core.keeping keeping
    show counter = 0
    omega
  · intro some_
    have same := kept (core.locked.mpr (.inl some_))
    show tasks.getLast? = _
    rw [same]
    exact core.refused some_

/-- Only somebody who waits is idle. -/
theorem exists_idle (core : s.Core threadsNum) (positive : 0 < s.idle) :
    Thread.asleep ∈ s.threads ∨ ∃ thread ∈ s.threads, thread.IsAwake := by
  -- `idle` counts exactly the threads inside `condition_timedwait`, so a positive count cannot be
  -- carried by threads that run or finish.
  by_contra nobody
  rw [not_or, not_exists] at nobody
  have none : totalWeight Thread.idle s.threads = 0 := by
    apply List.sum_eq_zero
    intro weight member
    obtain ⟨thread, inside, rfl⟩ := List.mem_map.mp member
    cases thread with
    | asleep => exact absurd inside nobody.1
    | woken late => exact absurd ⟨inside, trivial⟩ (nobody.2 _)
    | starting | running | finishing | ended => rfl
  have sum := core.idle
  omega

end Core

/-- What a signal leaves as it was, and whom it gets going. -/
structure Signalled (s t : GrowingPool) : Prop where
  tasks : t.tasks = s.tasks
  counter : t.counter = s.counter
  failed : t.failed = s.failed
  locked : t.locked = s.locked
  deserted : t.deserted = s.deserted
  waiting : t.destroyer = .waiting → s.destroyer = .waiting ∧ Thread.asleep ∈ s.threads
  awake : Thread.asleep ∈ s.threads → s.destroyer ≠ .waiting →
    ∃ thread ∈ t.threads, thread.IsAwake
  still : (∃ thread ∈ s.threads, thread.IsAwake) → ∃ thread ∈ t.threads, thread.IsAwake

/-- A signal wakes somebody up who waits, if there is anybody. -/
theorem Core.signal (core : s.Core threadsNum) (signalled : s.signal woken = some t) :
    t.Core threadsNum ∧ s.Signalled t := by
  -- `condition_signal` wakes up a thread, or the destroyer, or nobody when nobody waits.
  cases woken with
  | none =>
    simp only [GrowingPool.signal] at signalled
    split at signalled
    · cases signalled
    · rename_i nobody
      obtain rfl := Option.some.inj signalled
      rw [not_or] at nobody
      refine ⟨core, rfl, rfl, rfl, rfl, rfl, fun waiting => absurd waiting nobody.2,
        fun asleep => absurd asleep nobody.1, id⟩
  | some waiter =>
    cases waiter with
    | thread k =>
      simp only [GrowingPool.signal] at signalled
      split at signalled
      · rename_i asleep
        obtain rfl := Option.some.inj signalled
        have within := (List.getElem?_eq_some_iff.mp asleep).1
        have own : (s.threads.set k (.woken false))[k]? = some (.woken false) :=
          List.getElem?_set_self within
        have up : ∃ thread ∈ s.threads.set k (.woken false), thread.IsAwake :=
          ⟨.woken false, List.mem_of_getElem? own, trivial⟩
        refine ⟨core.move asleep (core.history.move asleep rfl rfl) rfl rfl (Int.le_refl _)
          (by simp) (fun _ => rfl), rfl, rfl, rfl, rfl, rfl,
          fun waiting => ⟨waiting, List.mem_of_getElem? asleep⟩, fun _ _ => up, fun _ => up⟩
      · cases signalled
    | destroyer =>
      simp only [GrowingPool.signal] at signalled
      split at signalled
      · rename_i waiting
        obtain rfl := Option.some.inj signalled
        refine ⟨⟨core.history, core.maxThreads, core.idle, core.counter, core.bounded, ?_,
          core.awake, ?_, nofun, core.refused⟩, rfl, rfl, rfl, rfl, rfl, nofun,
          fun _ away => absurd waiting away, id⟩
        · simpa [waiting] using core.stopped
        · simpa [waiting] using core.locked
      · cases signalled

namespace Inv

/-- The destroyer is not waiting unless the pool has been stopped. -/
theorem quit_of_waiting (inv : s.Inv threadsNum) (waiting : s.destroyer = .waiting) :
    s.quit = true :=
  inv.stopped.mpr (by simp [waiting])

/-- A task is added, and somebody is there for it, or the lock is kept. -/
theorem add {created : Bool} (inv : s.Inv threadsNum) (free : s.locked = false)
    (added : s.add woken created = some t) : t.Inv threadsNum := by
  -- Three ways through `threadpool_add_task`: an idle thread is signalled, a new one is created, or
  -- the call returns with the lock.
  have unrefused : s.refused = 0 ∧ s.destroyer ≠ .keeping := by
    have none := inv.locked.not.mp (by simp [free])
    rw [not_or] at none
    exact ⟨by omega, none.2⟩
  have core : ({ s with
      tasks := s.tasks ++ [s.submitted]
      submitted := s.submitted + 1 } : GrowingPool).Core threadsNum :=
    ⟨inv.history.submit, inv.maxThreads, inv.idle, inv.counter, inv.bounded, inv.stopped, inv.awake,
      inv.locked, inv.keeping, fun some_ => absurd some_ (by simp [unrefused.1])⟩
  simp only [GrowingPool.add] at added
  split at added
  · rename_i positive
    obtain ⟨coreAfter, signalled⟩ := core.signal added
    refine ⟨coreAfter, fun _ _ _ _ => ?_, fun unforsaken waiting => ?_⟩
    · -- The signal may go to the destroyer instead, but not while a thread sleeps.
      rcases core.exists_idle positive with asleep | awake
      · by_cases waiting : s.destroyer = .waiting
        · exact absurd asleep (inv.awake (inv.quit_of_waiting waiting))
        · exact signalled.awake asleep waiting
      · exact signalled.still awake
    · rw [signalled.counter]
      exact inv.announced (signalled.deserted ▸ unforsaken) (signalled.waiting waiting).1
  · split at added
    · rename_i room
      have below : s.counter + 1 ≤ max threadsNum 0 := by
        have most := inv.maxThreads
        omega
      have counts := inv.counter
      have keeps : s.destroyer = .keeping → s.counter + 1 = 0 := fun keeping =>
        absurd keeping unrefused.2
      have nonneg : 0 ≤ s.counter := by omega
      split at added
      · obtain rfl := Option.some.inj added
        have idles : s.idle = totalWeight Thread.idle (s.threads ++ [.starting]) := by
          rw [totalWeight_concat, inv.idle]
          rfl
        have alive : s.counter + 1 =
            totalWeight Thread.alive (s.threads ++ [.starting]) + s.failed := by
          rw [totalWeight_concat]
          simp only [Thread.alive]
          omega
        refine ⟨⟨core.history.hire rfl, inv.maxThreads, idles, alive, below, inv.stopped,
          fun quit => ?_, inv.locked, keeps, core.refused⟩, fun _ _ _ _ => ?_, fun _ _ => ?_⟩
        · simpa using inv.awake quit
        · exact ⟨.starting, by simp, trivial⟩
        · show 0 < s.counter + 1
          omega
      · obtain rfl := Option.some.inj added
        have alive : s.counter + 1 =
            totalWeight Thread.alive s.threads + ((s.failed + 1 : Nat) : Int) := by omega
        refine ⟨⟨core.history, inv.maxThreads, inv.idle, alive, below, inv.stopped, inv.awake,
          inv.locked, keeps, core.refused⟩, nofun, fun _ _ => ?_⟩
        show 0 < s.counter + 1
        omega
    · obtain rfl := Option.some.inj added
      refine ⟨⟨core.history, inv.maxThreads, inv.idle, inv.counter, inv.bounded, inv.stopped,
        inv.awake, ?_, inv.keeping, ?_⟩, nofun, inv.announced⟩
      · simp
      · simp

/-- A thread ends when the pool has been stopped and its queue is empty. -/
theorem leave (inv : s.Inv threadsNum) (finishing : s.threads[k]? = some (.finishing timedOut))
    (quit : s.quit = true) (empty : s.tasks = []) (left : s.leave k woken = some t) :
    t.Inv threadsNum := by
  -- Only the last thread signals, and by then nothing is queued that anybody would have to notice.
  have core : ({ s with
      counter := s.counter - 1
      threads := s.threads.set k .ended } : GrowingPool).Core threadsNum := by
    refine inv.toCore.move finishing (inv.history.move finishing rfl rfl) rfl ?_ ?_ ?_ ?_
    · simp only [Thread.alive]
      omega
    · omega
    · exact nofun
    · exact fun _ => rfl
  have sum := core.counter
  simp only [GrowingPool.leave] at left
  split at left
  · obtain ⟨coreAfter, signalled⟩ := core.signal left
    refine ⟨coreAfter, fun _ _ _ queued => ?_, fun _ waiting => ?_⟩
    · exact absurd (signalled.tasks.trans empty) queued
    · -- Nobody else waits in a pool that has been stopped.
      exact absurd (signalled.waiting waiting).2 (core.awake quit)
  · rename_i others
    obtain rfl := Option.some.inj left
    refine ⟨core, fun _ _ _ queued => absurd empty queued, fun _ _ => ?_⟩
    simp only at others sum ⊢
    omega

/-- The tests behind a task keep the invariant. -/
theorem conclude (inv : s.Inv threadsNum) (finishing : s.threads[k]? = some (.finishing timedOut))
    (concluded : s.conclude k timedOut woken = some t) : t.Inv threadsNum := by
  -- The thread leaves a drained pool, gives up after its time, or starts its loop again.
  simp only [GrowingPool.conclude] at concluded
  split at concluded
  · rename_i leaving
    exact inv.leave finishing leaving.1 leaving.2 concluded
  · rename_i going
    split at concluded
    · obtain rfl := Option.some.inj concluded
      constructor
      · refine inv.toCore.move finishing (inv.history.move finishing rfl rfl) rfl ?_ ?_ ?_ ?_
        · simp only [Thread.alive]
          omega
        · omega
        · exact nofun
        · exact fun _ => rfl
      · intro unforsaken _ _ queued
        have some_ : s.tasks ≠ [] := queued
        simp only [if_neg some_] at unforsaken
        omega
      · intro unforsaken waiting
        -- A stopped pool would have something in its queue, which is deserted.
        have queued : s.tasks ≠ [] := fun empty => going ⟨inv.quit_of_waiting waiting, empty⟩
        simp only [if_neg queued] at unforsaken
        omega
    · obtain rfl := Option.some.inj concluded
      have own : (s.threads.set k .starting)[k]? = some .starting :=
        List.getElem?_set_self (List.getElem?_eq_some_iff.mp finishing).1
      refine ⟨inv.toCore.move finishing (inv.history.move finishing rfl rfl) rfl rfl
        (Int.le_refl _) (by simp) fun _ => rfl, fun _ _ _ _ => ?_, inv.announced⟩
      exact ⟨.starting, List.mem_of_getElem? own, trivial⟩

/-- What the tests do to a thread does not depend on where it stood. -/
theorem conclude_set (s : GrowingPool) (k : Nat) (timedOut : Bool) (woken : Option Waiter)
    (thread : Thread) :
    { s with threads := s.threads.set k thread }.conclude k timedOut woken =
      s.conclude k timedOut woken := by
  simp only [GrowingPool.conclude, GrowingPool.leave, List.set_set]

/-- Nor does the way to the tests. -/
theorem look_set (s : GrowingPool) (k : Nat) (timedOut : Bool) (woken : Option Waiter)
    (thread : Thread) :
    { s with threads := s.threads.set k thread }.look k timedOut woken =
      s.look k timedOut woken := by
  have tests := conclude_set { s with idle := s.idle - 1 } k timedOut woken thread
  simp only at tests
  simp only [GrowingPool.look, List.set_set, tests]

/-- A thread that is awake goes to sleep, takes a task, or comes to the tests without one. -/
theorem look (inv : s.Inv threadsNum) (free : s.locked = false) {late : Bool}
    (awake : s.threads[k]? = some (.woken late)) (looked : s.look k timedOut woken = some t) :
    t.Inv threadsNum := by
  -- The thread finds nothing to do, or a task, or an empty queue after a stop or a time-out.
  have within := (List.getElem?_eq_some_iff.mp awake).1
  simp only [GrowingPool.look] at looked
  split at looked
  · rename_i idle
    obtain rfl := Option.some.inj looked
    refine ⟨inv.toCore.move awake (inv.history.move awake rfl rfl) rfl rfl (Int.le_refl _)
      (fun _ => idle.2.2) fun _ => rfl, fun _ _ _ queued => ?_, inv.announced⟩
    exact absurd idle.2.1 queued
  · split at looked
    · rename_i task rest queued
      obtain rfl := Option.some.inj looked
      have own : (s.threads.set k (.running task timedOut))[k]? = some (.running task timedOut) :=
        List.getElem?_set_self within
      have history := inv.history
      rw [queued] at history
      constructor
      · refine inv.toCore.move awake (history.take awake rfl rfl) ?_ ?_ ?_ ?_ ?_
        · simp only [Thread.idle]
          omega
        · rfl
        · exact Int.le_refl _
        · exact nofun
        · intro locked
          rw [free] at locked
          cases locked
      · exact fun _ _ _ _ => ⟨.running task timedOut, List.mem_of_getElem? own, trivial⟩
      · exact inv.announced
    · rename_i empty
      -- The thread comes to the tests as if it had run a task.
      have own : (s.threads.set k (.finishing timedOut))[k]? = some (.finishing timedOut) :=
        List.getElem?_set_self within
      have arrived : ({ s with
          idle := s.idle - 1
          threads := s.threads.set k (.finishing timedOut) } : GrowingPool).Inv threadsNum := by
        refine ⟨?_, fun _ _ _ queued => absurd empty queued, inv.announced⟩
        refine inv.toCore.move awake (inv.history.move awake rfl rfl) ?_ ?_ ?_ ?_ ?_
        · simp only [Thread.idle]
          omega
        · rfl
        · exact Int.le_refl _
        · exact nofun
        · exact fun _ => rfl
      apply arrived.conclude own
      exact (conclude_set { s with idle := s.idle - 1 } k timedOut woken _).trans looked

/-- A thread at the top of its loop becomes idle first. -/
theorem enter (inv : s.Inv threadsNum) (free : s.locked = false)
    (starting : s.threads[k]? = some .starting)
    (looked : { s with idle := s.idle + 1 }.look k false woken = some t) : t.Inv threadsNum := by
  -- It comes to the loop as if it had been woken up.
  have own : (s.threads.set k (.woken false))[k]? = some (.woken false) :=
    List.getElem?_set_self (List.getElem?_eq_some_iff.mp starting).1
  have arrived : ({ s with
      idle := s.idle + 1
      threads := s.threads.set k (.woken false) } : GrowingPool).Inv threadsNum := by
    refine ⟨?_, fun _ _ _ _ => ?_, inv.announced⟩
    · refine inv.toCore.move starting (inv.history.move starting rfl rfl) ?_ ?_ ?_ ?_ ?_
      · simp only [Thread.idle]
        omega
      · rfl
      · exact Int.le_refl _
      · exact nofun
      · exact fun _ => rfl
    · exact ⟨.woken false, List.mem_of_getElem? own, trivial⟩
  apply arrived.look free own
  exact (look_set { s with idle := s.idle + 1 } k false woken _).trans looked

/-- A thread that waits leaves its wait, in time or late. -/
theorem waken (inv : s.Inv threadsNum) (asleep : s.threads[k]? = some .asleep) (late : Bool) :
    ({ s with threads := s.threads.set k (.woken late) } : GrowingPool).Inv threadsNum := by
  -- A wake-up alone changes no count: the thread stays idle until it has the lock again.
  have own : (s.threads.set k (.woken late))[k]? = some (.woken late) :=
    List.getElem?_set_self (List.getElem?_eq_some_iff.mp asleep).1
  refine ⟨inv.toCore.move asleep (inv.history.move asleep rfl rfl) rfl rfl (Int.le_refl _)
    (by simp) fun _ => rfl, fun _ _ _ _ => ?_, inv.announced⟩
  exact ⟨.woken late, List.mem_of_getElem? own, trivial⟩

/-- A thread finishes its task. -/
theorem finish (inv : s.Inv threadsNum) {task : Nat}
    (running : s.threads[k]? = some (.running task timedOut)) :
    ({ s with
      threads := s.threads.set k (.finishing timedOut)
      finished := s.finished ++ [task] } : GrowingPool).Inv threadsNum := by
  -- The task is run outside the lock, so nothing but the history moves.
  have own : (s.threads.set k (.finishing timedOut))[k]? = some (.finishing timedOut) :=
    List.getElem?_set_self (List.getElem?_eq_some_iff.mp running).1
  refine ⟨inv.toCore.move running (inv.history.finish running rfl rfl) rfl rfl (Int.le_refl _)
    (by simp) fun _ => rfl, fun _ _ _ _ => ?_, inv.announced⟩
  exact ⟨.finishing timedOut, List.mem_of_getElem? own, trivial⟩

/-- The destroyer goes on, or waits again while there are threads. -/
theorem moveDestroyer (inv : s.Inv threadsNum) (quit : s.quit = true) {next : Destroyer}
    (called : next ≠ .uncalled) (unkept : s.destroyer ≠ .keeping) (keeps : next ≠ .keeping)
    (waits : next = .waiting → 0 < s.counter) :
    ({ s with destroyer := next } : GrowingPool).Inv threadsNum where
  history := inv.history
  maxThreads := inv.maxThreads
  idle := inv.idle
  counter := inv.counter
  bounded := inv.bounded
  stopped := by simp [quit, called]
  awake := inv.awake
  locked := by simpa [unkept, keeps] using inv.locked
  keeping := fun keeping => absurd keeping keeps
  refused := inv.refused
  noticed := inv.noticed
  announced := fun _ => waits

/-- Whoever waits is woken up, and counts as before. -/
theorem wakened (inv : s.Inv threadsNum) :
    ({ s with threads := s.threads.map Thread.wakened } : GrowingPool).Inv threadsNum ∧
      Thread.asleep ∉ s.threads.map Thread.wakened := by
  -- A thread weighs the same before and after it has been woken up.
  have idles : totalWeight Thread.idle (s.threads.map Thread.wakened) =
      totalWeight Thread.idle s.threads :=
    totalWeight_map Thread.idle (fun thread => by cases thread <;> rfl) s.threads
  have alive : totalWeight Thread.alive (s.threads.map Thread.wakened) =
      totalWeight Thread.alive s.threads :=
    totalWeight_map Thread.alive (fun thread => by cases thread <;> rfl) s.threads
  have up : Thread.asleep ∉ s.threads.map Thread.wakened := by
    intro asleep
    obtain ⟨thread, _, slept⟩ := List.mem_map.mp asleep
    cases thread <;> cases slept
  refine ⟨⟨⟨inv.history.map fun thread => by cases thread <;> rfl, inv.maxThreads,
    inv.idle.trans (by rw [idles]), inv.counter.trans (by rw [alive]), inv.bounded, inv.stopped,
    fun _ => up, inv.locked, inv.keeping, inv.refused⟩, ?_, inv.announced⟩, up⟩
  intro unforsaken unfailed unlocked queued
  obtain ⟨thread, member, awake⟩ := inv.noticed unforsaken unfailed unlocked queued
  refine ⟨thread.wakened, List.mem_map_of_mem member, ?_⟩
  cases thread <;> trivial

/-- The pool is stopped once nobody sleeps. -/
theorem stop_awake (inv : s.Inv threadsNum) (up : Thread.asleep ∉ s.threads)
    (positive : 0 < s.counter) (free : s.locked = false) :
    ({ s with quit := true, destroyer := .waiting } : GrowingPool).Inv threadsNum := by
  -- With the lock free nobody was refused, so the locked conjunct stays as it was.
  have unrefused : ¬ 0 < s.refused := fun some_ => by
    rw [inv.locked.mpr (.inl some_)] at free
    cases free
  exact ⟨⟨inv.history, inv.maxThreads, inv.idle, inv.counter, inv.bounded, by simp, fun _ => up,
    by simp [free, unrefused], nofun, inv.refused⟩, inv.noticed, fun _ _ => positive⟩

/-- The destroyer stops the pool, and waits for its threads if there are any. -/
theorem stop (inv : s.Inv threadsNum) (free : s.locked = false) : s.stop.Inv threadsNum := by
  -- `threadpool_destroy` waits only if there are threads, and broadcasts only if some are idle.
  simp only [GrowingPool.stop]
  split
  · rename_i positive
    by_cases busy : s.idle > 0
    · simp only [if_pos busy]
      obtain ⟨woken, up⟩ := inv.wakened
      exact woken.stop_awake up positive free
    · simp only [if_neg busy]
      refine inv.stop_awake ?_ positive free
      -- Nobody sleeps in a pool without idle threads.
      intro asleep
      have sum := inv.idle
      have one := le_totalWeight Thread.idle asleep
      simp only [Thread.idle] at one
      omega
  · -- Without threads it returns at once, and keeps the lock.
    rename_i alone
    have counts := inv.counter
    have none : s.counter = 0 := by omega
    have deserted : totalWeight Thread.alive s.threads = 0 := by omega
    refine ⟨⟨inv.history, inv.maxThreads, inv.idle, inv.counter, inv.bounded, by simp, fun _ => ?_,
      by simp, fun _ => none, inv.refused⟩, nofun, nofun⟩
    intro asleep
    have one := le_totalWeight Thread.alive asleep
    simp only [Thread.alive] at one
    omega

/-- Every step keeps the invariant, whoever takes it. -/
theorem step (inv : s.Inv threadsNum) (stepped : s.step op = some t) : t.Inv threadsNum := by
  -- What a step does under its guard has its own lemma; a step whose guard fails is none.
  cases op with
  | addTask woken created =>
    simp only [GrowingPool.step] at stepped
    split at stepped
    · cases stepped
    · exact inv.add (by simpa using ‹¬s.locked = true›) stepped
  | enter k woken =>
    simp only [GrowingPool.step] at stepped
    split at stepped
    · rename_i ready
      exact inv.enter ready.1 ready.2 stepped
    · cases stepped
  | relock k woken =>
    simp only [GrowingPool.step] at stepped
    split at stepped
    · rename_i late awake
      split at stepped
      · cases stepped
      · exact inv.look (by simpa using ‹¬s.locked = true›) awake stepped
    · cases stepped
  | finish k =>
    simp only [GrowingPool.step] at stepped
    split at stepped
    · rename_i running
      obtain rfl := Option.some.inj stepped
      exact inv.finish running
    · cases stepped
  | recheck k woken =>
    simp only [GrowingPool.step] at stepped
    split at stepped
    · rename_i finishing
      split at stepped
      · cases stepped
      · exact inv.conclude finishing stepped
    · cases stepped
  | timeOut k =>
    simp only [GrowingPool.step] at stepped
    split at stepped
    · rename_i asleep
      obtain rfl := Option.some.inj stepped
      exact inv.waken asleep true
    · cases stepped
  | wake waiter =>
    cases waiter with
    | thread k =>
      simp only [GrowingPool.step] at stepped
      split at stepped
      · rename_i asleep
        obtain rfl := Option.some.inj stepped
        exact inv.waken asleep false
      · cases stepped
    | destroyer =>
      simp only [GrowingPool.step] at stepped
      split at stepped
      · rename_i waiting
        obtain rfl := Option.some.inj stepped
        exact inv.moveDestroyer (inv.quit_of_waiting waiting) (by simp) (by simp [waiting])
          (by simp) nofun
      · cases stepped
  | destroy =>
    simp only [GrowingPool.step] at stepped
    split at stepped
    · obtain rfl := Option.some.inj stepped
      exact inv
    · split at stepped
      · cases stepped
      · obtain rfl := Option.some.inj stepped
        exact inv.stop (by simpa using ‹¬s.locked = true›)
  | settle =>
    simp only [GrowingPool.step] at stepped
    split at stepped
    · rename_i ready
      obtain rfl := Option.some.inj stepped
      apply inv.moveDestroyer (inv.stopped.mpr (by simp [ready.2]))
      · split <;> simp
      · simp [ready.2]
      · split <;> simp
      · intro waiting
        split at waiting
        · assumption
        · cases waiting
    · cases stepped

end Inv

end GrowingPool

end SimpleSrv.Pools
