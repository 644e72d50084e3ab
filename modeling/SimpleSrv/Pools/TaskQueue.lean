import SimpleSrv.Lib.Progress
import SimpleSrv.Lib.TaskHistory

/-! The pools that queue their tasks: which worker gets which task, and that none is forgotten. -/

namespace SimpleSrv.Pools

/-- Where a worker stands. -/
inductive Worker where
  /-- It is about to lock the queue and to look into it. -/
  | checking
  /-- It waits for the condition variable, without the lock. -/
  | asleep
  | running (task : Nat)
  | ended
  deriving DecidableEq, Repr

/-- A worker that looks into the queue again without being woken up. -/
def Worker.IsAwake : Worker → Prop
  | .checking | .running _ => True
  | .asleep | .ended => False

/-- The task that a worker is inside of. -/
def Worker.runs : Worker → Option Nat
  | .running task => some task
  | .checking | .asleep | .ended => none

/-- How far the destructor has come. -/
inductive Destructor where
  | uncalled
  /-- It has set `stop_`, and is about to wake all the workers up. -/
  | notifying
  /-- It waits for this worker to end, and then for those behind it. -/
  | joining (worker : Nat)
  | returned
  deriving DecidableEq, Repr

/-- `ThreadPool`, with its history, where a task is the number of accepted ones before it. -/
structure QueuePool where
  workers : List Worker
  tasks : List Nat := []
  stop : Bool := false
  destructor : Destructor := .uncalled
  accepted : Nat := 0
  /-- The calls of `enqueue` that have unlocked the queue, and not yet called `notify_one`. -/
  notifying : Nat := 0
  taken : List Taken := []
  finished : List Nat := []
  deriving DecidableEq, Repr

/-- One atomic step of a caller, of a worker or of the destructor. -/
inductive QueueOp where
  /-- The critical section of `enqueue`. -/
  | enqueue
  /-- A `notify_one`, with the worker that it wakes up. -/
  | notifyOne (woken : Option Nat)
  /-- A worker locks the queue, and goes on until it unlocks it. -/
  | check (worker : Nat)
  | finish (worker : Nat)
  /-- A worker that waits is woken up for no reason. -/
  | wake (worker : Nat)
  /-- The critical section of the destructor. -/
  | destroy
  | notifyAll
  | join
  | leave
  deriving DecidableEq, Repr

namespace QueuePool

/-- `ThreadPool::ThreadPool`. -/
def new (size : Nat) : QueuePool := { workers := List.replicate size .checking }

/-- What `notify_all` does to a worker. -/
def woken : Worker → Worker
  | .asleep => .checking
  | worker => worker

/-- One step, where `none` says that it cannot be taken yet, or no longer. -/
def step (s : QueuePool) : QueueOp → Option QueuePool
  | .enqueue =>
    if s.destructor = .returned then none
    -- A stopped pool throws, and changes nothing.
    else if s.stop then some s
    else some { s with
      tasks := s.tasks ++ [s.accepted]
      accepted := s.accepted + 1
      notifying := s.notifying + 1 }
  | .notifyOne woken =>
    if s.notifying = 0 ∨ s.destructor = .returned then none
    else
      match woken with
      | some k =>
        if s.workers[k]? = some .asleep then
          some { s with workers := s.workers.set k .checking, notifying := s.notifying - 1 }
        else none
      -- Nobody is woken up only if nobody waits.
      | none => if .asleep ∈ s.workers then none else some { s with notifying := s.notifying - 1 }
  | .check k =>
    if s.workers[k]? = some .checking then
      match s.tasks with
      | [] => some { s with workers := s.workers.set k (if s.stop then .ended else .asleep) }
      | task :: rest => some { s with
          workers := s.workers.set k (.running task)
          tasks := rest
          taken := s.taken ++ [⟨task, k⟩] }
    else none
  | .finish k =>
    match s.workers[k]? with
    | some (.running task) => some { s with
        workers := s.workers.set k .checking
        finished := s.finished ++ [task] }
    | _ => none
  | .wake k =>
    if s.workers[k]? = some .asleep then some { s with workers := s.workers.set k .checking }
    else none
  | .destroy =>
    if s.destructor = .uncalled then some { s with stop := true, destructor := .notifying }
    else none
  | .notifyAll =>
    if s.destructor = .notifying then
      some { s with workers := s.workers.map woken, destructor := .joining 0 }
    else none
  | .join =>
    match s.destructor with
    | .joining k =>
      if s.workers[k]? = some .ended then some { s with destructor := .joining (k + 1) } else none
    | _ => none
  | .leave =>
    if s.destructor = .joining s.workers.length then some { s with destructor := .returned }
    else none

/-- The pool is a bounded queue: what a caller may expect of it at any moment. -/
structure BoundedFifo (size : Nat) (s : QueuePool) : Prop where
  /-- There are never more threads than the constructor has made. -/
  threads : s.workers.length = size
  onWorkers : ∀ run ∈ s.taken, run.worker < size
  /-- Tasks leave the queue in the order of their submission, and none of them twice. -/
  inOrder : s.taken.map Taken.task = List.range s.taken.length
  submitted : s.taken.length ≤ s.accepted
  /-- What is being run has been taken by this worker, and is not finished yet. -/
  running : ∀ k task, s.workers[k]? = some (.running task) ↔
    ⟨task, k⟩ ∈ s.taken ∧ task ∉ s.finished
  finishedOnce : s.finished.Nodup ∧ ∀ task ∈ s.finished, task < s.taken.length
  /-- The destructor returns only after every accepted task has been taken and finished. -/
  drained : s.destructor = .returned → 0 < size →
    s.taken.length = s.accepted ∧ s.finished.Perm (List.range s.accepted)

/-- What is always true of a pool. -/
structure Inv (size : Nat) (s : QueuePool) : Prop where
  history : TaskHistory Worker.runs s.workers s.tasks s.accepted s.taken s.finished
  threads : s.workers.length = size
  ended : ∀ k : Nat, s.workers[k]? = some .ended → s.stop = true ∧ s.tasks = []
  stopped : s.stop = true ↔ s.destructor ≠ .uncalled
  /-- Behind `notify_all`, nobody goes to sleep any more. -/
  awake : s.stop = true → s.destructor ≠ .notifying → Worker.asleep ∉ s.workers
  joined : ∀ j, s.destructor = .joining j → ∀ i : Nat, i < j → s.workers[i]? = some .ended
  left : s.destructor = .returned → ∀ worker ∈ s.workers, worker = Worker.ended
  /-- A task in the queue is going to be found there. -/
  noticed : s.tasks ≠ [] → 0 < size → 0 < s.notifying ∨ ∃ worker ∈ s.workers, worker.IsAwake

variable {size : Nat} {s t : QueuePool} {op : QueueOp}

/-- A new pool has workers, and nothing for them to do. -/
theorem Inv.new (size : Nat) : (QueuePool.new size).Inv size where
  history := .new fun worker member => by
    obtain rfl := List.eq_of_mem_replicate member
    rfl
  threads := List.length_replicate
  ended := fun k at_ => by simp [QueuePool.new, List.getElem?_replicate] at at_
  stopped := by simp [QueuePool.new]
  awake := fun stop => by cases stop
  joined := fun j joining => by cases joining
  left := fun returned => by cases returned
  noticed := fun some_ => absurd rfl some_

namespace Inv

/-- A worker that has not ended moves, with the history that this leaves behind. -/
theorem move (inv : s.Inv size) {k n : Nat} {old next : Worker} {tasks finished : List Nat}
    {taken : List Taken} (at_ : s.workers[k]? = some old) (alive : old ≠ .ended)
    (history : TaskHistory Worker.runs (s.workers.set k next) tasks s.accepted taken finished)
    (fewer : s.tasks = [] → tasks = [])
    (ends : next = .ended → s.stop = true ∧ s.tasks = [])
    (sleeps : next = .asleep → s.stop = false)
    (noticed : tasks ≠ [] → 0 < size → 0 < n ∨ ∃ worker ∈ s.workers.set k next, worker.IsAwake) :
    ({ s with
      workers := s.workers.set k next
      tasks := tasks
      taken := taken
      finished := finished
      notifying := n } : QueuePool).Inv size := by
  -- The invariant speaks of single workers, so worker `k` is looked at apart from the others, which
  -- stand where they stood.
  have within : k < s.workers.length := (List.getElem?_eq_some_iff.mp at_).1
  have own : (s.workers.set k next)[k]? = some next := List.getElem?_set_self within
  have other : ∀ i, i ≠ k → (s.workers.set k next)[i]? = s.workers[i]? := fun i apart =>
    List.getElem?_set_ne apart.symm
  constructor
  · exact history
  · exact (List.length_set ..).trans inv.threads
  · intro i ended
    by_cases same : i = k
    · subst same
      obtain ⟨stop, empty⟩ := ends (Option.some.inj (own.symm.trans ended))
      exact ⟨stop, fewer empty⟩
    · obtain ⟨stop, empty⟩ := inv.ended i ((other i same).symm.trans ended)
      exact ⟨stop, fewer empty⟩
  · exact inv.stopped
  · intro stop behind asleep
    -- The only new sleeper would be this worker.
    rcases List.mem_or_eq_of_mem_set asleep with member | same
    · exact inv.awake stop behind member
    · rw [sleeps same.symm] at stop
      cases stop
  · intro j joining i below
    by_cases same : i = k
    · subst same
      -- Only workers that have ended are joined.
      exact absurd (Option.some.inj (at_.symm.trans (inv.joined j joining i below))) alive
    · exact (other i same).trans (inv.joined j joining i below)
  · intro returned
    exact absurd (inv.left returned old (List.mem_of_getElem? at_)) alive
  · exact noticed

/-- A worker that sleeps is woken up. -/
theorem waken (inv : s.Inv size) {k n : Nat} (asleep : s.workers[k]? = some .asleep) :
    ({ s with workers := s.workers.set k .checking, notifying := n } : QueuePool).Inv size := by
  have own : (s.workers.set k .checking)[k]? = some .checking :=
    List.getElem?_set_self (List.getElem?_eq_some_iff.mp asleep).1
  refine inv.move asleep (by simp) (inv.history.move asleep rfl rfl) id (by simp) (by simp) ?_
  exact fun _ _ => .inr ⟨.checking, List.mem_of_getElem? own, trivial⟩

/-- A worker that finds the queue empty goes to sleep, or ends with the pool. -/
theorem retire (inv : s.Inv size) {k : Nat} (checking : s.workers[k]? = some .checking)
    (empty : s.tasks = []) :
    ({ s with workers := s.workers.set k (if s.stop then .ended else .asleep) } :
      QueuePool).Inv size := by
  -- `stop` decides between the wait and the return, as the test behind the wait does.
  have idle : Worker.runs (if s.stop then .ended else .asleep) = none := by
    split <;> rfl
  refine inv.move checking (by simp) (inv.history.move checking rfl idle) id ?_ ?_ ?_
  · intro ends
    split at ends
    · exact ⟨‹_›, empty⟩
    · cases ends
  · intro sleeps
    split at sleeps
    · cases sleeps
    · simpa using ‹¬s.stop = true›
  · exact fun queued => absurd empty queued

/-- A worker takes the first task of the queue. -/
theorem take (inv : s.Inv size) {k task : Nat} {rest : List Nat}
    (checking : s.workers[k]? = some .checking) (queued : s.tasks = task :: rest) :
    ({ s with
      workers := s.workers.set k (.running task)
      tasks := rest
      taken := s.taken ++ [⟨task, k⟩] } : QueuePool).Inv size := by
  -- The history records the task and its worker at the moment it is popped.
  have own : (s.workers.set k (.running task))[k]? = some (.running task) :=
    List.getElem?_set_self (List.getElem?_eq_some_iff.mp checking).1
  have history := inv.history
  rw [queued] at history
  refine inv.move checking (by simp) (history.take checking rfl rfl) ?_ (by simp) (by simp) ?_
  · intro empty
    rw [queued] at empty
    cases empty
  · exact fun _ _ => .inr ⟨.running task, List.mem_of_getElem? own, trivial⟩

/-- A worker finishes its task, and looks for the next one. -/
theorem finish (inv : s.Inv size) {k task : Nat} (running : s.workers[k]? = some (.running task)) :
    ({ s with
      workers := s.workers.set k .checking
      finished := s.finished ++ [task] } : QueuePool).Inv size := by
  have own : (s.workers.set k .checking)[k]? = some .checking :=
    List.getElem?_set_self (List.getElem?_eq_some_iff.mp running).1
  refine inv.move running (by simp) (inv.history.finish running rfl rfl) id (by simp) (by simp) ?_
  exact fun _ _ => .inr ⟨.checking, List.mem_of_getElem? own, trivial⟩

/-- A task is accepted, and its caller is about to wake a worker up. -/
theorem enqueue (inv : s.Inv size) (going : s.stop = false) :
    ({ s with
      tasks := s.tasks ++ [s.accepted]
      accepted := s.accepted + 1
      notifying := s.notifying + 1 } : QueuePool).Inv size := by
  -- `enqueue` throws in a stopped pool, so the destructor has not been called yet.
  have uncalled : s.destructor = .uncalled := by
    by_contra called
    rw [inv.stopped.mpr called] at going
    cases going
  constructor
  · exact inv.history.submit
  · exact inv.threads
  · intro k ended
    -- Nobody has ended, for the pool is not stopped.
    have stop := (inv.ended k ended).1
    rw [going] at stop
    cases stop
  · exact inv.stopped
  · exact inv.awake
  · intro j joining
    rw [uncalled] at joining
    cases joining
  · intro returned
    rw [uncalled] at returned
    cases returned
  · intro _ _
    exact .inl (Nat.succ_pos _)

/-- The destructor stops the pool, and has not woken anybody up yet. -/
theorem destroy (inv : s.Inv size) :
    ({ s with stop := true, destructor := .notifying } : QueuePool).Inv size where
  history := inv.history
  threads := inv.threads
  ended := fun k ended => ⟨rfl, (inv.ended k ended).2⟩
  stopped := by simp
  awake := fun _ behind => absurd rfl behind
  joined := fun j joining => by cases joining
  left := fun returned => by cases returned
  noticed := inv.noticed

/-- All the workers are woken up, and stay awake from here on. -/
theorem notifyAll (inv : s.Inv size) (called : s.destructor = .notifying) :
    ({ s with workers := s.workers.map woken, destructor := .joining 0 } : QueuePool).Inv size := by
  -- `notify_all` changes sleepers only, and what it changes them to is awake.
  constructor
  · exact inv.history.map fun worker => by cases worker <;> rfl
  · exact (List.length_map ..).trans inv.threads
  · intro k ended
    -- Nobody ends by being woken up.
    rw [List.getElem?_map] at ended
    obtain ⟨own, at_, up⟩ := Option.map_eq_some_iff.mp ended
    cases own with
    | ended => exact inv.ended k at_
    | checking | running | asleep => cases up
  · simpa [called] using inv.stopped
  · intro _ _ asleep
    obtain ⟨own, _, slept⟩ := List.mem_map.mp asleep
    cases own <;> cases slept
  · intro j joining i below
    obtain rfl := Destructor.joining.inj joining
    exact absurd below (Nat.not_lt_zero i)
  · intro returned
    cases returned
  · intro queued positive
    rcases inv.noticed queued positive with told | ⟨own, member, awake⟩
    · exact .inl told
    · refine .inr ⟨woken own, List.mem_map_of_mem member, ?_⟩
      cases own <;> trivial

/-- The destructor has joined one more worker. -/
theorem join (inv : s.Inv size) {k : Nat} (joining : s.destructor = .joining k)
    (ended : s.workers[k]? = some .ended) :
    ({ s with destructor := .joining (k + 1) } : QueuePool).Inv size where
  history := inv.history
  threads := inv.threads
  ended := inv.ended
  stopped := by simpa [joining] using inv.stopped
  awake := fun stop _ => inv.awake stop (by simp [joining])
  joined := fun j same i below => by
    obtain rfl := Destructor.joining.inj same
    rcases Nat.lt_succ_iff_lt_or_eq.mp below with before | rfl
    · exact inv.joined k joining i before
    · exact ended
  left := fun returned => by cases returned
  noticed := inv.noticed

/-- The destructor returns behind the last worker. -/
theorem leave (inv : s.Inv size) (joining : s.destructor = .joining s.workers.length) :
    ({ s with destructor := .returned } : QueuePool).Inv size where
  history := inv.history
  threads := inv.threads
  ended := inv.ended
  stopped := by simpa [joining] using inv.stopped
  awake := fun stop _ => inv.awake stop (by simp [joining])
  joined := fun j same => by cases same
  left := fun _ worker member => by
    obtain ⟨k, below, rfl⟩ := List.getElem_of_mem member
    have ended := inv.joined _ joining k below
    rw [List.getElem?_eq_getElem below] at ended
    exact Option.some.inj ended
  noticed := inv.noticed

/-- Nobody sleeps, so a task in the queue is going to be found there. -/
theorem awake_of_queued (inv : s.Inv size) (queued : s.tasks ≠ []) (positive : 0 < size)
    (nobody : Worker.asleep ∉ s.workers) : ∃ worker ∈ s.workers, worker.IsAwake := by
  -- The first worker is as good as any other.
  have within : 0 < s.workers.length := inv.threads.symm ▸ positive
  refine ⟨s.workers[0], List.getElem_mem within, ?_⟩
  cases own : s.workers[0] with
  | checking => trivial
  | running task => trivial
  | asleep => exact nobody (own ▸ List.getElem_mem within)
  | ended =>
    have ended : s.workers[0]? = some .ended := by
      rw [List.getElem?_eq_getElem within, own]
    exact queued (inv.ended 0 ended).2

/-- A `notify_one` that nobody waits for is of no consequence. -/
theorem told (inv : s.Inv size) (nobody : Worker.asleep ∉ s.workers) :
    ({ s with notifying := s.notifying - 1 } : QueuePool).Inv size where
  history := inv.history
  threads := inv.threads
  ended := inv.ended
  stopped := inv.stopped
  awake := inv.awake
  joined := inv.joined
  left := inv.left
  noticed := fun queued positive => .inr (inv.awake_of_queued queued positive nobody)

/-- Every step keeps the invariant, whoever takes it. -/
theorem step (inv : s.Inv size) (stepped : s.step op = some t) : t.Inv size := by
  -- What a step does under its guard has its own lemma; a step whose guard fails is none.
  cases op with
  | enqueue =>
    simp only [QueuePool.step] at stepped
    split at stepped
    · cases stepped
    · split at stepped
      · obtain rfl := Option.some.inj stepped
        exact inv
      · rename_i going
        obtain rfl := Option.some.inj stepped
        exact inv.enqueue (by simpa using going)
  | notifyOne woken =>
    simp only [QueuePool.step] at stepped
    split at stepped
    · cases stepped
    · cases woken with
      | some k =>
        simp only at stepped
        split at stepped
        · rename_i asleep
          obtain rfl := Option.some.inj stepped
          exact inv.waken asleep
        · cases stepped
      | none =>
        simp only at stepped
        split at stepped
        · cases stepped
        · rename_i nobody
          obtain rfl := Option.some.inj stepped
          exact inv.told nobody
  | check k =>
    simp only [QueuePool.step] at stepped
    split at stepped
    · rename_i checking
      split at stepped
      · rename_i empty
        obtain rfl := Option.some.inj stepped
        exact inv.retire checking empty
      · rename_i queued
        obtain rfl := Option.some.inj stepped
        exact inv.take checking queued
    · cases stepped
  | finish k =>
    simp only [QueuePool.step] at stepped
    split at stepped
    · rename_i running
      obtain rfl := Option.some.inj stepped
      exact inv.finish running
    · cases stepped
  | wake k =>
    simp only [QueuePool.step] at stepped
    split at stepped
    · rename_i asleep
      obtain rfl := Option.some.inj stepped
      exact inv.waken asleep
    · cases stepped
  | destroy =>
    simp only [QueuePool.step] at stepped
    split at stepped
    · obtain rfl := Option.some.inj stepped
      exact inv.destroy
    · cases stepped
  | notifyAll =>
    simp only [QueuePool.step] at stepped
    split at stepped
    · rename_i called
      obtain rfl := Option.some.inj stepped
      exact inv.notifyAll called
    · cases stepped
  | join =>
    simp only [QueuePool.step] at stepped
    split at stepped
    · rename_i k joining
      split at stepped
      · rename_i ended
        obtain rfl := Option.some.inj stepped
        exact inv.join joining ended
      · cases stepped
    · cases stepped
  | leave =>
    simp only [QueuePool.step] at stepped
    split at stepped
    · rename_i joining
      obtain rfl := Option.some.inj stepped
      exact inv.leave joining
    · cases stepped

end Inv

end QueuePool

end SimpleSrv.Pools
