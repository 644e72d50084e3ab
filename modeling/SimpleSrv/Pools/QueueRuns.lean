import SimpleSrv.Pools.TaskQueue

/-! Whole runs of a pool that queues its tasks: what they keep, and that all of it gets done. -/

namespace SimpleSrv.Pools

namespace QueuePool

variable {size : Nat} {s t : QueuePool} {op : QueueOp}

/-- Any step may be taken. -/
def Any : QueuePool → QueueOp → Prop := fun _ _ => True

instance (s : QueuePool) (op : QueueOp) : Decidable (Any s op) := isTrue trivial

/-- A step of the pool's own threads, of a caller inside `enqueue`, or of the destructor. -/
def Own : QueuePool → QueueOp → Prop
  -- These come from outside: a new task, a wake-up without a reason, and the end of the pool.
  | _, .enqueue | _, .wake _ | _, .destroy => False
  | _, _ => True

/-- How many steps a worker is at most away from its end, if it finds no task. -/
def workerRank : Worker → Nat
  | .ended => 0
  | .asleep => 1
  | .checking => 2
  | .running _ => 3

/-- What the destructor has still to do, with those that it is going to wake up. -/
def destructorRank (size : Nat) : Destructor → Nat
  | .uncalled | .returned => 0
  | .notifying => 2 * size + 2
  | .joining k => size + 1 - k

/-- The steps that the pool can take at most before something comes from outside. -/
def rank (size : Nat) (s : QueuePool) : Nat :=
  totalWeight workerRank s.workers + 2 * s.tasks.length + 2 * s.notifying +
    destructorRank size s.destructor

/-- The pool has nothing left to do. -/
structure Settled (size : Nat) (s : QueuePool) : Prop where
  /-- Every accepted task has been run. -/
  done : 0 < size → s.tasks = [] ∧ s.taken.length = s.accepted ∧
    s.finished.Perm (List.range s.accepted)
  /-- A destructor that has been called has returned. -/
  destroyed : s.destructor = .uncalled ∨ s.destructor = .returned
  /-- Without one, all the workers wait for more. -/
  waiting : s.destructor = .uncalled → ∀ worker ∈ s.workers, worker = Worker.asleep

namespace Inv

/-- The invariant holds wherever a run leads. -/
theorem of_run {ops : List QueueOp} (run : Run QueuePool.step Any (.new size) ops s) :
    s.Inv size :=
  run.invariant (.new size) fun _ _ _ inv _ stepped => inv.step stepped

/-- A worker is inside a task exactly if it says so. -/
theorem runs_iff {worker : Worker} {task : Nat} :
    worker.runs = some task ↔ worker = .running task := by
  cases worker <;> simp [Worker.runs]

/-- What has been taken is finished, once no worker is inside a task. -/
theorem finished_perm (inv : s.Inv size)
    (idle : ∀ (k task : Nat), s.workers[k]? ≠ some (.running task)) :
    s.finished.Perm (List.range s.taken.length) := by
  apply inv.history.finished_perm
  intro k
  cases at_ : s.workers[k]? with
  | none => rfl
  | some worker =>
    cases worker with
    | running task => exact absurd at_ (idle k task)
    | checking | asleep | ended => rfl

/-- An empty queue means that everything submitted has been taken. -/
theorem taken_all (inv : s.Inv size) (empty : s.tasks = []) : s.taken.length = s.accepted := by
  have count := inv.history.taken_range.2
  rw [empty] at count
  exact count

/-- The invariant says what a caller may expect. -/
theorem boundedFifo (inv : s.Inv size) : s.BoundedFifo size where
  threads := inv.threads
  onWorkers := fun run member => inv.threads ▸ inv.history.onWorkers run member
  inOrder := inv.history.taken_range.1
  submitted := Nat.le_of_add_right_le (Nat.le_of_eq inv.history.taken_range.2)
  running := fun k task => by
    rw [← inv.history.running k task, Option.bind_eq_some_iff]
    simp only [runs_iff, exists_eq_right]
  finishedOnce := ⟨inv.history.finishedOnce, fun _ => inv.history.finished_lt⟩
  drained := by
    intro returned positive
    have ended : ∀ (k : Nat) (worker : Worker), s.workers[k]? = some worker → worker = .ended :=
      fun k worker at_ => inv.left returned worker (List.mem_of_getElem? at_)
    -- The first worker has ended, so it has seen an empty queue.
    have within : 0 < s.workers.length := inv.threads.symm ▸ positive
    have first := ended 0 _ (List.getElem?_eq_getElem within)
    have empty := (inv.ended 0 (first ▸ List.getElem?_eq_getElem within)).2
    have all := inv.taken_all empty
    refine ⟨all, all ▸ inv.finished_perm fun k task running => ?_⟩
    cases ended k _ running

end Inv

/--
However callers, workers and the destructor are interleaved, the pool is a bounded queue: each
task is taken once and in order, and the destructor leaves none behind.
-/
theorem queue_pool_bounded_fifo (size : Nat) (ops : List QueueOp) (s : QueuePool)
    (run : Run QueuePool.step Any (.new size) ops s) : s.BoundedFifo size :=
  (Inv.of_run run).boundedFifo

/-- Two tasks for two workers, of which one sleeps first, and then the end of the pool. -/
def twoTasks : List QueueOp :=
  [.check 0, .enqueue, .enqueue, .check 1, .notifyOne (some 0), .check 0, .notifyOne none,
    .destroy, .finish 1, .check 1, .notifyAll, .finish 0, .check 0, .join, .join, .leave]

/-- A destructor has returned behind two tasks, which have been taken in their order. -/
theorem queue_pool_bounded_fifo_two : ∃ s, execute QueuePool.step Any (.new 2) twoTasks = some s ∧
    s.destructor = .returned ∧ s.taken = [⟨0, 1⟩, ⟨1, 0⟩] ∧ s.BoundedFifo 2 :=
  ⟨_, rfl, rfl, rfl, queue_pool_bounded_fifo 2 twoTasks _ (.of_execute rfl)⟩

section Progress

/-- A worker's change is paid for by the rank of what it was. -/
theorem rank_workers {k : Nat} {old : Worker} (next : Worker) (at_ : s.workers[k]? = some old) :
    totalWeight workerRank (s.workers.set k next) + workerRank old =
      totalWeight workerRank s.workers + workerRank next :=
  totalWeight_set workerRank at_

/-- A notification is paid for twice, once for itself and once for the worker that it wakes up. -/
theorem rank_notifyOne {chosen : Option Nat} (stepped : s.step (.notifyOne chosen) = some t) :
    t.rank size < s.rank size := by
  -- Its worth is two steps, of which the worker gets one.
  unfold rank
  simp only [QueuePool.step] at stepped
  split at stepped
  · cases stepped
  · rename_i pending
    have positive : 0 < s.notifying := by omega
    cases chosen with
    | some k =>
      obtain ⟨asleep, stepped⟩ := Option.ite_none_right_eq_some.mp stepped
      obtain rfl := Option.some.inj stepped
      have paid := rank_workers .checking asleep
      simp only [workerRank] at paid ⊢
      omega
    | none =>
      obtain ⟨_, stepped⟩ := Option.ite_none_left_eq_some.mp stepped
      obtain rfl := Option.some.inj stepped
      simp only
      omega

/-- A worker that looks at the queue falls asleep, ends, or takes a task that pays for its run. -/
theorem rank_check {k : Nat} (stepped : s.step (.check k) = some t) :
    t.rank size < s.rank size := by
  -- Each of the three ends lowers the rank of this worker, or of the queue.
  unfold rank
  obtain ⟨checking, stepped⟩ := Option.ite_none_right_eq_some.mp stepped
  split at stepped
  · obtain rfl := Option.some.inj stepped
    have paid := rank_workers (if s.stop then .ended else .asleep) checking
    have less : workerRank (if s.stop then .ended else .asleep) ≤ 1 := by
      split <;> simp [workerRank]
    simp only [workerRank] at paid less ⊢
    omega
  · rename_i task rest queued
    obtain rfl := Option.some.inj stepped
    have paid := rank_workers (.running task) checking
    simp only [workerRank, queued, List.length_cons] at paid ⊢
    omega

/-- A worker whose task returns is nearer to its rest by one step. -/
theorem rank_finish {k : Nat} (stepped : s.step (.finish k) = some t) :
    t.rank size < s.rank size := by
  -- The worker is back at its check, which is worth less than a run.
  unfold rank
  simp only [QueuePool.step] at stepped
  split at stepped
  · rename_i running
    obtain rfl := Option.some.inj stepped
    have paid := rank_workers .checking running
    simp only [workerRank] at paid ⊢
    omega
  · cases stepped

/-- The destructor's notification is worth the steps of all the workers that it wakes up. -/
theorem rank_notifyAll (inv : s.Inv size) (stepped : s.step .notifyAll = some t) :
    t.rank size < s.rank size := by
  unfold rank
  obtain ⟨called, stepped⟩ := Option.ite_none_right_eq_some.mp stepped
  obtain rfl := Option.some.inj stepped
  -- Each sleeper gains one by being woken up, and there are `size` workers at most.
  have gain : ∀ worker, workerRank (woken worker) ≤ workerRank worker + 1 := by
    intro worker
    cases worker <;> simp [woken, workerRank]
  have paid := totalWeight_map_le workerRank gain s.workers
  rw [inv.threads] at paid
  simp only [called, destructorRank]
  omega

/-- A join brings the destructor to the next worker, of which there are `size`. -/
theorem rank_join (inv : s.Inv size) (stepped : s.step .join = some t) :
    t.rank size < s.rank size := by
  -- The number that is joined next only grows.
  unfold rank
  simp only [QueuePool.step] at stepped
  split at stepped
  · rename_i k joining
    obtain ⟨ended, stepped⟩ := Option.ite_none_right_eq_some.mp stepped
    obtain rfl := Option.some.inj stepped
    have within : k < s.workers.length := (List.getElem?_eq_some_iff.mp ended).1
    rw [inv.threads] at within
    simp only [joining, destructorRank]
    omega
  · cases stepped

/-- The destructor returns behind the last worker. -/
theorem rank_leave (inv : s.Inv size) (stepped : s.step .leave = some t) :
    t.rank size < s.rank size := by
  -- This is the last of the destructor's steps.
  unfold rank
  obtain ⟨joining, stepped⟩ := Option.ite_none_right_eq_some.mp stepped
  obtain rfl := Option.some.inj stepped
  rw [inv.threads] at joining
  simp only [joining, destructorRank]
  omega

/-- Each step of the pool itself brings it nearer to its rest. -/
theorem rank_lt (inv : s.Inv size) (own : Own s op) (stepped : s.step op = some t) :
    t.rank size < s.rank size := by
  -- A new task, the destructor's call and a wake-up without a reason are not the pool's own.
  cases op with
  | enqueue => cases own
  | wake k => cases own
  | destroy => cases own
  | notifyOne chosen => exact rank_notifyOne stepped
  | check k => exact rank_check stepped
  | finish k => exact rank_finish stepped
  | notifyAll => exact rank_notifyAll inv stepped
  | join => exact rank_join inv stepped
  | leave => exact rank_leave inv stepped

/-- A worker that could go on by itself is not there when no step is left. -/
theorem idle_of_stuck (stuck : Stuck QueuePool.step Own s) {k : Nat} {worker : Worker}
    (at_ : s.workers[k]? = some worker) : worker = .asleep ∨ worker = .ended := by
  -- A worker that checks or runs has a step of its own whatever the others do.
  cases worker with
  | checking =>
    have none := stuck (.check k) trivial
    simp only [QueuePool.step, if_pos at_] at none
    split at none <;> cases none
  | running task =>
    have none := stuck (.finish k) trivial
    simp only [QueuePool.step, at_] at none
    cases none
  | asleep => exact .inl rfl
  | ended => exact .inr rfl

/-- All callers have done their `notify_one` when no step is left, or the pool is gone. -/
theorem told_of_stuck (stuck : Stuck QueuePool.step Own s) :
    s.notifying = 0 ∨ s.destructor = .returned := by
  by_contra pending
  -- There would be a sleeper to wake up, or nobody.
  by_cases asleep : Worker.asleep ∈ s.workers
  · obtain ⟨k, below, own⟩ := List.getElem_of_mem asleep
    have at_ : s.workers[k]? = some .asleep := by
      rw [List.getElem?_eq_getElem below, own]
    have none := stuck (.notifyOne (some k)) trivial
    simp only [QueuePool.step, if_neg pending, if_pos at_] at none
    cases none
  · have none := stuck (.notifyOne none) trivial
    simp only [QueuePool.step, if_neg pending, if_neg asleep] at none
    cases none

/-- Where no step is left, the queue is empty. -/
theorem empty_of_stuck (inv : s.Inv size) (stuck : Stuck QueuePool.step Own s)
    (positive : 0 < size) : s.tasks = [] := by
  -- A queued task has been noticed by somebody, who could go on.
  by_contra queued
  rcases inv.noticed queued positive with told | ⟨worker, member, awake⟩
  · rcases told_of_stuck stuck with none | returned
    · omega
    · -- The workers of a pool that is gone have seen the queue empty.
      have within : 0 < s.workers.length := inv.threads.symm ▸ positive
      have ended := inv.left returned _ (List.getElem_mem within)
      exact queued (inv.ended 0 (ended ▸ List.getElem?_eq_getElem within)).2
  · obtain ⟨k, at_⟩ := List.mem_iff_getElem?.mp member
    rcases idle_of_stuck stuck at_ with rfl | rfl <;> cases awake

/-- Where no step is left, a destructor that has been called has returned. -/
theorem returned_of_stuck (inv : s.Inv size) (stuck : Stuck QueuePool.step Own s) :
    s.destructor = .uncalled ∨ s.destructor = .returned := by
  cases called : s.destructor with
  | uncalled => exact .inl rfl
  | returned => exact .inr rfl
  | notifying =>
    have none := stuck .notifyAll trivial
    simp only [QueuePool.step, if_pos called] at none
    cases none
  | joining k =>
    have stop : s.stop = true := inv.stopped.mpr (by simp [called])
    have nobody := inv.awake stop (by simp [called])
    by_cases last : k = s.workers.length
    · have none := stuck .leave trivial
      simp only [QueuePool.step, if_pos (called.trans (congrArg _ last))] at none
      cases none
    · -- The next worker to be joined is neither awake nor asleep, so it has ended.
      have within : k < s.workers.length := by
        by_contra beyond
        have before := inv.joined k called s.workers.length (by omega)
        simp at before
      have own := List.getElem?_eq_getElem within
      rcases idle_of_stuck stuck own with asleep | ended
      · exact absurd (asleep ▸ List.getElem_mem within) nobody
      · have none := stuck .join trivial
        simp only [QueuePool.step, called, if_pos (own.trans (congrArg _ ended))] at none
        cases none

/-- Where no step is left, nothing is left to do. -/
theorem settled_of_stuck (inv : s.Inv size) (stuck : Stuck QueuePool.step Own s) :
    s.Settled size where
  done := by
    intro positive
    -- No worker is inside a task, so what was taken is finished.
    have empty := empty_of_stuck inv stuck positive
    have all := inv.taken_all empty
    refine ⟨empty, all, all ▸ inv.finished_perm fun k task running => ?_⟩
    rcases idle_of_stuck stuck running with asleep | ended
    · cases asleep
    · cases ended
  destroyed := returned_of_stuck inv stuck
  waiting := by
    intro uncalled worker member
    obtain ⟨k, at_⟩ := List.mem_iff_getElem?.mp member
    rcases idle_of_stuck stuck at_ with asleep | rfl
    · exact asleep
    · -- A worker only ends in a stopped pool.
      exact absurd uncalled (inv.stopped.mp (inv.ended k at_).1)

/-- The steps of the pool itself lead to its rest. -/
theorem progresses (size : Nat) :
    Progresses QueuePool.step Own (Inv size) (rank size) (Settled size) where
  kept := fun _ _ _ inv _ stepped => inv.step stepped
  lower := fun _ _ _ inv own stepped => rank_lt inv own stepped
  done := fun _ inv stuck => settled_of_stuck inv stuck

/--
No wake-up is lost: from whatever a run has led to, the pool comes to rest in a bounded number of
its own steps, in any order, with every accepted task run and a destructor that was called returned.
-/
theorem queue_pool_settles (size : Nat) (ops : List QueueOp) (s : QueuePool)
    (run : Run QueuePool.step Any (.new size) ops s) :
    Finishes QueuePool.step Own (s.rank size) (Settled size) s :=
  (progresses size).finishes (Inv.of_run run)

/-- The first task is being run, the second one is queued, and the destructor has been called. -/
def twoStopped : QueuePool where
  workers := [.checking, .running 0]
  tasks := [1]
  stop := true
  destructor := .notifying
  accepted := 2
  notifying := 1
  taken := [⟨0, 1⟩]

/-- Fifteen steps are enough to end a pool that has one task queued and another one running. -/
theorem queue_pool_settles_stopped : twoStopped.rank 2 = 15 ∧
    Finishes QueuePool.step Own (twoStopped.rank 2) (Settled 2) twoStopped :=
  ⟨rfl, queue_pool_settles 2 (twoTasks.take 5 ++ [.destroy]) twoStopped (.of_execute rfl)⟩

end Progress

end QueuePool

end SimpleSrv.Pools
