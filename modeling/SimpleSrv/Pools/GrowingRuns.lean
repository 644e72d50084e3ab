import SimpleSrv.Pools.GrowingPool

/-! Whole runs of the pool that creates its threads on demand, with its lock and without it. -/

namespace SimpleSrv.Pools

namespace GrowingPool

variable {threadsNum : Int} {s t : GrowingPool} {op : GrowingOp} {k : Nat}
  {woken : Option Waiter} {timedOut : Bool}

/-- Any step may be taken. -/
def Any : GrowingPool → GrowingOp → Prop := fun _ _ => True

instance (s : GrowingPool) (op : GrowingOp) : Decidable (Any s op) := isTrue trivial

/-- `threadpool_destroy` has returned, with the lock or without it. -/
def Destroyed (s : GrowingPool) : Prop := s.destroyer = .returned ∨ s.destroyer = .keeping

/-- The pool is a bounded queue: what a caller may expect of it at any moment. -/
structure BoundedFifo (threadsNum : Int) (s : GrowingPool) : Prop where
  /-- The two counters say how many threads wait, and how many there should be. -/
  idle : s.idle = totalWeight Thread.idle s.threads
  counter : s.counter = totalWeight Thread.alive s.threads + s.failed
  bounded : totalWeight Thread.alive s.threads ≤ threadsNum.toNat
  /-- Tasks leave the queue in the order of their submission, and none of them twice. -/
  inOrder : s.taken.map Taken.task = List.range s.taken.length
  submitted : s.taken.length + s.tasks.length = s.submitted
  /-- What is being run has been taken by this thread, and is not finished yet. -/
  running : ∀ k task, (∃ timedOut, s.threads[k]? = some (.running task timedOut)) ↔
    ⟨task, k⟩ ∈ s.taken ∧ task ∉ s.finished
  finishedOnce : s.finished.Nodup ∧ ∀ task ∈ s.finished, task < s.taken.length
  /-- The lock is kept after a refusal, and after the destruction of a pool without threads. -/
  locked : s.locked = true ↔ 0 < s.refused ∨ s.destroyer = .keeping
  /-- Nobody is left when `threadpool_destroy` returns. -/
  destroyed : ∀ op t, s.step op = some t → ¬ s.Destroyed → t.Destroyed →
    ∀ thread ∈ t.threads, thread = .ended

namespace Inv

/-- The invariant holds wherever a run leads. -/
theorem of_run {ops : List GrowingOp} (run : Run GrowingPool.step Any (.init threadsNum) ops s) :
    s.Inv threadsNum :=
  run.invariant (.init threadsNum) fun _ _ _ inv _ stepped => inv.step stepped

/-- A pool that counts no threads has none. -/
theorem all_ended (inv : s.Inv threadsNum) (none : s.counter ≤ 0) :
    ∀ thread ∈ s.threads, thread = .ended := by
  -- A thread that has not ended would count for one.
  intro thread member
  have one := le_totalWeight Thread.alive member
  have counts := inv.counter
  cases thread with
  | ended => rfl
  | starting | asleep | woken | running | finishing =>
    simp only [Thread.alive] at one
    omega

/-- A signal does not make the destroyer return. -/
theorem signal_destroyed (alive : ¬ s.Destroyed) (signalled : s.signal woken = some t) :
    ¬ t.Destroyed := by
  -- A destroyer that is signalled has yet to lock the pool again before it returns.
  unfold GrowingPool.signal at signalled
  split at signalled
  · split at signalled
    · obtain rfl := Option.some.inj signalled
      exact alive
    · cases signalled
  · split at signalled
    · obtain rfl := Option.some.inj signalled
      simp [Destroyed]
    · cases signalled
  · split at signalled
    · cases signalled
    · obtain rfl := Option.some.inj signalled
      exact alive

/-- Nor does a thread, whatever it does under the lock. -/
theorem look_destroyed (alive : ¬ s.Destroyed) (looked : s.look k timedOut woken = some t ∨
    s.conclude k timedOut woken = some t) : ¬ t.Destroyed := by
  -- The inner loop ends in the tests, so these come first.
  have tests : ∀ {s : GrowingPool}, ¬ s.Destroyed → s.conclude k timedOut woken = some t →
      ¬ t.Destroyed := by
    intro s alive concluded
    simp only [GrowingPool.conclude, GrowingPool.leave] at concluded
    split at concluded
    · split at concluded
      · exact signal_destroyed (by exact alive) concluded
      · obtain rfl := Option.some.inj concluded
        exact alive
    · split at concluded <;> obtain rfl := Option.some.inj concluded <;> exact alive
  rcases looked with looked | concluded
  · simp only [GrowingPool.look] at looked
    split at looked
    · obtain rfl := Option.some.inj looked
      exact alive
    · split at looked
      · obtain rfl := Option.some.inj looked
        exact alive
      · exact tests (by exact alive) looked
  · exact tests alive concluded

/-- Only two steps make the destroyer return, and they see that no thread is left. -/
theorem counter_of_destroyed (stepped : s.step op = some t) (alive : ¬ s.Destroyed)
    (destroyed : t.Destroyed) : t.counter ≤ 0 := by
  -- Of the steps only `destroy` without threads, and `settle`, set the state of the destroyer to a
  -- return.
  cases op with
  | addTask woken created =>
    simp only [GrowingPool.step, GrowingPool.add] at stepped
    split at stepped
    · cases stepped
    · split at stepped
      · exact absurd destroyed (signal_destroyed (by exact alive) stepped)
      · split at stepped
        · split at stepped <;> obtain rfl := Option.some.inj stepped
          · exact absurd destroyed alive
          · exact absurd destroyed alive
        · obtain rfl := Option.some.inj stepped
          exact absurd destroyed alive
  | enter k woken =>
    simp only [GrowingPool.step] at stepped
    split at stepped
    · exact absurd destroyed (look_destroyed (by exact alive) (.inl stepped))
    · cases stepped
  | relock k woken =>
    simp only [GrowingPool.step] at stepped
    split at stepped
    · split at stepped
      · cases stepped
      · exact absurd destroyed (look_destroyed alive (.inl stepped))
    · cases stepped
  | recheck k woken =>
    simp only [GrowingPool.step] at stepped
    split at stepped
    · split at stepped
      · cases stepped
      · exact absurd destroyed (look_destroyed alive (.inr stepped))
    · cases stepped
  | finish k =>
    simp only [GrowingPool.step] at stepped
    split at stepped
    · obtain rfl := Option.some.inj stepped
      exact absurd destroyed alive
    · cases stepped
  | timeOut k =>
    simp only [GrowingPool.step] at stepped
    split at stepped
    · obtain rfl := Option.some.inj stepped
      exact absurd destroyed alive
    · cases stepped
  | wake waiter =>
    cases waiter with
    | thread k =>
      simp only [GrowingPool.step] at stepped
      split at stepped
      · obtain rfl := Option.some.inj stepped
        exact absurd destroyed alive
      · cases stepped
    | destroyer =>
      simp only [GrowingPool.step] at stepped
      split at stepped
      · obtain rfl := Option.some.inj stepped
        simp [Destroyed] at destroyed
      · cases stepped
  | destroy =>
    simp only [GrowingPool.step, GrowingPool.stop] at stepped
    split at stepped
    · obtain rfl := Option.some.inj stepped
      exact absurd destroyed alive
    · split at stepped
      · cases stepped
      · split at stepped
        · obtain rfl := Option.some.inj stepped
          simp [Destroyed] at destroyed
        · rename_i none
          obtain rfl := Option.some.inj stepped
          exact Int.not_lt.mp none
  | settle =>
    simp only [GrowingPool.step] at stepped
    split at stepped
    · obtain rfl := Option.some.inj stepped
      by_contra some_
      have positive : s.counter > 0 := Int.not_le.mp some_
      simp [Destroyed, positive] at destroyed
    · cases stepped

/-- The invariant says what a caller may expect. -/
theorem boundedFifo (inv : s.Inv threadsNum) : s.BoundedFifo threadsNum where
  idle := inv.idle
  counter := inv.counter
  bounded := by
    have counts := inv.counter
    have most := inv.bounded
    omega
  inOrder := inv.history.taken_range.1
  submitted := inv.history.taken_range.2
  running := fun k task => by
    rw [← inv.history.running k task, Option.bind_eq_some_iff]
    constructor
    · rintro ⟨late, at_⟩
      exact ⟨_, at_, rfl⟩
    · rintro ⟨thread, at_, runs⟩
      cases thread with
      | running own late =>
        obtain rfl := Option.some.inj runs
        exact ⟨late, at_⟩
      | starting | asleep | woken | finishing | ended => cases runs
  finishedOnce := ⟨inv.history.finishedOnce, fun _ => inv.history.finished_lt⟩
  locked := inv.locked
  destroyed := fun _ _ stepped alive destroyed =>
    (inv.step stepped).all_ended (counter_of_destroyed stepped alive destroyed)

end Inv

/--
However callers, threads, time-outs and the destroyer are interleaved, the pool never has too many
threads, its counters are exact, and each task is taken once and in order.
-/
theorem growing_pool_bounded_fifo (threadsNum : Int) (ops : List GrowingOp) (s : GrowingPool)
    (run : Run GrowingPool.step Any (.init threadsNum) ops s) : s.BoundedFifo threadsNum :=
  (Inv.of_run run).boundedFifo

/-- A thread is created for the first task, and destroyed behind it. -/
def oneTask : List GrowingOp :=
  [.addTask none true, .enter 0 none, .destroy, .finish 0, .recheck 0 (some .destroyer), .settle]

/-- The destroyer of a pool with one task has returned behind its thread. -/
theorem growing_pool_bounded_fifo_one :
    ∃ s, execute GrowingPool.step Any (.init 1) oneTask = some s ∧
      s.destroyer = .returned ∧ s.finished = [0] ∧ s.BoundedFifo 1 :=
  ⟨_, rfl, rfl, rfl, growing_pool_bounded_fifo 1 oneTask _ (.of_execute rfl)⟩

section Locked

/-- Nothing that needs the lock has happened between these two states. -/
structure Frozen (s t : GrowingPool) : Prop where
  locked : t.locked = true
  tasks : t.tasks = s.tasks
  taken : t.taken = s.taken
  submitted : t.submitted = s.submitted
  counter : t.counter = s.counter
  destroyed : t.Destroyed ↔ s.Destroyed

/-- Without the lock, threads can only leave their waits and their tasks. -/
theorem frozen_step (locked : s.locked = true) (stepped : s.step op = some t) :
    s.Frozen t ∧ ∀ woken created, op ≠ .addTask woken created := by
  -- Whoever needs the lock cannot go on. A time-out, a wake-up and the end of a task need none, and
  -- `destroy` a second time returns before it locks.
  cases op with
  | addTask woken created => simp [GrowingPool.step, locked] at stepped
  | enter k woken => simp [GrowingPool.step, locked] at stepped
  | settle => simp [GrowingPool.step, locked] at stepped
  | relock k woken =>
    simp only [GrowingPool.step, locked, if_true] at stepped
    split at stepped <;> cases stepped
  | recheck k woken =>
    simp only [GrowingPool.step, locked, if_true] at stepped
    split at stepped <;> cases stepped
  | finish k =>
    simp only [GrowingPool.step] at stepped
    split at stepped
    · obtain rfl := Option.some.inj stepped
      exact ⟨⟨locked, rfl, rfl, rfl, rfl, Iff.rfl⟩, by simp⟩
    · cases stepped
  | timeOut k =>
    simp only [GrowingPool.step] at stepped
    split at stepped
    · obtain rfl := Option.some.inj stepped
      exact ⟨⟨locked, rfl, rfl, rfl, rfl, Iff.rfl⟩, by simp⟩
    · cases stepped
  | wake waiter =>
    cases waiter with
    | thread k =>
      simp only [GrowingPool.step] at stepped
      split at stepped
      · obtain rfl := Option.some.inj stepped
        exact ⟨⟨locked, rfl, rfl, rfl, rfl, Iff.rfl⟩, by simp⟩
      · cases stepped
    | destroyer =>
      simp only [GrowingPool.step] at stepped
      split at stepped
      · rename_i waiting
        obtain rfl := Option.some.inj stepped
        exact ⟨⟨locked, rfl, rfl, rfl, rfl, by simp [Destroyed, waiting]⟩, by simp⟩
      · cases stepped
  | destroy =>
    simp only [GrowingPool.step, locked, if_true] at stepped
    split at stepped
    · obtain rfl := Option.some.inj stepped
      exact ⟨⟨locked, rfl, rfl, rfl, rfl, Iff.rfl⟩, by simp⟩
    · cases stepped

/-- What a call that returns with the lock has made of the pool. -/
structure Dead (s t : GrowingPool) (ops : List GrowingOp) : Prop extends Frozen s t where
  /-- No call of `threadpool_add_task` gets through any more. -/
  unaccepted : ∀ woken created, .addTask woken created ∉ ops

/-- A pool without its lock stays dead. -/
theorem frozen_run {ops : List GrowingOp} (locked : s.locked = true)
    (run : Run GrowingPool.step Any s ops t) : s.Dead t ops := by
  -- By induction on the run, from its front: each step finds the pool locked as the steps before it
  -- have left it.
  induction run with
  | start => exact ⟨⟨locked, rfl, rfl, rfl, rfl, Iff.rfl⟩, by simp⟩
  | next _ _ stepped ih =>
    obtain ⟨frozen, other⟩ := frozen_step ih.locked stepped
    refine ⟨⟨frozen.locked, frozen.tasks.trans ih.tasks, frozen.taken.trans ih.taken,
      frozen.submitted.trans ih.submitted, frozen.counter.trans ih.counter,
      frozen.destroyed.trans ih.destroyed⟩, fun woken created member => ?_⟩
    rcases List.mem_append.mp member with before | last
    · exact ih.unaccepted woken created before
    · exact other woken created (List.mem_singleton.mp last).symm

/--
Once `threadpool_add_task` has refused a task, the pool is dead in whatever way things go on: the
task it has refused stays the last one of a queue from which nothing is taken any more, no task is
accepted, and a destroyer that has not returned yet never does.
-/
theorem refused_pool_dead (threadsNum : Int) (before after : List GrowingOp) (s t : GrowingPool)
    (run : Run GrowingPool.step Any (.init threadsNum) before s) (refused : 0 < s.refused)
    (rest : Run GrowingPool.step Any s after t) :
    s.Dead t after ∧ t.tasks.getLast? = some (t.submitted - 1) := by
  -- The refusal has locked the pool, and from then on the run is one of a locked pool.
  have inv := Inv.of_run run
  have dead := frozen_run (inv.locked.mpr (.inl refused)) rest
  refine ⟨dead, ?_⟩
  rw [dead.tasks, dead.submitted]
  exact inv.refused refused

/-- The second task of a pool for one thread is refused, and never run. -/
theorem refused_pool_dead_second :
    ∃ s t, execute GrowingPool.step Any (.init 1) [.addTask none true, .enter 0 none,
        .addTask none true] = some s ∧
      execute GrowingPool.step Any s [.finish 0] = some t ∧
      s.Dead t [.finish 0] ∧ t.tasks.getLast? = some 1 :=
  ⟨_, _, rfl, rfl, refused_pool_dead 1
    [.addTask none true, .enter 0 none, .addTask none true] [.finish 0] _ _ (.of_execute rfl)
    (by decide) (.of_execute rfl)⟩

end Locked

section Progress

/-- A step of the pool's own threads, or of a destroyer that has been called. -/
def Own : GrowingPool → GrowingOp → Prop
  -- These come from outside: a new task, the clock, a wake-up without a reason, the end.
  | _, .addTask _ _ | _, .timeOut _ | _, .wake _ | _, .destroy => False
  | _, _ => True

/-- How many steps a thread is at most away from its end, if it finds no task. -/
def threadRank : Thread → Nat
  | .ended => 0
  | .asleep => 1
  | .starting | .woken _ => 2
  | .finishing _ => 3
  | .running _ _ => 4

/-- How many steps the destroyer can take at most without being signalled. -/
def destroyerRank : Destroyer → Nat
  | .uncalled | .returned | .keeping => 0
  | .waiting => 1
  | .woken => 2

/-- The steps that the pool can take at most before something comes from outside. -/
def rank (s : GrowingPool) : Nat :=
  totalWeight threadRank s.threads + 3 * s.tasks.length + destroyerRank s.destroyer

/-- The pool has nothing left to do. -/
structure Settled (s : GrowingPool) : Prop where
  /-- Every task has been run. -/
  done : s.tasks = [] ∧ s.taken.length = s.submitted ∧ s.finished.Perm (List.range s.submitted)
  destroyed : s.destroyer = .uncalled ∨ s.destroyer = .returned

/-- A signal costs one step of whoever it wakes up. -/
theorem rank_signal (signalled : s.signal woken = some t) : t.rank ≤ s.rank + 1 := by
  -- A sleeper has rank 1 and a woken thread rank 2, and likewise for the destroyer.
  unfold rank
  unfold GrowingPool.signal at signalled
  split at signalled
  · split at signalled
    · rename_i asleep
      obtain rfl := Option.some.inj signalled
      have paid := totalWeight_set threadRank (b := .woken false) asleep
      simp only [threadRank] at paid ⊢
      omega
    · cases signalled
  · split at signalled
    · rename_i waiting
      obtain rfl := Option.some.inj signalled
      simp only [waiting, destroyerRank]
      omega
    · cases signalled
  · split at signalled
    · cases signalled
    · obtain rfl := Option.some.inj signalled
      omega

/-- A thread that comes to the tests at its end, or with a task behind it, is paid for. -/
theorem rank_conclude {thread : Thread} (at_ : s.threads[k]? = some thread)
    (paying : 3 ≤ threadRank thread ∨
      2 ≤ threadRank thread ∧ (timedOut = true ∨ s.quit = true ∧ s.tasks = []))
    (concluded : s.conclude k timedOut woken = some t) : t.rank < s.rank := by
  -- The end of a thread is worth at least 2, which is more than the signal that comes with it can
  -- cost.
  have ended : totalWeight threadRank (s.threads.set k .ended) + threadRank thread =
      totalWeight threadRank s.threads + 0 := totalWeight_set threadRank at_
  have starting : totalWeight threadRank (s.threads.set k .starting) + threadRank thread =
      totalWeight threadRank s.threads + 2 := totalWeight_set threadRank at_
  have gone : ({ s with
      counter := s.counter - 1
      threads := s.threads.set k .ended } : GrowingPool).rank + 2 ≤ s.rank := by
    simp only [rank]
    omega
  simp only [GrowingPool.conclude, GrowingPool.leave] at concluded
  split at concluded
  · split at concluded
    · have paid := rank_signal concluded
      omega
    · obtain rfl := Option.some.inj concluded
      omega
  · rename_i going
    split at concluded
    · obtain rfl := Option.some.inj concluded
      simp only [rank] at gone ⊢
      omega
    · rename_i early
      obtain rfl := Option.some.inj concluded
      -- Only a thread behind its task goes back to the top of its loop.
      have rich : 3 ≤ threadRank thread := by
        rcases paying with rich | ⟨_, late | done⟩
        · exact rich
        · exact absurd late early
        · exact absurd done going
      simp only [rank]
      omega

/-- A thread in its inner loop falls asleep, takes a task or comes to its end. -/
theorem rank_look {thread : Thread} (at_ : s.threads[k]? = some thread)
    (paying : threadRank thread = 2) (looked : s.look k timedOut woken = some t) :
    t.rank < s.rank := by
  -- Asleep, the thread is worth less than in its loop, and a queued task is worth 3.
  simp only [GrowingPool.look] at looked
  split at looked
  · obtain rfl := Option.some.inj looked
    have asleep : totalWeight threadRank (s.threads.set k .asleep) + threadRank thread =
        totalWeight threadRank s.threads + 1 := totalWeight_set threadRank at_
    simp only [rank]
    omega
  · rename_i going
    split at looked
    · rename_i task rest queued
      obtain rfl := Option.some.inj looked
      -- The task that is taken pays for its run.
      have running : totalWeight threadRank (s.threads.set k (.running task timedOut)) +
          threadRank thread = totalWeight threadRank s.threads + 4 := totalWeight_set threadRank at_
      simp only [rank, queued, List.length_cons]
      omega
    · rename_i empty
      have last : timedOut = true ∨ s.quit = true ∧ s.tasks = [] := by
        by_contra neither
        rw [not_or] at neither
        apply going
        refine ⟨by simpa using neither.1, empty, ?_⟩
        have open_ : ¬ s.quit = true := fun quit => neither.2 ⟨quit, empty⟩
        simpa using open_
      exact rank_conclude (s := { s with idle := s.idle - 1 }) at_
        (.inr ⟨Nat.le_of_eq paying.symm, last⟩) looked

/-- Each step of the pool itself brings it nearer to its rest. -/
theorem rank_lt (own : Own s op) (stepped : s.step op = some t) : t.rank < s.rank := by
  -- The steps of the environment, which can go on for ever, are not the pool's own.
  cases op with
  | addTask woken created => cases own
  | timeOut k => cases own
  | wake waiter => cases own
  | destroy => cases own
  | enter k woken =>
    simp only [GrowingPool.step] at stepped
    split at stepped
    · rename_i ready
      exact rank_look (s := { s with idle := s.idle + 1 }) ready.2 rfl stepped
    · cases stepped
  | relock k woken =>
    simp only [GrowingPool.step] at stepped
    split at stepped
    · rename_i at_
      split at stepped
      · cases stepped
      · exact rank_look at_ rfl stepped
    · cases stepped
  | recheck k woken =>
    simp only [GrowingPool.step] at stepped
    split at stepped
    · rename_i at_
      split at stepped
      · cases stepped
      · exact rank_conclude at_ (.inl (Nat.le_refl _)) stepped
    · cases stepped
  | finish k =>
    simp only [GrowingPool.step] at stepped
    split at stepped
    · rename_i task timedOut at_
      obtain rfl := Option.some.inj stepped
      have paid := totalWeight_set threadRank (b := .finishing timedOut) at_
      simp only [rank, threadRank] at paid ⊢
      omega
    · cases stepped
  | settle =>
    simp only [GrowingPool.step] at stepped
    split at stepped
    · rename_i ready
      obtain rfl := Option.some.inj stepped
      have less : destroyerRank (if s.counter > 0 then .waiting else .returned) ≤ 1 := by
        split <;> simp [destroyerRank]
      simp only [rank, ready.2, destroyerRank] at less ⊢
      omega
    · cases stepped

/-- Somebody can be signalled, or nobody has to be. -/
theorem exists_signal (s : GrowingPool) : ∃ woken t, s.signal woken = some t := by
  -- Any one of those who wait will do.
  by_cases waiting : s.destroyer = .waiting
  · exact ⟨some .destroyer, _, if_pos waiting⟩
  · by_cases asleep : Thread.asleep ∈ s.threads
    · obtain ⟨k, at_⟩ := List.mem_iff_getElem?.mp asleep
      exact ⟨some (.thread k), _, if_pos at_⟩
    · exact ⟨none, s, if_neg (by simp [waiting, asleep])⟩

/-- A thread gets through its tests, whomever it has to signal. -/
theorem exists_conclude (s : GrowingPool) (k : Nat) (timedOut : Bool) :
    ∃ woken t, s.conclude k timedOut woken = some t := by
  -- Only the end of the last thread signals, and then somebody can always be found for it.
  by_cases drained : s.quit ∧ s.tasks = []
  · by_cases last : s.counter - 1 = 0
    · obtain ⟨woken, t, signalled⟩ := exists_signal { s with
        counter := s.counter - 1
        threads := s.threads.set k .ended }
      refine ⟨woken, t, ?_⟩
      rw [conclude, if_pos drained, leave]
      exact (if_pos last).trans signalled
    · refine ⟨none, ?_⟩
      rw [conclude, if_pos drained, leave]
      exact ⟨_, if_neg last⟩
  · refine ⟨none, ?_⟩
    rw [conclude, if_neg drained]
    by_cases late : timedOut = true
    · exact ⟨_, if_pos late⟩
    · exact ⟨_, if_neg late⟩

/-- A thread gets through its inner loop. -/
theorem exists_look (s : GrowingPool) (k : Nat) (timedOut : Bool) :
    ∃ woken t, s.look k timedOut woken = some t := by
  -- With an empty queue the loop is left for the tests, which always go through.
  by_cases idle : timedOut = false ∧ s.tasks = [] ∧ s.quit = false
  · exact ⟨none, _, if_pos idle⟩
  · cases queued : s.tasks with
    | nil =>
      obtain ⟨woken, t, concluded⟩ := exists_conclude { s with idle := s.idle - 1 } k timedOut
      refine ⟨woken, t, ?_⟩
      simp only [look, if_neg idle]
      split
      · rename_i some_
        rw [queued] at some_
        cases some_
      · exact concluded
    | cons task rest =>
      refine ⟨none, ?_⟩
      rw [look, if_neg idle]
      simp only [queued]
      exact ⟨_, rfl⟩

/-- With the lock free, no thread that could go on by itself is there when no step is left. -/
theorem idle_of_stuck (free : s.locked = false) (stuck : Stuck GrowingPool.step Own s)
    {thread : Thread} (at_ : s.threads[k]? = some thread) :
    thread = .asleep ∨ thread = .ended := by
  -- Every other state of a thread has a step of its own that a free lock allows.
  cases thread with
  | asleep => exact .inl rfl
  | ended => exact .inr rfl
  | starting =>
    obtain ⟨woken, t, looked⟩ := exists_look { s with idle := s.idle + 1 } k false
    have none := stuck (.enter k woken) trivial
    rw [GrowingPool.step, if_pos ⟨free, at_⟩, looked] at none
    cases none
  | woken late =>
    obtain ⟨woken, t, looked⟩ := exists_look s k late
    have none := stuck (.relock k woken) trivial
    simp only [GrowingPool.step, at_, free, looked] at none
    cases none
  | running task late =>
    have none := stuck (.finish k) trivial
    simp only [GrowingPool.step, at_] at none
    cases none
  | finishing late =>
    obtain ⟨woken, t, concluded⟩ := exists_conclude s k late
    have none := stuck (.recheck k woken) trivial
    simp only [GrowingPool.step, at_, free, concluded] at none
    cases none

/-- Where no step is left, nothing is left to do, unless threads have failed or have deserted. -/
theorem settled_of_stuck (inv : s.Inv threadsNum) (stuck : Stuck GrowingPool.step Own s)
    (free : s.locked = false) (unforsaken : s.deserted = 0) (unfailed : s.failed = 0) :
    s.Settled := by
  -- A queued task would be noticed by somebody awake, but all threads rest.
  have resting : ∀ thread ∈ s.threads, thread = .asleep ∨ thread = .ended := by
    intro thread member
    obtain ⟨k, at_⟩ := List.mem_iff_getElem?.mp member
    exact idle_of_stuck free stuck at_
  have empty : s.tasks = [] := by
    by_contra queued
    obtain ⟨thread, member, awake⟩ := inv.noticed unforsaken unfailed free queued
    rcases resting thread member with rfl | rfl <;> cases awake
  have all : s.taken.length = s.submitted := by
    have count := inv.history.taken_range.2
    rw [empty] at count
    exact count
  refine ⟨⟨empty, all, all ▸ inv.history.finished_perm fun k => ?_⟩, ?_⟩
  · cases at_ : s.threads[k]? with
    | none => rfl
    | some thread => rcases idle_of_stuck free stuck at_ with rfl | rfl <;> rfl
  · cases called : s.destroyer with
    | uncalled => exact .inl rfl
    | returned => exact .inr rfl
    | keeping =>
      rw [inv.locked.mpr (.inr called)] at free
      cases free
    | woken =>
      have none := stuck .settle trivial
      rw [GrowingPool.step, if_pos ⟨free, called⟩] at none
      cases none
    | waiting =>
      -- Whom the destroyer waits for is neither awake nor asleep.
      have positive := inv.announced unforsaken called
      have quit := inv.quit_of_waiting called
      have ended : ∀ thread ∈ s.threads, thread = .ended := fun thread member =>
        (resting thread member).resolve_left fun asleep => inv.awake quit (asleep ▸ member)
      have none : totalWeight Thread.alive s.threads = 0 := by
        apply List.sum_eq_zero
        intro weight member
        obtain ⟨thread, inside, rfl⟩ := List.mem_map.mp member
        rw [ended thread inside]
        rfl
      have counts := inv.counter
      omega

/-- The steps of the pool itself lead to its rest. -/
theorem progresses (threadsNum : Int) :
    Progresses GrowingPool.step Own (Inv threadsNum) rank fun t =>
      t.locked = false → t.deserted = 0 → t.failed = 0 → t.Settled where
  kept := fun _ _ _ inv _ stepped => inv.step stepped
  lower := fun _ _ _ _ own stepped => rank_lt own stepped
  done := fun _ inv stuck free unforsaken unfailed =>
    settled_of_stuck inv stuck free unforsaken unfailed

/--
From whatever a run has led to, the pool comes to rest in a bounded number of its own steps. Every
task has been run then, and a destroyer that was called has returned, unless a call has kept the
lock, a thread could not be created, or one has left tasks behind after a time-out.
-/
theorem growing_pool_settles (threadsNum : Int) (ops : List GrowingOp) (s : GrowingPool)
    (run : Run GrowingPool.step Any (.init threadsNum) ops s) :
    Finishes GrowingPool.step Own s.rank
      (fun t => t.locked = false → t.deserted = 0 → t.failed = 0 → t.Settled) s :=
  (progresses threadsNum).finishes (Inv.of_run run)

/-- The pool of one thread, with a destroyer that waits for its task to be run. -/
def oneWaiting : GrowingPool where
  maxThreads := 1
  threads := [.running 0 false]
  counter := 1
  quit := true
  destroyer := .waiting
  submitted := 1
  taken := [⟨0, 0⟩]

/-- Five steps are enough for the only thread and for the destroyer that waits for it. -/
theorem growing_pool_settles_one : oneWaiting.rank = 5 ∧
    Finishes GrowingPool.step Own oneWaiting.rank
      (fun t => t.locked = false → t.deserted = 0 → t.failed = 0 → t.Settled) oneWaiting :=
  ⟨rfl, growing_pool_settles 1 (oneTask.take 3) oneWaiting (.of_execute rfl)⟩

end Progress

end GrowingPool

end SimpleSrv.Pools
