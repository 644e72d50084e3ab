import Mathlib.Data.List.Basic
import Mathlib.Data.List.Nodup
import Mathlib.Data.List.Perm.Basic
import SimpleSrv.Lib.Run

/-! The thread pool: which threads run the accepted tasks, and what its destructor waits for. -/

namespace SimpleSrv.Nebula

/-- Where a thread of the pool stands. -/
inductive PoolThread where
  /-- It is one of the constructor's, and about to enter its critical section. -/
  | waiting
  /-- It has a task, which it is about to call. -/
  | ready (task : Nat)
  | running (task : Nat)
  | ended
  deriving DecidableEq, Repr

/-- The thread is inside a task. -/
def PoolThread.isRunning : PoolThread → Bool
  | .running _ => true
  | .waiting | .ready _ | .ended => false

/-- The start of a task on a thread. -/
structure TaskStart where
  task : Nat
  thread : Nat
  deriving DecidableEq, Repr

/-- `ThreadPool`, with its history, where a task is the number of accepted ones before it. -/
structure ThreadPool where
  /-- The number of threads that the constructor has made, which come first. -/
  size : Nat
  workers : List PoolThread
  tasks : List Nat := []
  stop : Bool := false
  accepted : Nat := 0
  started : List TaskStart := []
  finished : List Nat := []
  /-- The thread that the destructor joins next, once it has been called. -/
  joining : Option Nat := none
  /-- The destructor has returned. -/
  destroyed : Bool := false
  deriving DecidableEq, Repr

/-- One atomic step of a caller, of a thread of the pool or of its destructor. -/
inductive ThreadPoolOp where
  | add
  /-- A thread of the constructor gets through its critical section. -/
  | critical (thread : Nat)
  | start (thread : Nat)
  | finish (thread : Nat)
  /-- The destructor sets `stop_` and wakes the threads up. -/
  | destruct
  | join
  | leave
  deriving DecidableEq, Repr

namespace ThreadPool

/-- `ThreadPool::ThreadPool`. -/
def new (size : Nat) : ThreadPool := { size := size, workers := List.replicate size .waiting }

/-- One step, where `none` says that it cannot be taken yet. -/
def step (s : ThreadPool) : ThreadPoolOp → Option ThreadPool
  | .add =>
    if s.destroyed then none
    -- A stopped pool throws, and changes nothing.
    else if s.stop then some s
    -- The task gets a new thread, and does not go into the queue.
    else some { s with
      workers := s.workers ++ [.ready s.accepted]
      accepted := s.accepted + 1 }
  | .critical k =>
    if k < s.size ∧ s.workers[k]? = some .waiting then
      match s.tasks with
      | [] => if s.stop then some { s with workers := s.workers.set k .ended } else none
      | task :: rest => some { s with workers := s.workers.set k (.ready task), tasks := rest }
    else none
  | .start k =>
    match s.workers[k]? with
    | some (.ready task) => some { s with
        workers := s.workers.set k (.running task)
        started := s.started ++ [⟨task, k⟩] }
    | _ => none
  | .finish k =>
    match s.workers[k]? with
    | some (.running task) => some { s with
        workers := s.workers.set k (if k < s.size then .waiting else .ended)
        finished := s.finished ++ [task] }
    | _ => none
  | .destruct =>
    match s.joining with
    | none => some { s with stop := true, joining := some 0 }
    | some _ => none
  | .join =>
    match s.joining with
    | some k =>
      if s.workers[k]? = some .ended then some { s with joining := some (k + 1) } else none
    | none => none
  | .leave =>
    if s.joining = some s.workers.length then some { s with destroyed := true } else none

/-- This step is an `Add` that does not throw. -/
def Accepts (s : ThreadPool) (op : ThreadPoolOp) : Prop := op = .add ∧ s.stop = false

/-- The pool is a bounded queue: what a caller may expect of it at any moment. -/
structure BoundedFifo (s : ThreadPool) : Prop where
  onWorkers : ∀ run ∈ s.started, run.thread < s.size
  bounded : s.workers.countP PoolThread.isRunning ≤ s.size
  /-- The tasks are started in the order of their submission, and none of them twice. -/
  inOrder : s.started.map TaskStart.task = List.range s.started.length
  submitted : s.started.length ≤ s.accepted
  /-- The destructor returns only after every accepted task has been started and finished. -/
  drained : s.destroyed = true →
    s.started.length = s.accepted ∧ s.finished.Perm (List.range s.accepted)

/-- What is always true of the threads of a pool. -/
structure Inv (s : ThreadPool) : Prop where
  empty : s.tasks = []
  /-- Each accepted task has a thread of its own. -/
  length : s.workers.length = s.size + s.accepted
  idle : ∀ k < s.size, s.workers[k]? = some .waiting ∨ s.workers[k]? = some .ended
  runners : ∀ t < s.accepted, s.workers[s.size + t]? = some (.ready t) ∨
    s.workers[s.size + t]? = some (.running t) ∨ s.workers[s.size + t]? = some .ended
  started : ∀ t k, ⟨t, k⟩ ∈ s.started ↔
    t < s.accepted ∧ k = s.size + t ∧ s.workers[k]? ≠ some (.ready t)
  startedOnce : s.started.Nodup
  finished : ∀ t, t ∈ s.finished ↔ t < s.accepted ∧ s.workers[s.size + t]? = some .ended
  finishedOnce : s.finished.Nodup
  joined : ∀ j, s.joining = some j → s.stop = true ∧ ∀ i < j, s.workers[i]? = some .ended
  left : s.destroyed = true → s.joining = some s.workers.length

variable {s t : ThreadPool} {op : ThreadPoolOp}

/-- A new pool has threads, and nothing for them to do. -/
theorem Inv.new (size : Nat) : (ThreadPool.new size).Inv where
  empty := rfl
  length := by simp [ThreadPool.new]
  idle := fun k below => .inl (List.getElem?_replicate_of_lt below)
  runners := fun t none => absurd none (Nat.not_lt_zero t)
  started := fun t k => by simp [ThreadPool.new]
  startedOnce := List.nodup_nil
  finished := fun t => by simp [ThreadPool.new]
  finishedOnce := List.nodup_nil
  joined := fun j joining => by cases joining
  left := fun destroyed => by cases destroyed

namespace Inv

/-- A thread with a task is not one of the constructor's, and the task is its own. -/
theorem thread_of_ready (inv : s.Inv) {k task : Nat}
    (at_ : s.workers[k]? = some (.ready task) ∨ s.workers[k]? = some (.running task)) :
    task < s.accepted ∧ k = s.size + task := by
  -- The threads of the constructor never get a task.
  by_cases early : k < s.size
  · rcases inv.idle k early with idle | idle <;> simp [idle] at at_
  · obtain ⟨n, rfl⟩ := Nat.exists_eq_add_of_le (Nat.le_of_not_lt early)
    have within : s.size + n < s.workers.length := by
      rcases at_ with at_ | at_ <;> exact (List.getElem?_eq_some_iff.mp at_).1
    have below : n < s.accepted := by
      rw [inv.length] at within
      omega
    have same : n = task := by
      rcases inv.runners n below with own | own | own <;> simp [own] at at_ <;> exact at_
    subst same
    exact ⟨below, rfl⟩

/-- An accepted task gets a thread at the end, which has not started it. -/
theorem add (inv : s.Inv) (going : s.stop = false) :
    ({ s with
      workers := s.workers ++ [.ready s.accepted]
      accepted := s.accepted + 1 } : ThreadPool).Inv := by
  -- The destructor has not been called yet, so no thread is joined.
  have unjoined : s.joining = none := by
    cases joining : s.joining with
    | none => rfl
    | some j => exact absurd (inv.joined j joining).1 (by simp [going])
  have older : ∀ k < s.size + s.accepted,
      (s.workers ++ [.ready s.accepted])[k]? = s.workers[k]? := fun k below =>
    List.getElem?_append_left (inv.length ▸ below)
  have newest : (s.workers ++ [.ready s.accepted])[s.size + s.accepted]? =
      some (.ready s.accepted) := by
    rw [← inv.length, List.getElem?_concat_length]
  constructor
  · exact inv.empty
  · simp only [List.length_append, List.length_singleton, inv.length]
    omega
  · intro k below
    have same := older k (Nat.lt_add_right _ below)
    simp only [same]
    exact inv.idle k below
  · intro t below
    rcases Nat.lt_succ_iff_lt_or_eq.mp below with before | rfl
    · have same := older (s.size + t) (Nat.add_lt_add_left before _)
      simp only [same]
      exact inv.runners t before
    · exact .inl newest
  · intro t k
    constructor
    · intro member
      obtain ⟨below, rfl, past⟩ := (inv.started t k).mp member
      refine ⟨Nat.lt_succ_of_lt below, rfl, ?_⟩
      show (s.workers ++ [.ready s.accepted])[s.size + t]? ≠ _
      rw [older _ (Nat.add_lt_add_left below _)]
      exact past
    · rintro ⟨below, rfl, past⟩
      have before : t < s.accepted := by
        rcases Nat.lt_succ_iff_lt_or_eq.mp below with before | rfl
        · exact before
        · exact absurd newest past
      have same := older (s.size + t) (Nat.add_lt_add_left before _)
      simp only [same] at past
      exact (inv.started t _).mpr ⟨before, rfl, past⟩
  · exact inv.startedOnce
  · intro t
    constructor
    · intro member
      obtain ⟨below, ended⟩ := (inv.finished t).mp member
      exact ⟨Nat.lt_succ_of_lt below, (older _ (Nat.add_lt_add_left below _)).trans ended⟩
    · rintro ⟨below, ended⟩
      have before : t < s.accepted := by
        rcases Nat.lt_succ_iff_lt_or_eq.mp below with before | rfl
        · exact before
        · simp only [newest] at ended
          cases ended
      exact (inv.finished t).mpr ⟨before, (older _ (Nat.add_lt_add_left before _)).symm.trans ended⟩
  · exact inv.finishedOnce
  · intro j joining
    rw [unjoined] at joining
    cases joining
  · intro destroyed
    have joining := inv.left destroyed
    rw [unjoined] at joining
    cases joining

/--
One thread moves, and the rest of the invariant is what the two lists of the history say of it.
-/
theorem move_thread (inv : s.Inv) {k : Nat} {next : PoolThread} {started : List TaskStart}
    {finished : List Nat} (idle : k < s.size → next = .ended)
    (runner : ∀ t, k = s.size + t → next = .running t ∨ next = .ended)
    (lasting : s.workers[k]? = some .ended → next = .ended)
    (history : ∀ t i, ⟨t, i⟩ ∈ started ↔
      t < s.accepted ∧ i = s.size + t ∧ (s.workers.set k next)[i]? ≠ some (.ready t))
    (startedOnce : started.Nodup)
    (ends : ∀ t, t ∈ finished ↔
      t < s.accepted ∧ (s.workers.set k next)[s.size + t]? = some .ended)
    (finishedOnce : finished.Nodup) :
    ({ s with
      workers := s.workers.set k next
      started := started
      finished := finished } : ThreadPool).Inv := by
  have own : k < s.size + s.accepted → (s.workers.set k next)[k]? = some next := fun within =>
    List.getElem?_set_self (inv.length ▸ within)
  constructor
  · exact inv.empty
  · exact (List.length_set ..).trans inv.length
  · intro i below
    by_cases same : i = k
    · subst same
      obtain rfl := idle below
      exact .inr (own (Nat.lt_add_right _ below))
    · simp only [List.getElem?_set_ne (Ne.symm same)]
      exact inv.idle i below
  · intro t below
    by_cases same : s.size + t = k
    · have reached : (s.workers.set k next)[s.size + t]? = some next := by
        rw [same]
        exact own (same ▸ Nat.add_lt_add_left below _)
      rcases runner t same.symm with rfl | rfl
      · exact .inr (.inl reached)
      · exact .inr (.inr reached)
    · simp only [List.getElem?_set_ne (Ne.symm same)]
      exact inv.runners t below
  · exact history
  · exact startedOnce
  · exact ends
  · exact finishedOnce
  · intro j joining
    obtain ⟨stop, ended⟩ := inv.joined j joining
    refine ⟨stop, fun i below => ?_⟩
    -- A thread that has been joined does not move again.
    by_cases same : i = k
    · subst same
      obtain rfl := lasting (ended i below)
      exact own (inv.length ▸ (List.getElem?_eq_some_iff.mp (ended i below)).1)
    · exact (List.getElem?_set_ne (Ne.symm same)).trans (ended i below)
  · intro destroyed
    show s.joining = some (s.workers.set k next).length
    rw [List.length_set]
    exact inv.left destroyed

/-- A thread of the constructor can only end in its critical section, for want of a task. -/
theorem end_worker (inv : s.Inv) {k : Nat} (early : k < s.size) :
    ({ s with workers := s.workers.set k .ended } : ThreadPool).Inv := by
  -- The thread of a task is another one.
  have runner : ∀ t, (s.workers.set k .ended)[s.size + t]? = s.workers[s.size + t]? := fun t =>
    List.getElem?_set_ne (by omega)
  apply inv.move_thread
  · exact fun _ => rfl
  · exact fun t late => .inr rfl
  · exact fun _ => rfl
  · intro t i
    rw [inv.started t i]
    constructor
    · rintro ⟨below, rfl, past⟩
      exact ⟨below, rfl, by simpa only [runner] using past⟩
    · rintro ⟨below, rfl, past⟩
      exact ⟨below, rfl, by simpa only [runner] using past⟩
  · exact inv.startedOnce
  · intro t
    rw [runner]
    exact inv.finished t
  · exact inv.finishedOnce

/-- A task is started by the thread that was made for it. -/
theorem start (inv : s.Inv) {k task : Nat} (at_ : s.workers[k]? = some (.ready task)) :
    ({ s with
      workers := s.workers.set k (.running task)
      started := s.started ++ [⟨task, k⟩] } : ThreadPool).Inv := by
  obtain ⟨below, rfl⟩ := inv.thread_of_ready (.inl at_)
  have own : (s.workers.set (s.size + task) (.running task))[s.size + task]? =
      some (.running task) := List.getElem?_set_self (List.getElem?_eq_some_iff.mp at_).1
  apply inv.move_thread
  · intro early
    omega
  · intro t same
    obtain rfl := Nat.add_left_cancel same
    exact .inl rfl
  · intro ended
    exact absurd (at_.symm.trans ended) (by simp)
  · intro t i
    rw [List.mem_append, inv.started t i, List.mem_singleton, TaskStart.mk.injEq]
    -- The new entry is that of this task, whose thread has left its first place.
    by_cases same : t = task
    · subst same
      constructor
      · rintro (⟨_, rfl, past⟩ | ⟨_, rfl⟩)
        · exact absurd at_ past
        · exact ⟨below, rfl, by simp [own]⟩
      · rintro ⟨_, rfl, _⟩
        exact .inr ⟨rfl, rfl⟩
    · have apart : s.size + task ≠ s.size + t := by omega
      constructor
      · rintro (⟨accepted, rfl, past⟩ | ⟨rfl, _⟩)
        · exact ⟨accepted, rfl, by simpa only [List.getElem?_set_ne apart] using past⟩
        · exact absurd rfl same
      · rintro ⟨accepted, rfl, past⟩
        exact .inl ⟨accepted, rfl, by simpa only [List.getElem?_set_ne apart] using past⟩
  · have fresh : (⟨task, s.size + task⟩ : TaskStart) ∉ s.started := fun member =>
      ((inv.started _ _).mp member).2.2 at_
    exact List.nodup_append.mpr ⟨inv.startedOnce, List.nodup_singleton _, by
      intro run member other_ last
      obtain rfl := List.mem_singleton.mp last
      rintro rfl
      exact fresh member⟩
  · intro t
    rw [inv.finished t]
    by_cases same : t = task
    · subst same
      simp [own, at_]
    · have apart : s.size + task ≠ s.size + t := by omega
      rw [List.getElem?_set_ne apart]
  · exact inv.finishedOnce

/-- A task is finished by the thread that was made for it, which ends then. -/
theorem finish (inv : s.Inv) {k task : Nat} (at_ : s.workers[k]? = some (.running task)) :
    ({ s with
      workers := s.workers.set k (if k < s.size then .waiting else .ended)
      finished := s.finished ++ [task] } : ThreadPool).Inv := by
  obtain ⟨below, rfl⟩ := inv.thread_of_ready (.inr at_)
  -- A thread of its own task is none of the constructor's, so it ends.
  rw [if_neg (by omega)]
  have own : (s.workers.set (s.size + task) .ended)[s.size + task]? = some .ended :=
    List.getElem?_set_self (List.getElem?_eq_some_iff.mp at_).1
  apply inv.move_thread
  · exact fun _ => rfl
  · exact fun t same => .inr rfl
  · exact fun _ => rfl
  · intro t i
    rw [inv.started t i]
    -- A task that is finished stays started.
    by_cases same : t = task
    · subst same
      constructor
      · rintro ⟨accepted, rfl, _⟩
        exact ⟨accepted, rfl, by simp [own]⟩
      · rintro ⟨accepted, rfl, _⟩
        exact ⟨accepted, rfl, by simp [at_]⟩
    · have apart : s.size + task ≠ s.size + t := by omega
      constructor
      · rintro ⟨accepted, rfl, past⟩
        exact ⟨accepted, rfl, by simpa only [List.getElem?_set_ne apart] using past⟩
      · rintro ⟨accepted, rfl, past⟩
        exact ⟨accepted, rfl, by simpa only [List.getElem?_set_ne apart] using past⟩
  · exact inv.startedOnce
  · intro t
    rw [List.mem_append, inv.finished t, List.mem_singleton]
    by_cases same : t = task
    · subst same
      exact iff_of_true (.inr rfl) ⟨below, own⟩
    · have apart : s.size + task ≠ s.size + t := by omega
      simp only [List.getElem?_set_ne apart, same, or_false]
  · have fresh : task ∉ s.finished := fun member => by
      have ended := ((inv.finished task).mp member).2
      rw [at_] at ended
      cases ended
    exact List.nodup_append.mpr ⟨inv.finishedOnce, List.nodup_singleton _, by
      intro t member other_ last
      obtain rfl := List.mem_singleton.mp last
      rintro rfl
      exact fresh member⟩

/-- Only the place of the destructor has changed. -/
theorem moved (inv : s.Inv) {stop destroyed : Bool} {joining : Option Nat}
    (joined : ∀ j, joining = some j → stop = true ∧ ∀ i < j, s.workers[i]? = some .ended)
    (left : destroyed = true → joining = some s.workers.length) :
    ({ s with stop := stop, joining := joining, destroyed := destroyed } : ThreadPool).Inv where
  empty := inv.empty
  length := inv.length
  idle := inv.idle
  runners := inv.runners
  started := inv.started
  startedOnce := inv.startedOnce
  finished := inv.finished
  finishedOnce := inv.finishedOnce
  joined := joined
  left := left

/-- Every step keeps what is known of the threads. -/
theorem step (inv : s.Inv) (stepped : s.step op = some t) : t.Inv := by
  -- By the step, where the destructor only moves on.
  cases op with
  | add =>
    obtain ⟨_, stepped⟩ := Option.ite_none_left_eq_some.mp stepped
    split at stepped
    · exact Option.some.inj stepped ▸ inv
    · rename_i going
      obtain rfl := Option.some.inj stepped
      exact inv.add (by simpa using going)
  | critical k =>
    obtain ⟨⟨early, _⟩, stepped⟩ := Option.ite_none_right_eq_some.mp stepped
    split at stepped
    · obtain ⟨_, stepped⟩ := Option.ite_none_right_eq_some.mp stepped
      obtain rfl := Option.some.inj stepped
      exact inv.end_worker early
    · -- Nothing has ever been put into the queue.
      rename_i queued
      rw [inv.empty] at queued
      cases queued
  | start k =>
    simp only [ThreadPool.step] at stepped
    split at stepped
    · rename_i task at_
      obtain rfl := Option.some.inj stepped
      exact inv.start at_
    · cases stepped
  | finish k =>
    simp only [ThreadPool.step] at stepped
    split at stepped
    · rename_i task at_
      obtain rfl := Option.some.inj stepped
      exact inv.finish at_
    · cases stepped
  | destruct =>
    simp only [ThreadPool.step] at stepped
    split at stepped
    · rename_i unjoined
      obtain rfl := Option.some.inj stepped
      apply inv.moved
      · intro j joining
        obtain rfl := Option.some.inj joining
        exact ⟨rfl, fun i none => absurd none (Nat.not_lt_zero i)⟩
      · intro destroyed
        rw [inv.left destroyed] at unjoined
        cases unjoined
    · cases stepped
  | join =>
    simp only [ThreadPool.step] at stepped
    split at stepped
    · rename_i k joining
      obtain ⟨ended, stepped⟩ := Option.ite_none_right_eq_some.mp stepped
      obtain rfl := Option.some.inj stepped
      obtain ⟨stop, before⟩ := inv.joined k joining
      apply inv.moved
      · intro j next
        obtain rfl := Option.some.inj next
        refine ⟨stop, fun i below => ?_⟩
        -- The thread that was waited for comes behind those that were joined before.
        rcases Nat.lt_succ_iff_lt_or_eq.mp below with earlier | rfl
        · exact before i earlier
        · exact ended
      · intro destroyed
        have all := Option.some.inj (joining.symm.trans (inv.left destroyed))
        rw [all, List.getElem?_eq_none (Nat.le_refl _)] at ended
        cases ended
    · cases stepped
  | leave =>
    obtain ⟨joining, stepped⟩ := Option.ite_none_right_eq_some.mp stepped
    obtain rfl := Option.some.inj stepped
    exact inv.moved inv.joined fun _ => joining

/-- The destructor returns only after all the threads have ended. -/
theorem all_ended (inv : s.Inv) (destroyed : s.destroyed = true) {k : Nat}
    (within : k < s.size + s.accepted) : s.workers[k]? = some .ended :=
  -- It has joined each of them in turn.
  (inv.joined _ (inv.left destroyed)).2 k (inv.length ▸ within)

/-- Each accepted task has been run exactly once when the destructor has returned. -/
theorem all_finished (inv : s.Inv) (destroyed : s.destroyed = true) :
    s.finished.Perm (List.range s.accepted) ∧
      (s.started.map TaskStart.task).Perm (List.range s.accepted) := by
  -- Both lists have the accepted tasks as their members, without a repetition.
  have onOwn : ∀ run ∈ s.started, run.thread = s.size + run.task := fun run member =>
    ((inv.started run.task run.thread).mp member).2.1
  have once : (s.started.map TaskStart.task).Nodup := by
    apply inv.startedOnce.map_on
    intro first member second other same
    have thread := (onOwn first member).trans (same ▸ (onOwn second other).symm)
    cases first
    cases second
    simp_all
  constructor
  · apply (List.perm_ext_iff_of_nodup inv.finishedOnce List.nodup_range).mpr
    intro task
    rw [inv.finished, List.mem_range]
    exact ⟨And.left, fun below => ⟨below, inv.all_ended destroyed (by omega)⟩⟩
  · apply (List.perm_ext_iff_of_nodup once List.nodup_range).mpr
    intro task
    rw [List.mem_map, List.mem_range]
    constructor
    · rintro ⟨run, member, rfl⟩
      exact ((inv.started run.task run.thread).mp member).1
    · intro below
      have past : s.workers[s.size + task]? ≠ some (.ready task) := by
        rw [inv.all_ended destroyed (by omega)]
        simp
      exact ⟨⟨task, s.size + task⟩, (inv.started _ _).mpr ⟨below, rfl, past⟩, rfl⟩

/-- A pool that has accepted nothing is a bounded queue, which has always been empty. -/
theorem fifo_of_none (inv : s.Inv) (none : s.accepted = 0) : s.BoundedFifo := by
  -- Each entry of the history would be that of an accepted task.
  have started : s.started = [] := by
    apply List.eq_nil_iff_forall_not_mem.mpr
    intro run member
    have below := ((inv.started run.task run.thread).mp member).1
    omega
  have finished : s.finished = [] := by
    apply List.eq_nil_iff_forall_not_mem.mpr
    intro task member
    have below := ((inv.finished task).mp member).1
    omega
  constructor
  · simp [started]
  · have length : s.workers.length = s.size := by rw [inv.length, none, Nat.add_zero]
    exact length ▸ List.countP_le_length
  · simp [started]
  · simp [started]
  · intro _
    simp [started, finished, none]

end Inv

/-- Along every run, the threads are what the invariant says of them. -/
theorem inv_of_run {size : Nat} {ops : List ThreadPoolOp}
    {permitted : ThreadPool → ThreadPoolOp → Prop}
    (run : Run step permitted (new size) ops s) : s.Inv :=
  run.invariant (Inv.new size) fun _ _ _ inv _ => inv.step

/-- A step accepts a task, or it leaves the number of accepted tasks as it is. -/
theorem step_accepted (stepped : s.step op = some t) :
    (s.Accepts op ∧ t.accepted = s.accepted + 1) ∨ (¬ s.Accepts op ∧ t.accepted = s.accepted) := by
  -- Only an `Add` touches the number, and only if it does not throw.
  cases op with
  | add =>
    obtain ⟨_, stepped⟩ := Option.ite_none_left_eq_some.mp stepped
    split at stepped
    · rename_i stopped
      obtain rfl := Option.some.inj stepped
      exact .inr ⟨fun accepts => by simp [accepts.2] at stopped, rfl⟩
    · rename_i going
      obtain rfl := Option.some.inj stepped
      exact .inl ⟨⟨rfl, by simpa using going⟩, rfl⟩
  | critical k =>
    refine .inr ⟨fun accepts => (by cases accepts.1), ?_⟩
    obtain ⟨_, stepped⟩ := Option.ite_none_right_eq_some.mp stepped
    split at stepped
    · obtain ⟨_, stepped⟩ := Option.ite_none_right_eq_some.mp stepped
      exact Option.some.inj stepped ▸ rfl
    · exact Option.some.inj stepped ▸ rfl
  | start k | finish k | destruct =>
    refine .inr ⟨fun accepts => (by cases accepts.1), ?_⟩
    simp only [ThreadPool.step] at stepped
    split at stepped
    · exact Option.some.inj stepped ▸ rfl
    · cases stepped
  | join =>
    refine .inr ⟨fun accepts => (by cases accepts.1), ?_⟩
    simp only [ThreadPool.step] at stepped
    split at stepped
    · obtain ⟨_, stepped⟩ := Option.ite_none_right_eq_some.mp stepped
      exact Option.some.inj stepped ▸ rfl
    · cases stepped
  | leave =>
    refine .inr ⟨fun accepts => (by cases accepts.1), ?_⟩
    obtain ⟨_, stepped⟩ := Option.ite_none_right_eq_some.mp stepped
    exact Option.some.inj stepped ▸ rfl

/-- A run accepts no task exactly if it ends without an accepted one. -/
theorem none_accepted_iff {size : Nat} {ops : List ThreadPoolOp}
    (run : Run step (fun _ _ => True) (new size) ops s) :
    Run step (fun r op => ¬ r.Accepts op) (new size) ops s ↔ s.accepted = 0 := by
  -- No step takes an accepted task back.
  constructor
  · intro quiet
    have kept : ∀ (r : ThreadPool) (op : ThreadPoolOp) (u : ThreadPool), r.accepted = 0 →
        ¬ r.Accepts op → r.step op = some u → u.accepted = 0 := by
      intro r op u none refuses stepped
      rcases step_accepted stepped with ⟨accepts, _⟩ | ⟨_, same⟩
      · exact absurd accepts refuses
      · exact same.trans none
    apply quiet.invariant _ kept
    rfl
  · intro none
    induction run with
    | start => exact .start _
    | next run _ stepped ih =>
      -- The number has never decreased, so it has been zero before too.
      rcases step_accepted stepped with ⟨_, more⟩ | ⟨refuses, same⟩
      · omega
      · exact (ih (same.symm.trans none)).next refuses stepped

end ThreadPool

open ThreadPool

/--
A pool is a bounded queue at every moment of a run in which no `Add` is accepted, and at the end of
a run whose destructor has returned only then.
-/
theorem bounded_fifo_iff {size : Nat} {ops : List ThreadPoolOp} {s : ThreadPool}
    (run : Run ThreadPool.step (fun _ _ => True) (.new size) ops s) :
    (Run ThreadPool.step (fun r op => ¬ r.Accepts op) (.new size) ops s → s.BoundedFifo) ∧
      (s.destroyed = true → s.BoundedFifo →
        Run ThreadPool.step (fun r op => ¬ r.Accepts op) (.new size) ops s) := by
  have inv := inv_of_run run
  rw [none_accepted_iff run]
  refine ⟨inv.fifo_of_none, fun destroyed fifo => ?_⟩
  -- The first accepted task has been started on the thread behind those of the constructor.
  apply Nat.eq_zero_of_not_pos
  intro some_task
  have past : s.workers[s.size + 0]? ≠ some (.ready 0) := by
    rw [inv.all_ended destroyed (by omega)]
    simp
  have member : (⟨0, s.size + 0⟩ : TaskStart) ∈ s.started :=
    (inv.started _ _).mpr ⟨some_task, rfl, past⟩
  have early : s.size + 0 < s.size := fifo.onWorkers _ member
  omega

/-- A pool of one thread that is given a task only while its destructor waits, and refuses it. -/
theorem unused_boundedFifo : ∃ s : ThreadPool,
    Run ThreadPool.step (fun _ _ => True) (.new 1)
        [.destruct, .add, .critical 0, .join, .leave] s ∧
      s.destroyed = true ∧ s.BoundedFifo := by
  -- `stop_` is set before the `Add`, which therefore throws and leaves the pool as it is.
  have ran : execute ThreadPool.step (fun _ _ => True) (.new 1)
      [.destruct, .add, .critical 0, .join, .leave] =
    some ⟨1, [.ended], [], true, 0, [], [], some 1, true⟩ := by decide
  have run := Run.of_execute ran
  exact ⟨_, run, rfl, (bounded_fifo_iff run).1 ((none_accepted_iff run).mpr rfl)⟩

/--
With one thread of the constructor, two tasks run at once, on other threads than that one, and the
second of them is started first.
-/
theorem two_tasks_at_once : ∃ s : ThreadPool,
    Run ThreadPool.step (fun _ _ => True) (.new 1) [.add, .add, .start 2, .start 1] s ∧
      s.workers.countP PoolThread.isRunning = 2 ∧ s.started = [⟨1, 2⟩, ⟨0, 1⟩] ∧
      ¬ s.BoundedFifo := by
  have ran : execute ThreadPool.step (fun _ _ => True) (.new 1) [.add, .add, .start 2, .start 1] =
    some ⟨1, [.waiting, .running 0, .running 1], [], false, 2, [⟨1, 2⟩, ⟨0, 1⟩], [], none, false⟩ :=
    by decide
  refine ⟨_, Run.of_execute ran, rfl, rfl, fun fifo => ?_⟩
  exact absurd fifo.bounded (by decide)

end SimpleSrv.Nebula
