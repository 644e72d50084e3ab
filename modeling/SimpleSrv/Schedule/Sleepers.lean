import Mathlib.Data.List.Nodup
import Mathlib.Data.List.Perm.Basic
import SimpleSrv.Lib.CInt
import SimpleSrv.Lib.Run

/-! The scheduler of coroutines that sleep: who is resumed when, by which reading of the clock. -/

namespace SimpleSrv.Schedule

/-- `timespec`, as the monotonic clock answers it. -/
structure TimeSpec where
  sec : Nat
  nsec : Nat
  deriving DecidableEq, Repr

namespace TimeSpec

/-- The reading in nanoseconds. -/
def nanos (ts : TimeSpec) : Nat := ts.sec * 1000000000 + ts.nsec

/-- The number that `Scheduler::GetMs` computes from a reading. -/
def getMs (ts : TimeSpec) : Nat := toUInt64 (ts.nsec / 1000000 + ts.sec * 1000)

/-- A reading whose number of milliseconds leaves room for any sleep. -/
def Valid (ts : TimeSpec) : Prop :=
  ts.nsec < 1000000000 ∧ ts.sec * 1000 + 1000 + 2 ^ 31 ≤ 2 ^ 64

instance (ts : TimeSpec) : Decidable ts.Valid := inferInstanceAs (Decidable (_ ∧ _))

end TimeSpec

/-- `Task`, with the sleep that it stands for. -/
structure Task where
  expire : Nat
  coroutine : Nat
  slept : TimeSpec
  ms : Int
  deriving DecidableEq, Repr

/-- The end of a sleep. -/
structure Resumption where
  task : Task
  resumed : TimeSpec
  deriving DecidableEq, Repr

/-- Where the main routine stands. -/
inductive Phase where
  /-- In code of its own, outside `EventLoop`. -/
  | outside
  /-- In the `usleep` of `EventLoop`. -/
  | napping
  /-- At the test of the inner loop. -/
  | draining
  /-- Behind the inner loop, about to compare the time. -/
  | checking
  deriving DecidableEq, Repr

/-- `Scheduler`, with its history. -/
structure Scheduler where
  /-- The coroutine that `current` points to. -/
  current : Option Nat := none
  /-- The tasks of the priority queue, in any order. -/
  tasks : List Task := []
  phase : Phase := .outside
  /-- A coroutine runs, and the main routine waits in `ResumeCoroutine`. -/
  inside : Bool := false
  start : Nat := 0
  timeoutInSeconds : Int := 0
  /-- The last reading of the clock. -/
  clock : TimeSpec
  /-- What the clock has said when the inner loop was left, if it has been since the start. -/
  drained : Nat := 0
  /-- The coroutines that have been resumed at all. -/
  started : List Nat := []
  log : List Resumption := []
  deriving DecidableEq, Repr

/-- One step of the main routine or of the running coroutine. -/
inductive Op where
  /-- The main routine calls `ResumeCoroutine`. -/
  | resumeCoroutine (coroutine : Nat)
  /-- The running coroutine calls `CoroutineSleep`, which reads this time. -/
  | coroutineSleep (ms : Int) (now : TimeSpec)
  /-- The main routine calls `EventLoop`. -/
  | eventLoop (timeoutInSeconds : Int) (now : TimeSpec)
  | usleep
  /-- The inner loop reads the clock, with the task that is on top of the queue. -/
  | look (top : Nat) (now : TimeSpec)
  /-- The inner loop finds the queue empty. -/
  | leave
  | check (now : TimeSpec)
  deriving DecidableEq, Repr

namespace Scheduler

/-- The task at this place can be on top of the queue: none expires earlier. -/
def IsTop (tasks : List Task) (task : Task) : Prop := ∀ other ∈ tasks, task.expire ≤ other.expire

instance (tasks : List Task) (task : Task) : Decidable (IsTop tasks task) :=
  inferInstanceAs (Decidable (∀ other ∈ tasks, _))

/-- `ResumeCoroutine`, up to its switch. -/
def resume (s : Scheduler) (coroutine : Nat) : Scheduler :=
  { s with current := some coroutine, inside := true }

/-- One step, where `none` says that it cannot be taken here. -/
def step (s : Scheduler) : Op → Option Scheduler
  | .resumeCoroutine coroutine =>
    if s.inside = false ∧ s.phase = .outside then
      some { s.resume coroutine with started := s.started ++ [coroutine] }
    else none
  | .coroutineSleep ms now =>
    match s.inside, s.current with
    | true, some coroutine =>
      some { s with
        tasks := ⟨toUInt64 (now.getMs + ms), coroutine, now, ms⟩ :: s.tasks
        inside := false
        clock := now }
    | _, _ => none
  | .eventLoop timeoutInSeconds now =>
    if s.inside = false ∧ s.phase = .outside then
      some { s with
        phase := .napping
        start := now.getMs
        timeoutInSeconds := timeoutInSeconds
        clock := now
        drained := 0 }
    else none
  | .usleep =>
    if s.inside = false ∧ s.phase = .napping then some { s with phase := .draining } else none
  | .look top now =>
    if s.inside = false ∧ s.phase = .draining then
      match s.tasks[top]? with
      | some task =>
        if ¬ IsTop s.tasks task then none
        else if now.getMs > task.expire then
          some { s.resume task.coroutine with
            tasks := s.tasks.eraseIdx top
            clock := now
            log := s.log ++ [⟨task, now⟩] }
        else some { s with phase := .checking, clock := now, drained := now.getMs }
      | none => none
    else none
  | .leave =>
    if s.inside = false ∧ s.phase = .draining ∧ s.tasks = [] then
      some { s with phase := .checking }
    else none
  | .check now =>
    if s.inside = false ∧ s.phase = .checking then
      if toUInt64 (now.getMs - s.start) > toUInt64 (s.timeoutInSeconds * 1000) then
        some { s with phase := .outside, clock := now }
      else some { s with phase := .napping, clock := now }
    else none

/-- The clock does not go back. -/
def After (s : Scheduler) (now : TimeSpec) : Prop := now.Valid ∧ s.clock.nanos ≤ now.nanos

instance (s : Scheduler) (now : TimeSpec) : Decidable (After s now) :=
  inferInstanceAs (Decidable (_ ∧ _))

/-- What the clock and the callers owe the scheduler. -/
def Owed (s : Scheduler) : Op → Prop
  -- A coroutine that has been started sleeps, and must not be resumed by anybody else.
  | .resumeCoroutine coroutine => coroutine ∉ s.started
  -- An `int`, which may be negative as long as the sleep does not end before the clock began.
  | .coroutineSleep ms now => s.After now ∧ ms < 2 ^ 31 ∧ 0 ≤ now.getMs + ms
  | .eventLoop timeoutInSeconds now =>
    s.After now ∧ 0 ≤ timeoutInSeconds ∧ timeoutInSeconds * 1000 < 2 ^ 31
  | .look _ now | .check now => s.After now
  | .usleep | .leave => True

instance (s : Scheduler) (op : Op) : Decidable (Owed s op) := by
  cases op <;> unfold Owed <;> infer_instance

/-- The coroutine that runs, if there is one. -/
def running (s : Scheduler) : List Nat := if s.inside then s.current.toList else []

/-- What the users of the scheduler may expect at any moment. -/
structure Punctual (s : Scheduler) : Prop where
  /-- Each coroutine that has been started runs or sleeps, in one place only. -/
  accounted : s.started.Nodup ∧ s.started.Perm (s.tasks.map Task.coroutine ++ s.running)
  /-- No sleep has been shorter than it should be, by the nanosecond. -/
  neverEarly : ∀ r ∈ s.log, (r.task.slept.nanos : Int) + r.task.ms * 1000000 < r.resumed.nanos
  /-- Whoever is resumed by the loop has the earliest deadline of all. -/
  earliest : ∀ op t r, s.step op = some t → t.log = s.log ++ [r] →
    t.running = [r.task.coroutine] ∧ ∀ other ∈ s.tasks, r.task.expire ≤ other.expire
  /-- The inner loop has left nobody behind who was due at its last reading. -/
  neverLate : s.phase = .checking ∨ s.phase = .napping → ∀ task ∈ s.tasks, s.drained ≤ task.expire
  /-- `EventLoop` returns as soon as it sees that its time is over, and not before. -/
  returns : ∀ now t, Owed s (.check now) → s.step (.check now) = some t →
    (t.phase = .outside ↔ s.timeoutInSeconds * 1000 < (now.getMs : Int) - s.start)

/-- What is always true of a scheduler. -/
structure Inv (s : Scheduler) : Prop where
  valid : s.clock.Valid
  nodup : s.started.Nodup
  accounted : s.started.Perm (s.tasks.map Task.coroutine ++ s.running)
  deadlines : ∀ task ∈ s.tasks, (task.expire : Int) = task.slept.getMs + task.ms ∧
    task.slept.Valid ∧ task.slept.nanos ≤ s.clock.nanos
  neverEarly : ∀ r ∈ s.log, (r.task.slept.nanos : Int) + r.task.ms * 1000000 < r.resumed.nanos
  neverLate : s.phase = .checking ∨ s.phase = .napping → ∀ task ∈ s.tasks, s.drained ≤ task.expire
  /-- A coroutine only runs where the main routine has resumed it. -/
  inside : s.inside = true → s.phase = .outside ∨ s.phase = .draining
  limits : s.phase ≠ .outside → s.start ≤ s.clock.getMs ∧ 0 ≤ s.timeoutInSeconds ∧
    s.timeoutInSeconds * 1000 < 2 ^ 31

end Scheduler

namespace TimeSpec

variable {a b : TimeSpec}

/-- No bit of a valid reading is lost. -/
theorem Valid.getMs_eq (valid : a.Valid) : a.getMs = a.nsec / 1000000 + a.sec * 1000 := by
  -- The reading is below 2^64 milliseconds, so the cast to `uint64_t` keeps it.
  obtain ⟨nsec, sec⟩ := valid
  have kept : (toUInt64 (a.nsec / 1000000 + a.sec * 1000) : Int) =
      a.nsec / 1000000 + a.sec * 1000 := toUInt64_eq (by omega) (by omega)
  unfold getMs
  omega

/-- The milliseconds are the nanoseconds, rounded down. -/
theorem Valid.getMs_nanos (valid : a.Valid) :
    a.getMs * 1000000 ≤ a.nanos ∧ a.nanos < (a.getMs + 1) * 1000000 := by
  rw [valid.getMs_eq, nanos]
  omega

/-- A later reading has no fewer milliseconds. -/
theorem Valid.getMs_le (first : a.Valid) (second : b.Valid) (later : a.nanos ≤ b.nanos) :
    a.getMs ≤ b.getMs := by
  have low := first.getMs_nanos
  have high := second.getMs_nanos
  omega

/-- There is room above a valid reading. -/
theorem Valid.getMs_lt (valid : a.Valid) : a.getMs + 2 ^ 31 < 2 ^ 64 := by
  obtain ⟨nsec, sec⟩ := id valid
  rw [valid.getMs_eq]
  omega

end TimeSpec

namespace Scheduler

variable {s t : Scheduler} {op : Op} {now : TimeSpec}

/-- A deadline that is over has been over for the whole sleep, also between the milliseconds. -/
theorem Inv.slept_enough (inv : s.Inv) {task : Task} (member : task ∈ s.tasks) (valid : now.Valid)
    (due : task.expire < now.getMs) :
    (task.slept.nanos : Int) + task.ms * 1000000 < now.nanos := by
  -- The comparison is strict and both readings are rounded down, so the deadline's own millisecond
  -- is over.
  obtain ⟨deadline, before, _⟩ := inv.deadlines task member
  have low := before.getMs_nanos
  have high := valid.getMs_nanos
  omega

/-- The deadlines stay what they are while the clock goes on. -/
theorem Inv.deadlines_later (inv : s.Inv) (later : s.clock.nanos ≤ now.nanos) :
    ∀ task ∈ s.tasks, (task.expire : Int) = task.slept.getMs + task.ms ∧ task.slept.Valid ∧
      task.slept.nanos ≤ now.nanos := by
  intro task member
  obtain ⟨deadline, valid, before⟩ := inv.deadlines task member
  exact ⟨deadline, valid, Nat.le_trans before later⟩

/-- A task that is taken out of the queue leaves the others there. -/
theorem perm_eraseIdx {tasks : List Task} {k : Nat} {task : Task} (at_ : tasks[k]? = some task) :
    tasks.Perm (task :: tasks.eraseIdx k) := by
  obtain ⟨within, rfl⟩ := List.getElem?_eq_some_iff.mp at_
  exact (List.getElem_cons_eraseIdx_perm within).symm

/-- What the inner loop finds on top of the queue, and what it does with it. -/
theorem look_cases {top : Nat} (stepped : s.step (.look top now) = some t) :
    s.inside = false ∧ s.phase = .draining ∧ ∃ task, s.tasks[top]? = some task ∧
      IsTop s.tasks task ∧
      ((task.expire < now.getMs ∧ t = { s.resume task.coroutine with
          tasks := s.tasks.eraseIdx top
          clock := now
          log := s.log ++ [⟨task, now⟩] }) ∨
        (now.getMs ≤ task.expire ∧
          t = { s with phase := .checking, clock := now, drained := now.getMs })) := by
  -- Both ways need that the task is on top of the queue.
  obtain ⟨⟨outer, draining⟩, looked⟩ := Option.ite_none_right_eq_some.mp stepped
  refine ⟨outer, draining, ?_⟩
  split at looked
  · rename_i task at_
    obtain ⟨first, looked⟩ := Option.ite_none_left_eq_some.mp looked
    refine ⟨task, at_, not_not.mp first, ?_⟩
    split at looked
    · exact .inl ⟨‹_›, (Option.some.inj looked).symm⟩
    · exact .inr ⟨Nat.not_lt.mp ‹_›, (Option.some.inj looked).symm⟩
  · cases looked

/-- What the running coroutine leaves behind when it goes to sleep. -/
theorem sleep_cases {ms : Int} (stepped : s.step (.coroutineSleep ms now) = some t) :
    s.inside = true ∧ ∃ coroutine, s.current = some coroutine ∧ t = { s with
      tasks := ⟨toUInt64 (now.getMs + ms), coroutine, now, ms⟩ :: s.tasks
      inside := false
      clock := now } := by
  -- Only a coroutine that runs can go to sleep.
  simp only [Scheduler.step] at stepped
  split at stepped
  · rename_i coroutine inside current
    exact ⟨inside, coroutine, current, (Option.some.inj stepped).symm⟩
  · cases stepped

/-- Whatever is neither a sleep nor a look at the queue leaves the sleepers and the log alone. -/
theorem quiet_of_step (stepped : s.step op = some t)
    (noSleep : ∀ ms now, op ≠ .coroutineSleep ms now) (noLook : ∀ top now, op ≠ .look top now) :
    t.log = s.log ∧ t.tasks = s.tasks := by
  -- None of the others writes either field.
  cases op with
  | coroutineSleep ms now => exact absurd rfl (noSleep ms now)
  | look top now => exact absurd rfl (noLook top now)
  | resumeCoroutine | eventLoop | usleep | leave =>
    obtain ⟨_, stepped⟩ := Option.ite_none_right_eq_some.mp stepped
    obtain rfl := Option.some.inj stepped
    exact ⟨rfl, rfl⟩
  | check now =>
    obtain ⟨_, stepped⟩ := Option.ite_none_right_eq_some.mp stepped
    split at stepped <;> obtain rfl := Option.some.inj stepped <;> exact ⟨rfl, rfl⟩

/-- Where the main routine is in the loop, the limits of that loop also hold later. -/
theorem Inv.limits_later (inv : s.Inv) (after : s.After now) (away : s.phase ≠ .outside) :
    s.start ≤ now.getMs ∧ 0 ≤ s.timeoutInSeconds ∧ s.timeoutInSeconds * 1000 < 2 ^ 31 := by
  -- The clock has only gone on since the loop began.
  obtain ⟨begun, limits⟩ := inv.limits away
  exact ⟨Nat.le_trans begun (inv.valid.getMs_le after.1 after.2), limits⟩

/-- The reading of the clock may stay what it is. -/
theorem Inv.after_clock (inv : s.Inv) : s.After s.clock := ⟨inv.valid, Nat.le_refl _⟩

/-- The main routine goes on by itself: it only has to keep to the deadlines and to the limits. -/
theorem Inv.moveOn (inv : s.Inv) (outer : s.inside = false) (after : s.After now) {phase : Phase}
    {start drained : Nat} {timeoutInSeconds : Int}
    (neverLate : phase = .checking ∨ phase = .napping → ∀ task ∈ s.tasks, drained ≤ task.expire)
    (limits : phase ≠ .outside → start ≤ now.getMs ∧ 0 ≤ timeoutInSeconds ∧
      timeoutInSeconds * 1000 < 2 ^ 31) :
    Inv { s with
      phase := phase
      start := start
      timeoutInSeconds := timeoutInSeconds
      clock := now
      drained := drained } where
  valid := after.1
  nodup := inv.nodup
  accounted := inv.accounted
  deadlines := inv.deadlines_later after.2
  neverEarly := inv.neverEarly
  neverLate := neverLate
  inside := fun inside => absurd (outer.symm.trans inside) Bool.false_ne_true
  limits := limits

/-- A coroutine is resumed for the first time, while no other one runs. -/
theorem Inv.resumeCoroutine {coroutine : Nat} (inv : s.Inv)
    (owed : Owed s (.resumeCoroutine coroutine))
    (stepped : s.step (.resumeCoroutine coroutine) = some t) : t.Inv := by
  -- Nobody runs before, so the new one is all that is added.
  obtain ⟨⟨outer, outside⟩, stepped⟩ := Option.ite_none_right_eq_some.mp stepped
  obtain rfl := Option.some.inj stepped
  have idle : s.running = [] := by simp [running, outer]
  have accounted := inv.accounted
  rw [idle, List.append_nil] at accounted
  refine ⟨inv.valid, ?_, accounted.append_right _, inv.deadlines, inv.neverEarly, inv.neverLate,
    fun _ => .inl outside, inv.limits⟩
  -- It is a new one, by what is owed.
  refine List.nodup_append.mpr ⟨inv.nodup, List.nodup_singleton _, ?_⟩
  intro other old last same
  obtain rfl := List.mem_singleton.mp same
  exact fun same => owed (same ▸ old)

/-- The coroutine that runs goes to sleep, with a deadline that is not cut off. -/
theorem Inv.coroutineSleep {ms : Int} (inv : s.Inv) (owed : Owed s (.coroutineSleep ms now))
    (stepped : s.step (.coroutineSleep ms now) = some t) : t.Inv := by
  -- Whoever ran is now in the queue instead.
  obtain ⟨after, small, nonneg⟩ := owed
  obtain ⟨inside, coroutine, current, rfl⟩ := sleep_cases stepped
  have accounted := inv.accounted
  simp only [running, inside, current, if_true, Option.toList_some] at accounted
  have room := after.1.getMs_lt
  refine ⟨after.1, inv.nodup, ?_, ?_, inv.neverEarly, ?_, nofun, inv.limits_later after⟩
  · simpa [running] using accounted.trans List.perm_append_comm
  · intro task member
    rcases List.mem_cons.mp member with rfl | member
    · exact ⟨toUInt64_eq nonneg (by omega), after.1, Nat.le_refl _⟩
    · exact inv.deadlines_later after.2 task member
  · -- The main routine waits for it, and is neither behind the inner loop nor napping.
    intro busy
    rcases inv.inside inside with outside | draining <;> simp_all

/-- The loop begins, with the time that it reads. -/
theorem Inv.eventLoop {timeoutInSeconds : Int} (inv : s.Inv)
    (owed : Owed s (.eventLoop timeoutInSeconds now))
    (stepped : s.step (.eventLoop timeoutInSeconds now) = some t) : t.Inv := by
  obtain ⟨after, limits⟩ := owed
  obtain ⟨⟨outer, _⟩, stepped⟩ := Option.ite_none_right_eq_some.mp stepped
  obtain rfl := Option.some.inj stepped
  exact inv.moveOn outer after (fun _ _ _ => Nat.zero_le _) fun _ => ⟨Nat.le_refl _, limits⟩

/-- The main routine comes out of its nap. -/
theorem Inv.usleep (inv : s.Inv) (stepped : s.step .usleep = some t) : t.Inv := by
  obtain ⟨⟨outer, napping⟩, stepped⟩ := Option.ite_none_right_eq_some.mp stepped
  obtain rfl := Option.some.inj stepped
  exact inv.moveOn outer inv.after_clock (by simp) fun _ => inv.limits (by simp [napping])

/-- The coroutine on top of the queue is resumed, whose deadline is over. -/
theorem Inv.wake {top : Nat} {task : Task} (inv : s.Inv) (outer : s.inside = false)
    (draining : s.phase = .draining) (after : s.After now) (at_ : s.tasks[top]? = some task)
    (due : task.expire < now.getMs) :
    Inv { s.resume task.coroutine with
      tasks := s.tasks.eraseIdx top
      clock := now
      log := s.log ++ [⟨task, now⟩] } := by
  -- Who leaves the queue runs from now on.
  have accounted := inv.accounted
  simp only [running, outer, Bool.false_eq_true, if_false, List.append_nil] at accounted
  refine ⟨after.1, inv.nodup, ?_, ?_, ?_, ?_, fun _ => .inr draining,
    fun away => inv.limits_later after away⟩
  · have split := accounted.trans ((perm_eraseIdx at_).map Task.coroutine)
    exact split.trans (List.perm_append_singleton _ _).symm
  · intro other member
    exact inv.deadlines_later after.2 other (List.mem_of_mem_eraseIdx member)
  · intro r member
    rcases List.mem_append.mp member with old | last
    · exact inv.neverEarly r old
    · obtain rfl := List.mem_singleton.mp last
      exact inv.slept_enough (List.mem_of_getElem? at_) after.1 due
  · simp [resume, draining]

/-- The inner loop resumes whoever is due, or leaves nobody behind who is. -/
theorem Inv.look {top : Nat} (inv : s.Inv) (after : s.After now)
    (stepped : s.step (.look top now) = some t) : t.Inv := by
  -- Either way it is the task on top that decides.
  obtain ⟨outer, draining, task, at_, least, ⟨due, rfl⟩ | ⟨early, rfl⟩⟩ := look_cases stepped
  · exact inv.wake outer draining after at_ due
  · exact inv.moveOn outer after (fun _ other member => Nat.le_trans early (least other member))
      fun _ => inv.limits_later after (by simp [draining])

/-- The inner loop ends for want of sleepers. -/
theorem Inv.leave (inv : s.Inv) (stepped : s.step .leave = some t) : t.Inv := by
  obtain ⟨⟨outer, draining, empty⟩, stepped⟩ := Option.ite_none_right_eq_some.mp stepped
  obtain rfl := Option.some.inj stepped
  exact inv.moveOn outer inv.after_clock (by simp [empty]) fun _ => inv.limits (by simp [draining])

/-- The loop returns, or naps once more. -/
theorem Inv.check (inv : s.Inv) (after : s.After now) (stepped : s.step (.check now) = some t) :
    t.Inv := by
  -- Outside the loop nothing is asked of its limits.
  obtain ⟨⟨outer, checking⟩, stepped⟩ := Option.ite_none_right_eq_some.mp stepped
  split at stepped
  · obtain rfl := Option.some.inj stepped
    exact inv.moveOn outer after (by simp) (by simp)
  · obtain rfl := Option.some.inj stepped
    exact inv.moveOn outer after (fun _ => inv.neverLate (.inl checking))
      fun _ => inv.limits_later after (by simp [checking])

/-- Every step keeps the invariant. -/
theorem Inv.step (inv : s.Inv) (owed : Owed s op) (stepped : s.step op = some t) : t.Inv := by
  cases op with
  | resumeCoroutine coroutine => exact inv.resumeCoroutine owed stepped
  | coroutineSleep ms now => exact inv.coroutineSleep owed stepped
  | eventLoop timeoutInSeconds now => exact inv.eventLoop owed stepped
  | usleep => exact inv.usleep stepped
  | look top now => exact inv.look owed stepped
  | leave => exact inv.leave stepped
  | check now => exact inv.check owed stepped

/-- A scheduler at a valid reading of the clock, before anything has happened. -/
theorem Inv.new {clock : TimeSpec} (valid : clock.Valid) :
    ({ clock := clock } : Scheduler).Inv where
  valid := valid
  nodup := List.nodup_nil
  accounted := by simp [running]
  deadlines := fun task none => by cases none
  neverEarly := fun r none => by cases none
  neverLate := fun _ task none => by cases none
  inside := fun inside => by cases inside
  limits := fun away => absurd rfl away

/-- Only the inner loop ends a sleep, and it takes the first one. -/
theorem earliest_of_step {r : Resumption} (stepped : s.step op = some t)
    (logged : t.log = s.log ++ [r]) :
    t.running = [r.task.coroutine] ∧ ∀ other ∈ s.tasks, r.task.expire ≤ other.expire := by
  -- Every other step leaves the log alone.
  have unlogged : t.log ≠ s.log := by
    rw [logged]
    simp
  cases op with
  | look top now =>
    obtain ⟨_, _, task, _, least, ⟨_, rfl⟩ | ⟨_, rfl⟩⟩ := look_cases stepped
    · obtain rfl := List.singleton_inj.mp (List.append_cancel_left logged)
      exact ⟨rfl, least⟩
    · exact absurd rfl unlogged
  | coroutineSleep ms now =>
    obtain ⟨_, _, _, rfl⟩ := sleep_cases stepped
    exact absurd rfl unlogged
  | resumeCoroutine | eventLoop | usleep | leave | check =>
    exact absurd (quiet_of_step stepped nofun nofun).1 unlogged

/-- The invariant says what the users may expect. -/
theorem Inv.punctual (inv : s.Inv) : s.Punctual where
  accounted := ⟨inv.nodup, inv.accounted⟩
  neverEarly := inv.neverEarly
  earliest := fun _ _ _ => earliest_of_step
  neverLate := inv.neverLate
  returns := by
    intro now t owed stepped
    obtain ⟨valid, later⟩ := owed
    simp only [Scheduler.step] at stepped
    split at stepped
    · rename_i at_
      obtain ⟨begun, nonneg, small⟩ := inv.limits (by simp [at_.2])
      have begins := Nat.le_trans begun (inv.valid.getMs_le valid later)
      have room := valid.getMs_lt
      -- Neither side of the comparison is cut off.
      have passed : (toUInt64 ((now.getMs : Int) - s.start) : Int) = (now.getMs : Int) - s.start :=
        toUInt64_eq (by omega) (by omega)
      have limit : (toUInt64 (s.timeoutInSeconds * 1000) : Int) = s.timeoutInSeconds * 1000 :=
        toUInt64_eq (by omega) (by omega)
      split at stepped
      · rename_i passedLimit
        obtain rfl := Option.some.inj stepped
        exact iff_of_true rfl (by omega)
      · rename_i going
        obtain rfl := Option.some.inj stepped
        exact iff_of_false nofun (by omega)
    · cases stepped

/--
However long the coroutines run and whatever the clock says, as long as it does not go back: each of
them sleeps at one place or runs, no sleep ends early, the earliest deadline comes first, and the
loop leaves nobody behind who is due.
-/
theorem sleepers_punctual {clock : TimeSpec} {ops : List Op} (valid : clock.Valid)
    (run : Run Scheduler.step Owed { clock := clock } ops s) : s.Punctual :=
  (run.invariant (.new valid) fun _ _ _ => Inv.step).punctual

/-- Two coroutines sleep for 500 and for 1000 milliseconds, and the first one is resumed. -/
def twoSleepers : List Op :=
  [.resumeCoroutine 1, .coroutineSleep 500 ⟨1, 0⟩, .resumeCoroutine 2,
    .coroutineSleep 1000 ⟨1, 900000⟩, .eventLoop 5 ⟨1, 1000000⟩, .usleep,
    .look 1 ⟨1, 500999999⟩, .check ⟨1, 500999999⟩, .usleep, .look 1 ⟨1, 501000000⟩]

/-- The first coroutine has slept long enough one nanosecond later. -/
theorem sleepers_punctual_two : ∃ s : Scheduler,
    execute Scheduler.step Owed { clock := ⟨1, 0⟩ } twoSleepers = some s ∧ s.running = [1] ∧
      s.tasks.map Task.coroutine = [2] ∧ s.Punctual := by
  have ran : (execute Scheduler.step Owed { clock := ⟨1, 0⟩ } twoSleepers).map
      (fun s => (s.running, s.tasks.map Task.coroutine)) = some ([1], [2]) := by decide
  obtain ⟨s, ran, same⟩ := Option.map_eq_some_iff.mp ran
  rw [Prod.mk.injEq] at same
  exact ⟨s, ran, same.1, same.2, sleepers_punctual (by decide) (.of_execute ran)⟩

section Rate

/-- How often the loop has resumed a coroutine. -/
def resumptions (s : Scheduler) (coroutine : Nat) : Nat :=
  s.log.countP fun r => r.task.coroutine = coroutine

/-- This coroutine sleeps for so many milliseconds at least, whenever it does. -/
def LongEnough (coroutine least : Nat) (s : Scheduler) : Op → Prop
  | .coroutineSleep ms _ => s.current = some coroutine → (least : Int) ≤ ms
  | _ => True

instance (coroutine least : Nat) (s : Scheduler) (op : Op) :
    Decidable (LongEnough coroutine least s op) := by
  cases op <;> unfold LongEnough <;> infer_instance

/-- What is owed to the scheduler, with sleeps of this coroutine that are long enough. -/
def Sleepy (coroutine least : Nat) (s : Scheduler) (op : Op) : Prop :=
  Owed s op ∧ LongEnough coroutine least s op

instance (coroutine least : Nat) (s : Scheduler) (op : Op) :
    Decidable (Sleepy coroutine least s op) :=
  inferInstanceAs (Decidable (_ ∧ _))

/-- Each resumption of the coroutine has taken the time of its sleep. -/
structure Slow (coroutine least origin : Nat) (s : Scheduler) : Prop extends Inv s where
  sleeping : ∀ task ∈ s.tasks, task.coroutine = coroutine →
    origin + s.resumptions coroutine * (least + 1) ≤ task.slept.getMs ∧ (least : Int) ≤ task.ms
  passed : origin + s.resumptions coroutine * (least + 1) ≤ s.clock.getMs

/-- The clock only goes on. -/
theorem clock_of_step (owed : Owed s op) (stepped : s.step op = some t) :
    s.clock.nanos ≤ t.clock.nanos := by
  -- Whatever reads the clock is owed a later reading.
  cases op with
  | coroutineSleep ms now =>
    obtain ⟨_, _, _, rfl⟩ := sleep_cases stepped
    exact owed.1.2
  | look top now =>
    obtain ⟨_, _, _, _, _, ⟨_, rfl⟩ | ⟨_, rfl⟩⟩ := look_cases stepped <;> exact owed.2
  | resumeCoroutine | usleep | leave =>
    obtain ⟨_, stepped⟩ := Option.ite_none_right_eq_some.mp stepped
    obtain rfl := Option.some.inj stepped
    exact Nat.le_refl _
  | eventLoop timeoutInSeconds now =>
    obtain ⟨_, stepped⟩ := Option.ite_none_right_eq_some.mp stepped
    obtain rfl := Option.some.inj stepped
    exact owed.1.2
  | check now =>
    obtain ⟨_, stepped⟩ := Option.ite_none_right_eq_some.mp stepped
    split at stepped <;> obtain rfl := Option.some.inj stepped <;> exact owed.2

/-- A step that resumes nobody lets the clock go on at most. -/
theorem Slow.later {coroutine least origin : Nat} (slow : s.Slow coroutine least origin)
    (after : t.Inv) (log : t.log = s.log) (tasks : t.tasks = s.tasks)
    (later : s.clock.nanos ≤ t.clock.nanos) : t.Slow coroutine least origin where
  -- Neither the count nor the sleepers change, and the reading of the clock only grows.
  toInv := after
  sleeping := by
    simp only [resumptions, log, tasks]
    exact slow.sleeping
  passed := by
    have more := slow.valid.getMs_le after.valid later
    have before := slow.passed
    simp only [resumptions, log] at before ⊢
    omega

/-- A sleep of the coroutine begins after all the time that its resumptions have taken. -/
theorem Slow.sleep {coroutine least origin : Nat} {ms : Int}
    (slow : s.Slow coroutine least origin)
    (sleepy : Sleepy coroutine least s (.coroutineSleep ms now)) (after : t.Inv)
    (stepped : s.step (.coroutineSleep ms now) = some t) : t.Slow coroutine least origin := by
  -- The sleep begins now, and no earlier one has changed.
  obtain ⟨⟨⟨valid, later⟩, _⟩, long⟩ := sleepy
  obtain ⟨_, own, current, rfl⟩ := sleep_cases stepped
  have enough : origin + s.resumptions coroutine * (least + 1) ≤ now.getMs :=
    Nat.le_trans slow.passed (slow.valid.getMs_le valid later)
  refine ⟨after, fun task member same => ?_, enough⟩
  rcases List.mem_cons.mp member with rfl | member
  · obtain rfl : own = coroutine := same
    exact ⟨enough, long current⟩
  · exact slow.sleeping task member same

/-- Who has been taken out of the queue is not in it a second time. -/
theorem Inv.gone {top : Nat} {task : Task} (inv : s.Inv) (at_ : s.tasks[top]? = some task) :
    ∀ other ∈ s.tasks.eraseIdx top, other.coroutine ≠ task.coroutine := by
  -- Nobody is in the queue twice, as each has been started once.
  have once := inv.accounted.nodup inv.nodup
  have names := (List.nodup_append.mp once).1
  rw [((perm_eraseIdx at_).map Task.coroutine).nodup_iff, List.map_cons, List.nodup_cons] at names
  intro other member same
  exact names.1 (same ▸ List.mem_map_of_mem member)

/-- A resumption counts for its own coroutine. -/
theorem resumptions_logged (coroutine : Nat) {r : Resumption} (log : t.log = s.log ++ [r]) :
    t.resumptions coroutine =
      s.resumptions coroutine + if r.task.coroutine = coroutine then 1 else 0 := by
  simp [resumptions, log, List.countP_singleton]

/-- A resumption of this very coroutine costs time, and it has slept for it. -/
theorem Slow.wake {coroutine least origin top : Nat} {task : Task}
    (slow : s.Slow coroutine least origin) (after : t.Inv) (at_ : s.tasks[top]? = some task)
    (due : task.expire < t.clock.getMs) (later : s.clock.nanos ≤ t.clock.nanos)
    (tasks : t.tasks = s.tasks.eraseIdx top) (log : t.log = s.log ++ [⟨task, t.clock⟩]) :
    t.Slow coroutine least origin := by
  -- The count grows by one where the clock has grown by the whole sleep.
  have more := slow.valid.getMs_le after.valid later
  have passed := slow.passed
  have counted := resumptions_logged coroutine log
  refine ⟨after, ?_, ?_⟩
  · -- Whoever else sleeps has not been resumed.
    intro other member same
    rw [tasks] at member
    have others : task.coroutine ≠ coroutine := same ▸ (slow.gone at_ other member).symm
    rw [counted, if_neg others]
    exact slow.sleeping other (List.mem_of_mem_eraseIdx member) same
  · rw [counted]
    split
    · -- Its sleep has taken more than the least time.
      rename_i own
      obtain ⟨before, least⟩ := slow.sleeping task (List.mem_of_getElem? at_) own
      obtain ⟨deadline, _, _⟩ := slow.deadlines task (List.mem_of_getElem? at_)
      rw [Nat.succ_mul]
      omega
    · exact Nat.le_trans passed more

/-- Every step keeps the count of the resumptions slow. -/
theorem Slow.step {coroutine least origin : Nat} (slow : s.Slow coroutine least origin)
    (sleepy : Sleepy coroutine least s op) (stepped : s.step op = some t) :
    t.Slow coroutine least origin := by
  -- A step that is quiet only lets the clock go on.
  have after := slow.toInv.step sleepy.1 stepped
  have later := clock_of_step sleepy.1 stepped
  cases op with
  | coroutineSleep ms now => exact slow.sleep sleepy after stepped
  | look top now =>
    obtain ⟨_, _, task, at_, _, ⟨due, rfl⟩ | ⟨_, rfl⟩⟩ := look_cases stepped
    · exact slow.wake after at_ due later rfl rfl
    · exact slow.later after rfl rfl later
  | resumeCoroutine | eventLoop | usleep | leave | check =>
    obtain ⟨log, tasks⟩ := quiet_of_step stepped nofun nofun
    exact slow.later after log tasks later

/--
A coroutine that sleeps for at least `least` milliseconds each time is resumed by the loop at most
once in `least + 1` milliseconds, over the whole time, whatever the others do.
-/
theorem resumptions_bounded {clock : TimeSpec} {ops : List Op} {coroutine least : Nat}
    (valid : clock.Valid)
    (run : Run Scheduler.step (Sleepy coroutine least) { clock := clock } ops s) :
    s.resumptions coroutine * (least + 1) ≤ s.clock.getMs - clock.getMs := by
  -- The invariant puts `least + 1` milliseconds between a resumption and the next.
  have start : ({ clock := clock } : Scheduler).Slow coroutine least clock.getMs :=
    ⟨.new valid, fun task none => (by cases none), by simp [resumptions]⟩
  have slow := run.invariant start fun _ _ _ => Slow.step
  have passed := slow.passed
  omega

/-- In the 501 milliseconds of the run, the coroutine has been resumed once, and not more often. -/
theorem resumptions_bounded_two : ∃ s : Scheduler,
    execute Scheduler.step (Sleepy 1 500) { clock := ⟨1, 0⟩ } twoSleepers = some s ∧
      s.resumptions 1 = 1 ∧ s.clock.getMs = 1501 ∧
      s.resumptions 1 * 501 ≤ s.clock.getMs - (TimeSpec.mk 1 0).getMs := by
  have ran : (execute Scheduler.step (Sleepy 1 500) { clock := ⟨1, 0⟩ } twoSleepers).map
      (fun s => (s.resumptions 1, s.clock.getMs)) = some (1, 1501) := by decide
  obtain ⟨s, ran, same⟩ := Option.map_eq_some_iff.mp ran
  rw [Prod.mk.injEq] at same
  exact ⟨s, ran, same.1, same.2, resumptions_bounded (by decide) (.of_execute ran)⟩

end Rate

end Scheduler

end SimpleSrv.Schedule
