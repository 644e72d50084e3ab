import Mathlib.Data.List.Nodup
import Mathlib.Data.List.Range
import Mathlib.Data.List.Perm.Basic

/-! A queue of numbered tasks, the workers that take them, and what has become of each of them. -/

namespace SimpleSrv

/-- A task that has left the queue, and who has taken it. -/
structure Taken where
  task : Nat
  worker : Nat
  deriving DecidableEq, Repr

variable {α : Type*}

/--
Tasks are numbered as they are submitted, leave the queue in this order, and are finished by the
worker that has taken them.
-/
structure TaskHistory (runs : α → Option Nat) (workers : List α) (tasks : List Nat)
    (submitted : Nat) (taken : List Taken) (finished : List Nat) : Prop where
  order : taken.map Taken.task ++ tasks = List.range submitted
  onWorkers : ∀ run ∈ taken, run.worker < workers.length
  /-- What is being run has been taken by this worker, and is not finished yet. -/
  running : ∀ k task, workers[k]?.bind runs = some task ↔ ⟨task, k⟩ ∈ taken ∧ task ∉ finished
  finishedTaken : ∀ task ∈ finished, task ∈ taken.map Taken.task
  finishedOnce : finished.Nodup

namespace TaskHistory

variable {runs : α → Option Nat} {workers : List α} {tasks : List Nat} {submitted : Nat}
  {taken : List Taken} {finished : List Nat} {k task : Nat} {rest : List Nat} {old next : α}

/-- At first there are workers, and nothing for them to do. -/
theorem new (free : ∀ worker ∈ workers, runs worker = none) :
    TaskHistory runs workers [] 0 [] [] where
  order := rfl
  onWorkers := fun run none => by cases none
  running := fun k task => by
    cases at_ : workers[k]? with
    | none => simp
    | some worker => simp [free worker (List.mem_of_getElem? at_)]
  finishedTaken := fun task none => by cases none
  finishedOnce := List.nodup_nil

/-- The tasks that have been taken are the first ones, in their order. -/
theorem taken_range (history : TaskHistory runs workers tasks submitted taken finished) :
    taken.map Taken.task = List.range taken.length ∧ taken.length + tasks.length = submitted := by
  -- They are a beginning of all the submitted ones.
  have count : taken.length + tasks.length = submitted := by
    simpa using congrArg List.length history.order
  have first : taken.map Taken.task = (List.range submitted).take taken.length := by
    rw [← history.order, List.take_left' (List.length_map ..)]
  refine ⟨?_, count⟩
  rw [first, List.take_range, Nat.min_eq_left (by omega)]

/-- A task that has been taken is not in the queue, nor will it be submitted. -/
theorem task_lt (history : TaskHistory runs workers tasks submitted taken finished) {run : Taken}
    (member : run ∈ taken) : run.task < taken.length := by
  have inside : run.task ∈ taken.map Taken.task := List.mem_map_of_mem member
  rw [history.taken_range.1] at inside
  exact List.mem_range.mp inside

/-- A task that has been finished is one of those that have been taken. -/
theorem finished_lt (history : TaskHistory runs workers tasks submitted taken finished)
    (done : task ∈ finished) : task < taken.length := by
  obtain ⟨run, member, rfl⟩ := List.mem_map.mp (history.finishedTaken task done)
  exact history.task_lt member

/-- The first task of the queue is the next one to be taken. -/
theorem head_eq (history : TaskHistory runs workers (task :: rest) submitted taken finished) :
    task = taken.length := by
  -- It is the one behind those that have been taken.
  have at_ : (List.range submitted)[taken.length]? = some task := by
    rw [← history.order, List.getElem?_append_right (by simp)]
    simp
  obtain ⟨_, same⟩ := List.getElem?_eq_some_iff.mp at_
  rw [List.getElem_range] at same
  exact same.symm

/-- No worker takes a task that another one has taken. -/
theorem taken_once (history : TaskHistory runs workers tasks submitted taken finished) {i j : Nat}
    (one : ⟨task, i⟩ ∈ taken) (other : ⟨task, j⟩ ∈ taken) : i = j := by
  have once : (taken.map Taken.task).Nodup := history.taken_range.1 ▸ List.nodup_range
  exact (Taken.mk.inj (List.inj_on_of_nodup_map once one other rfl)).2

/-- What has been taken is finished, once no worker is inside a task. -/
theorem finished_perm (history : TaskHistory runs workers tasks submitted taken finished)
    (idle : ∀ k : Nat, workers[k]?.bind runs = none) :
    finished.Perm (List.range taken.length) := by
  -- Both lists are without repetitions, and have the same members.
  refine (List.perm_ext_iff_of_nodup history.finishedOnce List.nodup_range).mpr fun task => ?_
  rw [← history.taken_range.1]
  constructor
  · exact history.finishedTaken task
  · intro member
    obtain ⟨run, own, rfl⟩ := List.mem_map.mp member
    by_contra unfinished
    have running := (history.running run.worker run.task).mpr ⟨own, unfinished⟩
    rw [idle run.worker] at running
    cases running

/-- A task is submitted. -/
theorem submit (history : TaskHistory runs workers tasks submitted taken finished) :
    TaskHistory runs workers (tasks ++ [submitted]) (submitted + 1) taken finished where
  order := by rw [← List.append_assoc, history.order, List.range_succ]
  onWorkers := history.onWorkers
  running := history.running
  finishedTaken := history.finishedTaken
  finishedOnce := history.finishedOnce

/-- The workers are replaced by as many others that are inside the same tasks. -/
theorem exchange (history : TaskHistory runs workers tasks submitted taken finished)
    {others : List α} (length : workers.length ≤ others.length)
    (same : ∀ k : Nat, others[k]?.bind runs = workers[k]?.bind runs) :
    TaskHistory runs others tasks submitted taken finished where
  order := history.order
  onWorkers := fun run member => Nat.lt_of_lt_of_le (history.onWorkers run member) length
  running := fun k task => by
    rw [same]
    exact history.running k task
  finishedTaken := history.finishedTaken
  finishedOnce := history.finishedOnce

/-- A worker moves that is not inside a task before it or behind it. -/
theorem move (history : TaskHistory runs workers tasks submitted taken finished)
    (at_ : workers[k]? = some old) (before : runs old = none) (behind : runs next = none) :
    TaskHistory runs (workers.set k next) tasks submitted taken finished := by
  -- The worker reads the same before and behind the move, like all the others.
  apply history.exchange (Nat.le_of_eq (List.length_set ..).symm)
  intro i
  by_cases same : k = i
  · subst same
    rw [List.getElem?_set_self (List.getElem?_eq_some_iff.mp at_).1, at_]
    exact behind.trans before.symm
  · rw [List.getElem?_set_ne same]

/-- There is one worker more, without a task. -/
theorem hire (history : TaskHistory runs workers tasks submitted taken finished)
    (free : runs next = none) :
    TaskHistory runs (workers ++ [next]) tasks submitted taken finished := by
  -- The new worker is the one behind the last, where nobody was inside a task before.
  apply history.exchange (by simp)
  intro i
  rcases Nat.lt_trichotomy i workers.length with below | rfl | above
  · rw [List.getElem?_append_left below]
  · rw [List.getElem?_concat_length, List.getElem?_eq_none (Nat.le_refl _)]
    exact free
  · have beyond : (workers ++ [next]).length ≤ i := by
      rw [List.length_append, List.length_singleton]
      omega
    rw [List.getElem?_eq_none beyond, List.getElem?_eq_none (Nat.le_of_lt above)]

/-- All the workers move at once, and none of them begins a task or finishes one. -/
theorem map (history : TaskHistory runs workers tasks submitted taken finished) {change : α → α}
    (same : ∀ worker, runs (change worker) = runs worker) :
    TaskHistory runs (workers.map change) tasks submitted taken finished := by
  -- Each worker is still inside what it was inside of.
  apply history.exchange (Nat.le_of_eq (List.length_map ..).symm)
  intro i
  rw [List.getElem?_map]
  cases workers[i]? with
  | none => rfl
  | some worker => exact same worker

/-- A worker takes the first task of the queue. -/
theorem take (history : TaskHistory runs workers (task :: rest) submitted taken finished)
    (at_ : workers[k]? = some old) (free : runs old = none) (begins : runs next = some task) :
    TaskHistory runs (workers.set k next) rest submitted (taken ++ [⟨task, k⟩]) finished := by
  -- The task at the head of the queue has the number of the tasks taken before it, so it is new to
  -- the history.
  have within : k < workers.length := (List.getElem?_eq_some_iff.mp at_).1
  have own : (workers.set k next)[k]? = some next := List.getElem?_set_self within
  have fresh := history.head_eq
  constructor
  · rw [← history.order]
    simp
  · intro run member
    rw [List.length_set]
    rcases List.mem_append.mp member with member | member
    · exact history.onWorkers run member
    · obtain rfl := List.mem_singleton.mp member
      exact within
  · intro i other
    by_cases same : i = k
    · subst same
      rw [own, Option.bind_some, begins, Option.some.injEq]
      constructor
      · rintro rfl
        -- What has been finished has been taken before.
        refine ⟨by simp, fun done => ?_⟩
        have lt := history.finished_lt done
        omega
      · rintro ⟨member, unfinished⟩
        rcases List.mem_append.mp member with member | member
        · have at_once := (history.running i other).mpr ⟨member, unfinished⟩
          rw [at_, Option.bind_some, free] at at_once
          cases at_once
        · exact (Taken.mk.inj (List.mem_singleton.mp member)).1.symm
    · rw [List.getElem?_set_ne (Ne.symm same), history.running i other]
      simp only [List.mem_append, List.mem_singleton, Taken.mk.injEq, same, and_false, or_false]
  · intro other done
    rw [List.map_append, List.mem_append]
    exact .inl (history.finishedTaken other done)
  · exact history.finishedOnce

/-- A worker finishes its task. -/
theorem finish (history : TaskHistory runs workers tasks submitted taken finished)
    (at_ : workers[k]? = some old) (inside : runs old = some task) (ends : runs next = none) :
    TaskHistory runs (workers.set k next) tasks submitted taken (finished ++ [task]) := by
  -- The worker was inside the task, so it has been taken and was not finished.
  have within : k < workers.length := (List.getElem?_eq_some_iff.mp at_).1
  have own : (workers.set k next)[k]? = some next := List.getElem?_set_self within
  have running : workers[k]?.bind runs = some task := by
    rw [at_]
    exact inside
  obtain ⟨member, unfinished⟩ := (history.running k task).mp running
  constructor
  · exact history.order
  · intro run member
    rw [List.length_set]
    exact history.onWorkers run member
  · intro i other
    rw [List.mem_append, List.mem_singleton, not_or]
    by_cases same : i = k
    · subst same
      rw [own, Option.bind_some, ends]
      constructor
      · intro none
        cases none
      · rintro ⟨also, unfinished', apart⟩
        have at_once := (history.running i other).mpr ⟨also, unfinished'⟩
        rw [running] at at_once
        exact absurd (Option.some.inj at_once).symm apart
    · rw [List.getElem?_set_ne (Ne.symm same), history.running i other]
      constructor
      · rintro ⟨also, unfinished'⟩
        refine ⟨also, unfinished', ?_⟩
        rintro rfl
        exact same (history.taken_once also member)
      · rintro ⟨also, unfinished', _⟩
        exact ⟨also, unfinished'⟩
  · intro other done
    rcases List.mem_append.mp done with done | done
    · exact history.finishedTaken other done
    · obtain rfl := List.mem_singleton.mp done
      exact List.mem_map_of_mem member
  · exact List.nodup_append.mpr ⟨history.finishedOnce, List.nodup_singleton _, by
      intro other done last same
      obtain rfl := List.mem_singleton.mp same
      rintro rfl
      exact unfinished done⟩

end TaskHistory

end SimpleSrv
