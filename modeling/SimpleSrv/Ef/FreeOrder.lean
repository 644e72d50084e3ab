import Mathlib.Data.List.DropRight
import SimpleSrv.Ef.Shrink

/-! The free list is in the order of the exits, so a shrink that stops early misses nobody. -/

namespace SimpleSrv.Ef

/-- The time that an operation reads from the clock, if it reads one. -/
def PoolOp.now : PoolOp → Option TimeVal
  | .create _ _ _ => none
  | .resume _ _ now | .yield _ now | .exit _ now | .shrink _ _ now => some now

/-- A pool in use, with what an observer of it has noted. -/
structure TimedPool where
  run : PoolRun
  /-- The last time that was read. -/
  clock : TimeVal
  /-- The number of the operation by which each coroutine has exited last. -/
  exitedAt : Ptr → Nat

/-- The notes on exits behind an operation. -/
def PoolOp.note (op : PoolOp) (r : PoolRun) (exitedAt : Ptr → Nat) : Ptr → Nat :=
  match op with
  | .exit _ _ => Function.update exitedAt r.pool.fiberSched.currentFiber r.number
  | .create _ _ _ | .resume _ _ _ | .yield _ _ | .shrink _ _ _ => exitedAt

/-- One operation, which is noted. -/
def timedStep (t : TimedPool) (op : PoolOp) : Option TimedPool :=
  (poolStep t.run op).map fun run =>
    { run := run, clock := op.now.getD t.clock, exitedAt := op.note t.run t.exitedAt }

/-- The discipline of the pool, on a clock that does not go back. -/
def TimedDiscipline (t : TimedPool) (op : PoolOp) : Prop :=
  PoolDiscipline t.run op ∧ ∀ now ∈ op.now, t.clock ≤ now

/-- The number of coroutines that a shrink may delete, also where it returns at once. -/
def Pool.shrinkCap (pool : Pool) (maxCount : Int) : Nat :=
  if pool.Untouched maxCount then 0 else pool.shrinkBound maxCount

/-- The free coroutines that pass the test of a shrink, in the order of the free list. -/
def Pool.idleFree (pool : Pool) (idleMillisecs : Int) (tv : TimeVal) : List Ptr :=
  pool.freeList.filter fun co => IdleEnough tv (pool.coroutines co).lastRunTime idleMillisecs

/-- The free list goes from the coroutine that has exited last to the one that has exited first. -/
structure FreeOrdered (t : TimedPool) : Prop where
  exits : t.run.pool.freeList.Pairwise fun newer older => t.exitedAt older < t.exitedAt newer
  times : t.run.pool.freeList.Pairwise fun newer older =>
    (t.run.pool.coroutines older).lastRunTime ≤ (t.run.pool.coroutines newer).lastRunTime

/-- What holds throughout a run: no coroutine of the free list is ahead of the observer. -/
structure FreeInv (t : TimedPool) : Prop extends FreeOrdered t where
  pool : PoolRunInv t.run
  past : ∀ co ∈ t.run.pool.freeList,
    t.exitedAt co < t.run.number ∧ (t.run.pool.coroutines co).lastRunTime ≤ t.clock

/-- Time does not go back from a moment to itself. -/
theorem TimeVal.le_refl (a : TimeVal) : a ≤ a := .inr ⟨rfl, Int.le_refl _⟩

/-- What an operation does to the free list and to the times of those who are on it. -/
inductive FreeMove (r : PoolRun) : PoolOp → Pool → Prop
  /-- Some may leave the list, and those who stay keep their times. -/
  | stays {op : PoolOp} (after : Pool) : after.freeList.Sublist r.pool.freeList →
      (∀ co ∈ after.freeList,
        (after.coroutines co).lastRunTime = (r.pool.coroutines co).lastRunTime) →
      (∀ exitedAt, op.note r exitedAt = exitedAt) → FreeMove r op after
  /-- The running coroutine comes to the front. -/
  | enters (retval : Int) (now : TimeVal) (after : Pool) (co : Ptr) :
      co = r.pool.fiberSched.currentFiber → co ∉ r.pool.freeList →
      after.freeList = co :: r.pool.freeList →
      (after.coroutines co).lastRunTime = now →
      (∀ other, other ≠ co → after.coroutines other = r.pool.coroutines other) →
      FreeMove r (.exit retval now) after

/-- Every permitted operation does one of the two. -/
theorem PoolInv.freeMove {r u : PoolRun} {chain : List Ptr} {op : PoolOp}
    (inv : PoolInv r.pool chain) (allowed : PoolDiscipline r op)
    (stepped : poolStep r op = some u) : FreeMove r op u.pool := by
  -- The operations are taken one by one, and only the exit adds to the list.
  cases op with
  | create fiberProc param mapped =>
    obtain ⟨⟨after, handed⟩, created, effect⟩ := inv.created fiberProc param mapped
    simp only [poolStep, created, Option.map_some, Option.some.injEq] at stepped
    subst stepped
    cases effect with
    | refused => exact .stays _ (List.Sublist.refl _) (fun _ _ => rfl) fun _ => rfl
    | reused co rest shape =>
      apply FreeMove.stays
      · show rest.Sublist r.pool.freeList
        rw [shape]
        exact List.sublist_cons_self co rest
      · exact fun _ _ => rfl
      · exact fun _ => rfl
    | added co found empty room =>
      apply FreeMove.stays
      · exact List.Sublist.refl _
      · intro other free
        -- Memory that is new keeps what it held where the time will be.
        show (Function.update r.pool.coroutines co
          { r.pool.coroutines co with runCount := 0 } other).lastRunTime = _
        by_cases same : other = co
        · subst same
          rw [Function.update_self]
        · rw [Function.update_of_ne same]
      · exact fun _ => rfl
  | resume co toYield now =>
    obtain ⟨full, off⟩ := allowed
    rw [inv.sched.onChain_iff] at off
    by_cases free : co ∈ r.pool.freeList
    · have unchanged := resume_exited ((inv.freeExited co full).mp free) toYield r.number now
      simp only [poolStep, unchanged, Option.map_some, Option.some.injEq] at stepped
      subst stepped
      exact .stays _ (List.Sublist.refl _) (fun _ _ => rfl) fun _ => rfl
    · obtain ⟨switched, _⟩ := inv.resume_switched full off free toYield r.number now
      simp only [poolStep, switched, Option.map_some, Option.some.injEq] at stepped
      subst stepped
      exact .stays _ (List.Sublist.refl _) (fun _ _ => rfl) fun _ => rfl
  | yield sndval now =>
    obtain ⟨switched, _⟩ := inv.yield_switched allowed sndval r.number now
    simp only [poolStep, switched, Option.map_some, Option.some.injEq] at stepped
    subst stepped
    exact .stays _ (List.Sublist.refl _) (fun _ _ => rfl) fun _ => rfl
  | exit retval now =>
    obtain ⟨switched, _⟩ := inv.exit_switched allowed retval now
    simp only [poolStep, switched, Option.map_some, Option.some.injEq] at stepped
    subst stepped
    -- The coroutine has exited, so the test behind its resume succeeds.
    have exited : (r.pool.fiberSched.ended.fibers r.pool.fiberSched.currentFiber).status =
        fiberStatusExited := by
      simp [Sched.ended, Sched.modify_fibers]
    apply FreeMove.enters retval now _ r.pool.fiberSched.currentFiber rfl
    · exact (inv.current_busy allowed).2
    · rw [efCoroutineResumed, if_pos exited]
    · rw [efCoroutineResumed, if_pos exited]
      show (Function.update r.pool.coroutines _ _ _).lastRunTime = now
      rw [Function.update_self]
    · intro other apart
      rw [efCoroutineResumed, if_pos exited]
      exact Function.update_of_ne apart _ _
  | shrink idleMillisecs maxCount now =>
    obtain ⟨gone, _, shrunk, _, _⟩ := inv.shrink idleMillisecs maxCount now
    simp only [poolStep, shrunk, Option.some.injEq] at stepped
    subst stepped
    apply FreeMove.stays
    · rw [foldl_delete_freeList]
      exact List.diff_sublist _ _
    · intro co _
      rw [foldl_delete_coroutines]
    · exact fun _ => rfl

namespace FreeInv

variable {t u : TimedPool}

/-- In a new pool the free list is empty. -/
theorem initial {threadFiber : Ptr} {memory : Ptr → Fiber} {coroutines : Ptr → Coroutine}
    {stackSize : Nat} {limitMin limitMax : Int} (clock : TimeVal) (exitedAt : Ptr → Nat)
    (unused : ∀ fiber, fiber ≠ threadFiber → (memory fiber).status ≠ fiberStatusInited) :
    FreeInv ⟨⟨efCoroutinePoolInit threadFiber memory coroutines stackSize limitMin limitMax, 0⟩,
      clock, exitedAt⟩ where
  exits := .nil
  times := .nil
  pool := ⟨[threadFiber], .initial unused⟩
  past _ absent := nomatch absent

/-- Some leave the list, and the others keep their times. -/
theorem stays (inv : FreeInv t) (kept : PoolRunInv u.run)
    (number : u.run.number = t.run.number + 1) (later : t.clock ≤ u.clock)
    (part : u.run.pool.freeList.Sublist t.run.pool.freeList)
    (times : ∀ co ∈ u.run.pool.freeList,
      (u.run.pool.coroutines co).lastRunTime = (t.run.pool.coroutines co).lastRunTime)
    (noted : u.exitedAt = t.exitedAt) : FreeInv u := by
  -- Whoever is on the list was on it before, and nothing of him has changed.
  refine ⟨⟨?_, ?_⟩, kept, ?_⟩
  · rw [noted]
    exact inv.exits.sublist part
  · -- Those who are left stand in the order in which they stood.
    apply (inv.times.sublist part).imp_of_mem
    intro newer older first second before
    rw [times newer first, times older second]
    exact before
  · intro co free
    obtain ⟨before, time⟩ := inv.past co (part.subset free)
    rw [noted, times co free, number]
    exact ⟨by omega, TimeVal.le_trans time later⟩

/-- The coroutine that exits comes to the front of the list. -/
theorem enters (inv : FreeInv t) (kept : PoolRunInv u.run)
    (number : u.run.number = t.run.number + 1) (later : t.clock ≤ u.clock) {co : Ptr}
    (absent : co ∉ t.run.pool.freeList)
    (front : u.run.pool.freeList = co :: t.run.pool.freeList)
    (time : (u.run.pool.coroutines co).lastRunTime = u.clock)
    (others : ∀ other, other ≠ co →
      u.run.pool.coroutines other = t.run.pool.coroutines other)
    (noted : u.exitedAt = Function.update t.exitedAt co t.run.number) : FreeInv u := by
  -- Its number is above all the others, and its time is the one that has just been read.
  have apart : ∀ other ∈ t.run.pool.freeList, other ≠ co := fun other free same =>
    absent (same ▸ free)
  refine ⟨⟨?_, ?_⟩, kept, ?_⟩
  · -- The number of this operation is above all the others.
    rw [noted, front, List.pairwise_cons]
    constructor
    · intro other free
      rw [Function.update_self, Function.update_of_ne (apart other free)]
      exact (inv.past other free).1
    · apply inv.exits.imp_of_mem
      intro newer older first second before
      rw [Function.update_of_ne (apart newer first), Function.update_of_ne (apart older second)]
      exact before
  · -- The time that the exit reads is behind none of the others.
    rw [front, List.pairwise_cons]
    constructor
    · intro other free
      rw [others other (apart other free), time]
      exact TimeVal.le_trans (inv.past other free).2 later
    · apply inv.times.imp_of_mem
      intro newer older first second before
      rw [others newer (apart newer first), others older (apart older second)]
      exact before
  · intro other free
    rw [front] at free
    rw [noted, number]
    rcases List.mem_cons.mp free with same | free
    · rw [same, Function.update_self, time]
      exact ⟨by omega, u.clock.le_refl⟩
    · rw [Function.update_of_ne (apart other free), others other (apart other free)]
      obtain ⟨before, past⟩ := inv.past other free
      exact ⟨by omega, TimeVal.le_trans past later⟩

/-- Every operation on a clock that does not go back keeps the order of the free list. -/
theorem step (inv : FreeInv t) {op : PoolOp} (allowed : TimedDiscipline t op)
    (stepped : timedStep t op = some u) : FreeInv u := by
  -- The record follows the pool, whose operations do one of two things to the list.
  obtain ⟨run, moved, same⟩ := Option.map_eq_some_iff.mp stepped
  have moved : poolStep t.run op = some u.run := by rw [moved, ← same]
  have clock : u.clock = op.now.getD t.clock := by rw [← same]
  have noted : u.exitedAt = op.note t.run t.exitedAt := by rw [← same]
  obtain ⟨discipline, onward⟩ := allowed
  obtain ⟨chain, pool⟩ := inv.pool
  have kept := PoolRunInv.step inv.pool discipline moved
  have number : u.run.number = t.run.number + 1 := by
    obtain ⟨after, _, effect, _⟩ := pool.step discipline
    rw [effect, Option.some.injEq] at moved
    rw [← moved]
  -- The clock has moved on at most, whether or not it was read.
  have later : t.clock ≤ u.clock := by
    rw [clock]
    cases read : op.now with
    | none => exact t.clock.le_refl
    | some now => exact onward now read
  cases pool.freeMove discipline moved with
  | stays _ part times unnoted =>
    exact inv.stays kept number later part times (noted.trans (unnoted t.exitedAt))
  | enters retval now _ co current absent front time others =>
    apply inv.enters kept number later absent front (time.trans clock.symm) others
    rw [noted, current]
    rfl

end FreeInv

/-- Whoever has run earlier passes the test of a shrink as well. -/
theorem IdleEnough.of_le {tv last earlier : TimeVal} {idleMillisecs : Int}
    (idle : IdleEnough tv last idleMillisecs) (before : earlier ≤ last) :
    IdleEnough tv earlier idleMillisecs := by
  -- With fewer seconds the first part holds, and with equal seconds the microseconds decide.
  unfold IdleEnough at idle ⊢
  rcases before with fewer | ⟨same, fewer⟩
  · omega
  · omega

/-- Where every item behind one that passes passes too, the last ones that pass are all of them. -/
theorem takeWhile_reverse_eq_filter {α : Type*} {test : α → Bool} :
    ∀ {items : List α},
      (items.Pairwise fun first second => test first = true → test second = true) →
      items.reverse.takeWhile test = (items.filter test).reverse
  | [], _ => rfl
  | item :: rest, ordered => by
    obtain ⟨follows, ordered⟩ := List.pairwise_cons.mp ordered
    rw [List.reverse_cons, List.takeWhile_append, takeWhile_reverse_eq_filter ordered]
    by_cases passes : test item = true
    · -- All the others pass behind this item, so the walk from the end comes to it.
      have all : rest.filter test = rest :=
        List.filter_eq_self.mpr fun other member => follows other member passes
      simp [passes, all]
    · -- The walk from the end stops before this item, or has stopped already.
      simp only [List.takeWhile_cons, passes, List.filter_cons, Bool.false_eq_true, if_false,
        List.append_nil]
      split
      · rename_i whole
        rw [List.length_reverse, List.length_reverse] at whole
        rw [List.filter_eq_self.mpr (List.length_filter_eq_length_iff.mp whole)]
      · rfl

/-- The test of a shrink is monotone along an ordered free list. -/
theorem FreeOrdered.monotone {t : TimedPool} (ordered : FreeOrdered t) (idleMillisecs : Int)
    (tv : TimeVal) : t.run.pool.freeList.Pairwise fun newer older =>
      IdleEnough tv (t.run.pool.coroutines newer).lastRunTime idleMillisecs →
        IdleEnough tv (t.run.pool.coroutines older).lastRunTime idleMillisecs :=
  ordered.times.imp fun before idle => idle.of_le before

/-- On an ordered free list the walk of a shrink meets all who pass its test, oldest first. -/
theorem FreeOrdered.idleTail_eq {t : TimedPool} (ordered : FreeOrdered t) (idleMillisecs : Int)
    (tv : TimeVal) :
    t.run.pool.idleTail idleMillisecs tv = (t.run.pool.idleFree idleMillisecs tv).reverse := by
  -- On an ordered list the test is passed by a tail of it.
  apply takeWhile_reverse_eq_filter
  apply (ordered.monotone idleMillisecs tv).imp
  intro newer older follows passes
  exact decide_eq_true (follows (of_decide_eq_true passes))

/-- A shrink takes the last ones that pass its test off both lists, as many as it may delete. -/
theorem FreeOrdered.shrink_eq {t : TimedPool} (ordered : FreeOrdered t)
    (idleMillisecs maxCount : Int) (tv : TimeVal) :
    (efCoroutinePoolShrink t.run.pool idleMillisecs maxCount tv).1 =
      ((t.run.pool.idleFree idleMillisecs tv).rtake
        (t.run.pool.shrinkCap maxCount)).reverse.foldl Pool.delete t.run.pool := by
  -- The walk starts at the end of the list, and stops after so many.
  rw [efCoroutinePoolShrink_eq, Pool.shrinkCap, List.rtake_eq_reverse_take_reverse,
    List.reverse_reverse, ← ordered.idleTail_eq]
  split
  · rw [List.take_zero]
    rfl
  · rfl

/--
On a clock that does not go back, the free list is always in the order of the exits.

The test of a shrink is monotone along it, so the loop may stop at the first one that fails.
What a shrink deletes are the last ones that pass, as many as it may delete at most.
Where it deletes fewer, nobody is left who passes.
-/
theorem shrink_misses_nobody {threadFiber : Ptr} {memory : Ptr → Fiber}
    {coroutines : Ptr → Coroutine} {stackSize : Nat} {limitMin limitMax : Int} {clock : TimeVal}
    {exitedAt : Ptr → Nat} {ops : List PoolOp} {t : TimedPool}
    (unused : ∀ fiber, fiber ≠ threadFiber → (memory fiber).status ≠ fiberStatusInited)
    (run : Run timedStep TimedDiscipline
      ⟨⟨efCoroutinePoolInit threadFiber memory coroutines stackSize limitMin limitMax, 0⟩, clock,
        exitedAt⟩ ops t) :
    FreeOrdered t ∧ ∀ idleMillisecs maxCount tv,
      (t.run.pool.freeList.Pairwise fun newer older =>
        IdleEnough tv (t.run.pool.coroutines newer).lastRunTime idleMillisecs →
          IdleEnough tv (t.run.pool.coroutines older).lastRunTime idleMillisecs) ∧
      let after := (efCoroutinePoolShrink t.run.pool idleMillisecs maxCount tv).1
      let idle := t.run.pool.idleFree idleMillisecs tv
      let count := min idle.length (t.run.pool.shrinkCap maxCount)
      (∀ co, co ∈ t.run.pool.fullList ∧ co ∉ after.fullList ↔ co ∈ idle.rtake count) ∧
        (∀ co, co ∈ after.freeList ↔ co ∈ t.run.pool.freeList ∧ co ∉ idle.rtake count) ∧
        (count < t.run.pool.shrinkCap maxCount → ∀ co ∈ after.freeList,
          ¬ IdleEnough tv (t.run.pool.coroutines co).lastRunTime idleMillisecs) := by
  -- The order is kept through the run, and the rest is about one shrink.
  have inv : FreeInv t :=
    run.invariant (FreeInv.initial clock exitedAt unused) fun _ _ _ inv => inv.step
  obtain ⟨chain, pool⟩ := inv.pool
  refine ⟨inv.toFreeOrdered, fun idleMillisecs maxCount tv => ?_⟩
  refine ⟨inv.monotone idleMillisecs tv, ?_⟩
  intro after idle count
  -- Taking more than there are takes all, so the smaller of the two numbers is enough.
  have taken : idle.rtake count = idle.rtake (t.run.pool.shrinkCap maxCount) := by
    rw [List.rtake, List.rtake]
    congr 1
    omega
  have shrunk : after = (idle.rtake count).reverse.foldl Pool.delete t.run.pool := by
    rw [taken]
    exact inv.shrink_eq idleMillisecs maxCount tv
  have part : ∀ co ∈ idle.rtake count, co ∈ t.run.pool.freeList := by
    intro co member
    exact (List.mem_filter.mp (List.mem_of_mem_drop member)).1
  have free : ∀ co, co ∈ after.freeList ↔
      co ∈ t.run.pool.freeList ∧ co ∉ idle.rtake count := by
    intro co
    rw [shrunk, foldl_delete_freeList, pool.freeNodup.mem_sdiff_iff, List.mem_reverse]
  refine ⟨?_, free, ?_⟩
  · intro co
    rw [shrunk, foldl_delete_fullList, pool.fullNodup.mem_sdiff_iff, List.mem_reverse]
    constructor
    · rintro ⟨full, gone⟩
      by_contra stays
      exact gone ⟨full, stays⟩
    · intro gone
      exact ⟨pool.freeFull co (part co gone), fun stays => stays.2 gone⟩
  · -- The loop has deleted all who pass, so whoever is left fails.
    intro fewer co stays passes
    obtain ⟨waits, kept⟩ := (free co).mp stays
    have whole : idle.rtake count = idle := by
      rw [List.rtake, show idle.length - count = 0 by omega, List.drop_zero]
    rw [whole] at kept
    exact kept (List.mem_filter.mpr ⟨waits, decide_eq_true passes⟩)

/-- The coroutines 2 and 3 exit one second apart, and a shrink between the two limits takes one. -/
theorem shrink_misses_nobody_two :
    let memory : Ptr → Fiber := fun _ => ⟨0, 0, none⟩
    ∃ t, Run timedStep TimedDiscipline
        ⟨⟨efCoroutinePoolInit 1 memory (fun _ => ⟨⟨0, 0⟩, 0⟩) 4096 0 4, 0⟩, ⟨0, 0⟩, fun _ => 0⟩
        [.create 40 0 (some 2), .create 40 0 (some 3), .resume 2 0 ⟨5, 0⟩, .exit 0 ⟨5, 0⟩,
          .resume 3 0 ⟨5, 0⟩, .exit 0 ⟨6, 0⟩] t ∧
      t.run.pool.freeList = [3, 2] ∧ FreeOrdered t ∧
      2 ∉ (efCoroutinePoolShrink t.run.pool 1500 2 ⟨7, 0⟩).1.fullList ∧
      3 ∈ (efCoroutinePoolShrink t.run.pool 1500 2 ⟨7, 0⟩).1.fullList := by
  intro memory
  -- At the thread's fiber, the chain holds nothing but this fiber.
  have off : ∀ {s : Sched} {co : Ptr}, s.currentFiber = 1 → s.threadFiber = 1 → co ≠ 1 →
      ¬ OnChain s co := by
    intro s co current thread apart reached
    have chained : IsChain s [1] := thread.symm
    have member := chained.mem_of_onChain (by simp [current]) reached
    exact apart (List.mem_singleton.mp member)
  have two : (2 : Ptr) ≠ 1 := by decide
  have three : (3 : Ptr) ≠ 1 := by decide
  have clear : ∀ {r : PoolRun} {co : Ptr}, co ∉ r.pool.fullList →
      co ≠ r.pool.fiberSched.threadFiber → r.pool.Fresh (some co) := by
    intro r co new apart other same
    obtain rfl := Option.some.inj same
    exact ⟨new, apart⟩
  have run : Run timedStep TimedDiscipline
      ⟨⟨efCoroutinePoolInit 1 memory (fun _ => ⟨⟨0, 0⟩, 0⟩) 4096 0 4, 0⟩, ⟨0, 0⟩, fun _ => 0⟩
      [.create 40 0 (some 2), .create 40 0 (some 3), .resume 2 0 ⟨5, 0⟩, .exit 0 ⟨5, 0⟩,
        .resume 3 0 ⟨5, 0⟩, .exit 0 ⟨6, 0⟩] _ :=
    .cons ⟨clear (by decide) (by decide), by decide⟩ rfl <|
    .cons ⟨clear (by decide) (by decide), by decide⟩ rfl <|
    .cons ⟨⟨by decide, off rfl rfl two⟩, by decide⟩ rfl <| .cons ⟨two, by decide⟩ rfl <|
    .cons ⟨⟨by decide, off rfl rfl three⟩, by decide⟩ rfl <| .cons ⟨three, by decide⟩ rfl <|
    .start _
  have taken := ((shrink_misses_nobody (fun _ _ => by decide) run).2 1500 2 ⟨7, 0⟩).2.1
  refine ⟨_, run, rfl, (shrink_misses_nobody (fun _ _ => by decide) run).1, ?_, ?_⟩
  · exact ((taken 2).mpr (by decide)).2
  · by_contra gone
    exact absurd ((taken 3).mp ⟨by decide, gone⟩) (by decide)

end SimpleSrv.Ef
