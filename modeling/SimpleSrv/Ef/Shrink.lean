import Mathlib.Data.List.TakeWhile
import SimpleSrv.Ef.CoroutineLaws

/-! How many coroutines a shrink of the pool deletes, and for which of them it takes time. -/

namespace SimpleSrv.Ef

/-- A shrink returns without looking at any coroutine. -/
def Pool.Untouched (pool : Pool) (maxCount : Int) : Prop :=
  pool.freeCount ≤ 0 ∨ (maxCount > 0 ∧ pool.fullCount ≤ pool.limitMin)

instance (pool : Pool) (maxCount : Int) : Decidable (pool.Untouched maxCount) :=
  inferInstanceAs (Decidable (_ ∨ _))

/-- The number of coroutines that the loop of a shrink may delete. -/
def Pool.shrinkBound (pool : Pool) (maxCount : Int) : Nat :=
  -- The clamp comes before the sign is dropped, so that it also applies to negative counts.
  (min maxCount (toInt (pool.fullCount - pool.limitMin))).natAbs

/-- The coroutines at the old end of the free list that are idle for long enough, oldest first. -/
def Pool.idleTail (pool : Pool) (idleMillisecs : Int) (tv : TimeVal) : List Ptr :=
  pool.freeList.reverse.takeWhile fun co =>
    IdleEnough tv (pool.coroutines co).lastRunTime idleMillisecs

/--
More coroutines than were asked for are deleted.

The pool is too small already, or it is so far above its lower limit that no `int` can tell.
-/
def Pool.Overshoots (pool : Pool) (idleMillisecs maxCount : Int) (tv : TimeVal) : Prop :=
  (maxCount ≤ 0 ∨ pool.limitMin < pool.fullCount) ∧
    toInt (pool.fullCount - pool.limitMin) < -maxCount.natAbs ∧
    maxCount.natAbs < (pool.idleTail idleMillisecs tv).length

instance (pool : Pool) (idleMillisecs maxCount : Int) (tv : TimeVal) :
    Decidable (pool.Overshoots idleMillisecs maxCount tv) :=
  inferInstanceAs (Decidable (_ ∧ _))

/-- A shrink stays within what it was asked for. -/
structure ShrinkKeeps (pool : Pool) (idleMillisecs maxCount : Int) (tv : TimeVal) : Prop where
  /-- It returns the number of coroutines that have gone. -/
  counted : (efCoroutinePoolShrink pool idleMillisecs maxCount tv).2 =
    pool.fullList.length -
      (efCoroutinePoolShrink pool idleMillisecs maxCount tv).1.fullList.length
  atMost : (efCoroutinePoolShrink pool idleMillisecs maxCount tv).2 ≤ maxCount.natAbs
  /-- It does not take the pool below its lower limit. -/
  limited : 0 ≤ maxCount → pool.limitMin ≤ pool.fullCount →
    pool.limitMin ≤ (efCoroutinePoolShrink pool idleMillisecs maxCount tv).1.fullCount
  /-- It deletes nothing once the lower limit is reached. -/
  spared : 0 ≤ maxCount → pool.fullCount ≤ pool.limitMin →
    (efCoroutinePoolShrink pool idleMillisecs maxCount tv).1 = pool

/-- Whether something is taken first or tested first makes no difference. -/
theorem takeWhile_take {α : Type*} (test : α → Bool) :
    ∀ (count : Nat) (items : List α),
      (items.take count).takeWhile test = (items.takeWhile test).take count
  | 0, items => by simp
  | count + 1, [] => by simp
  | count + 1, item :: rest => by
    -- Either the first item passes and both sides keep it, or both are empty.
    rw [List.take_succ_cons, List.takeWhile_cons, List.takeWhile_cons, takeWhile_take test count]
    split <;> simp

/-- A shrink deletes the idle coroutines at the old end of the free list, up to its bound. -/
theorem efCoroutinePoolShrink_eq (pool : Pool) (idleMillisecs maxCount : Int) (tv : TimeVal) :
    efCoroutinePoolShrink pool idleMillisecs maxCount tv =
      if pool.Untouched maxCount then (pool, 0)
      else
        let gone := (pool.idleTail idleMillisecs tv).take (pool.shrinkBound maxCount)
        (gone.foldl Pool.delete pool, (gone.length : Int)) := by
  -- The two early returns are the two parts of the condition.
  unfold efCoroutinePoolShrink
  by_cases early : pool.Untouched maxCount
  · rw [if_pos early]
    exact if_pos early
  · -- The two conditional assignments compute the absolute value of the smaller number.
    have bound : ∀ beyondMin : Int,
        (if (if maxCount > beyondMin then beyondMin else maxCount) < 0
          then -(if maxCount > beyondMin then beyondMin else maxCount)
          else (if maxCount > beyondMin then beyondMin else maxCount)).toNat =
        (min maxCount beyondMin).natAbs := by
      intro beyondMin
      omega
    rw [if_neg early]
    refine (if_neg early).trans ?_
    simp only [bound, shrinkLoop_eq, takeWhile_take, Int.zero_add]
    rfl

/-- Different coroutines of the pool, once deleted, are missing from its list one by one. -/
theorem foldl_delete_length {gone : List Ptr} {pool : Pool} (different : gone.Nodup)
    (known : ∀ co ∈ gone, co ∈ pool.fullList) :
    (gone.foldl Pool.delete pool).fullList.length + gone.length = pool.fullList.length := by
  -- What is left and what has gone make up the whole list.
  have part : gone.Subperm pool.fullList := List.subperm_of_subset different known
  have whole : (gone ++ pool.fullList.diff gone).Perm pool.fullList :=
    List.subperm_append_diff_self_of_count_le (List.subperm_ext_iff.mp part)
  rw [foldl_delete_fullList, ← whole.length_eq, List.length_append, Nat.add_comm]

namespace PoolOk

variable {pool : Pool}

/-- The idle coroutines are different coroutines of the pool. -/
theorem idleTail_part (ok : PoolOk pool) (idleMillisecs : Int) (tv : TimeVal) :
    (pool.idleTail idleMillisecs tv).Nodup ∧
      ∀ co ∈ pool.idleTail idleMillisecs tv, co ∈ pool.freeList := by
  -- They are a prefix of the reversed free list.
  have part : (pool.idleTail idleMillisecs tv).Sublist pool.freeList.reverse :=
    List.takeWhile_sublist _
  exact ⟨part.nodup (List.nodup_reverse.mpr ok.freeNodup),
    fun co member => List.mem_reverse.mp (part.subset member)⟩

/-- What a shrink returns, and what it leaves of the pool. -/
theorem shrink_counts (ok : PoolOk pool) (idleMillisecs : Int) {maxCount : Int} (tv : TimeVal)
    (looks : ¬ pool.Untouched maxCount) :
    let gone := (pool.idleTail idleMillisecs tv).take (pool.shrinkBound maxCount)
    efCoroutinePoolShrink pool idleMillisecs maxCount tv =
        (gone.foldl Pool.delete pool, (gone.length : Int)) ∧
      (gone.foldl Pool.delete pool).fullCount = pool.fullCount - gone.length ∧
      (gone.foldl Pool.delete pool).fullList.length + gone.length = pool.fullList.length := by
  intro gone
  -- Whoever goes is one of the idle coroutines, and those belong to the pool.
  obtain ⟨nodup, inside⟩ := ok.idleTail_part idleMillisecs tv
  have different : gone.Nodup := nodup.sublist (List.take_sublist _ _)
  have known : ∀ co ∈ gone, co ∈ pool.fullList := fun co member =>
    ok.freeFull co (inside co (List.mem_of_mem_take member))
  exact ⟨(efCoroutinePoolShrink_eq _ _ _ _).trans (if_neg looks),
    foldl_delete_fullCount gone pool, foldl_delete_length different known⟩

/-- A shrink stays within what it was asked for unless it overshoots. -/
theorem shrink_keeps_iff (ok : PoolOk pool) (idleMillisecs maxCount : Int) (tv : TimeVal) :
    ShrinkKeeps pool idleMillisecs maxCount tv ↔ ¬ pool.Overshoots idleMillisecs maxCount tv := by
  -- The counters of the pool are the lengths of its lists.
  have freeCount := ok.freeCount
  have part : (pool.idleTail idleMillisecs tv).length ≤ pool.freeList.length := by
    have shorter := (List.takeWhile_sublist (fun co =>
      decide (IdleEnough tv (pool.coroutines co).lastRunTime idleMillisecs))
      (l := pool.freeList.reverse)).length_le
    rwa [List.length_reverse] at shorter
  by_cases early : pool.Untouched maxCount
  · -- Nothing happens, and a pool that overshoots would have had something to delete.
    have nothing : efCoroutinePoolShrink pool idleMillisecs maxCount tv = (pool, 0) :=
      (efCoroutinePoolShrink_eq _ _ _ _).trans (if_pos early)
    constructor
    · -- An empty free list has no idle coroutines, and the other early return needs a positive
      -- count.
      rintro _ ⟨asked, _, many⟩
      rcases early with empty | ⟨positive, low⟩
      · omega
      · omega
    · intro _
      constructor <;> simp [nothing]
  · -- Otherwise the loop runs, and it deletes as many as its bound and the idle coroutines allow.
    obtain ⟨shrunk, count, length⟩ := ok.shrink_counts idleMillisecs tv early
    have taken := List.length_take (i := pool.shrinkBound maxCount)
      (l := pool.idleTail idleMillisecs tv)
    generalize (pool.idleTail idleMillisecs tv).take (pool.shrinkBound maxCount) = gone
      at shrunk count length taken
    have looks : ¬ (maxCount > 0 ∧ pool.fullCount ≤ pool.limitMin) :=
      fun small => early (.inr small)
    have near := natAbs_toInt_le (pool.fullCount - pool.limitMin)
    unfold Pool.shrinkBound at taken
    constructor
    · -- More idle coroutines than the count allows would all have gone.
      rintro keeps ⟨_, below, many⟩
      have atMost := keeps.atMost
      rw [shrunk] at atMost
      simp only at atMost
      omega
    · intro within
      -- A bound above the count would come from a room that counts as negative.
      have bounded : gone.length ≤ maxCount.natAbs := by
        by_contra more
        exact within ⟨by omega, by omega, by omega⟩
      refine ⟨?_, ?_, ?_, ?_⟩
      · rw [shrunk]
        simp only
        omega
      · rw [shrunk]
        simp only
        omega
      · intro positive high
        -- However the room is brought into an `int`, the bound is no larger.
        rw [shrunk]
        simp only
        omega
      · intro positive low
        -- At the limit only a count of zero looks at all, and it has been kept.
        have none : gone = [] := List.eq_nil_of_length_eq_zero (by omega)
        rw [shrunk, none]
        rfl

end PoolOk

/-- A pool with one coroutine, which is free and has run last at this time. -/
def onePool (limitMin : Int) (last : TimeVal) : Pool :=
  { efCoroutinePoolInit 1 (fun _ => ⟨0, 0, none⟩) (fun _ => ⟨last, 1⟩) 4096 limitMin 4 with
    fullList := [2]
    freeList := [2]
    fullCount := 1
    freeCount := 1 }

/-- That pool is well formed. -/
theorem poolOk_onePool (limitMin : Int) (last : TimeVal) : PoolOk (onePool limitMin last) := by
  -- Its coroutine carries the status of memory that is filled with zeros.
  constructor
  case fullCount | freeCount => rfl
  case fullNodup | freeNodup => exact List.nodup_singleton 2
  case freeFull => exact fun co member => member
  case freeExited => simp [onePool, efCoroutinePoolInit, efFiberInitSched, fiberStatusExited]
  case bounded => exact (by decide : (1 : Int) ≤ max 4 0)

/-- A shrink by one deletes the only coroutine of a pool without a lower limit. -/
theorem shrink_keeps_one :
    ShrinkKeeps (onePool 0 ⟨6, 0⟩) 5 1 ⟨8, 0⟩ ↔ ¬ (onePool 0 ⟨6, 0⟩).Overshoots 5 1 ⟨8, 0⟩ :=
  (poolOk_onePool 0 ⟨6, 0⟩).shrink_keeps_iff 5 1 ⟨8, 0⟩

/-- Asked to delete nothing, a shrink deletes a coroutine of a pool below its lower limit. -/
theorem shrink_zero_deletes :
    ∃ (pool : Pool) (idleMillisecs maxCount : Int) (tv : TimeVal), PoolOk pool ∧ maxCount = 0 ∧
      (efCoroutinePoolShrink pool idleMillisecs maxCount tv).2 = 1 ∧
      ¬ ShrinkKeeps pool idleMillisecs maxCount tv :=
  ⟨onePool 2 ⟨6, 0⟩, 5, 0, ⟨8, 0⟩, poolOk_onePool 2 ⟨6, 0⟩, rfl, rfl,
    fun keeps => absurd keeps.atMost (by decide)⟩

/-- With the lowest limit that an `int` can be, the room above it counts as negative. -/
example : (efCoroutinePoolShrink (onePool (-2 ^ 31) ⟨6, 0⟩) 5 0 ⟨8, 0⟩).2 = 1 := by decide

/-- The time between two readings of the clock, in microseconds. -/
def TimeVal.since (now last : TimeVal) : Int :=
  (now.sec - last.sec) * 1000000 + (now.usec - last.usec)

/-- The microseconds of two times do not turn the comparison of their seconds round. -/
def SecondsDecide (now last : TimeVal) (idleMillisecs : Int) : Prop :=
  -- What the whole seconds are ahead of the limit, and what the microseconds add to them.
  let ahead := (now.sec - last.sec) * 1000 - idleMillisecs
  let micros := now.usec - last.usec
  (0 < ahead → -micros ≤ ahead * 1000) ∧ (ahead < 0 → micros < -ahead * 1000)

instance (now last : TimeVal) (idleMillisecs : Int) :
    Decidable (SecondsDecide now last idleMillisecs) :=
  inferInstanceAs (Decidable (_ ∧ _))

/-- The test of a shrink measures the idle time exactly when the seconds alone decide. -/
theorem idleEnough_iff_since (now last : TimeVal) (idleMillisecs : Int) :
    (IdleEnough now last idleMillisecs ↔ idleMillisecs * 1000 ≤ now.since last) ↔
      SecondsDecide now last idleMillisecs := by
  -- On equality the limit is a number of whole seconds, so its rest is zero.
  have whole : (now.sec - last.sec) * 1000 = idleMillisecs → idleMillisecs.tmod 1000 = 0 := by
    rintro rfl
    exact Int.mul_tmod_left _ _
  unfold IdleEnough TimeVal.since SecondsDecide
  constructor
  · intro same
    constructor
    · intro ahead
      -- Whole seconds that are beyond the limit pass the test, so the time must be as long.
      have long := same.mp (.inl (by omega))
      omega
    · intro behind
      -- A time that were long enough would have passed the test, which needs no fewer seconds.
      by_contra late
      rcases same.mpr (by omega) with more | ⟨equal, _⟩
      · omega
      · omega
  · rintro ⟨above, below⟩
    constructor
    · -- A test that is passed by seconds or by microseconds has measured enough.
      rintro (more | ⟨equal, micros⟩)
      · have reached := above (by omega)
        omega
      · rw [whole equal] at micros
        omega
    · intro long
      -- A time that is long enough has as many seconds, or else the microseconds had turned it
      -- round.
      by_cases equal : (now.sec - last.sec) * 1000 = idleMillisecs
      · refine .inr ⟨equal, ?_⟩
        rw [whole equal]
        omega
      · refine .inl ?_
        by_contra less
        have short := below (by omega)
        omega

/-- The loop of a shrink reaches this coroutine, having deleted those behind it. -/
def Pool.Examines (pool : Pool) (idleMillisecs maxCount : Int) (tv : TimeVal) (co : Ptr) : Prop :=
  ¬ pool.Untouched maxCount ∧ ∃ before after, pool.freeList.reverse = before ++ co :: after ∧
    before.length < pool.shrinkBound maxCount ∧
    ∀ other ∈ before, IdleEnough tv (pool.coroutines other).lastRunTime idleMillisecs

namespace PoolOk

variable {pool : Pool}

/-- A coroutine that a shrink reaches is deleted exactly when it passes the test. -/
theorem examined_deleted_iff (ok : PoolOk pool) {idleMillisecs maxCount : Int} {tv : TimeVal}
    {co : Ptr} (examined : pool.Examines idleMillisecs maxCount tv co) :
    co ∉ (efCoroutinePoolShrink pool idleMillisecs maxCount tv).1.fullList ↔
      IdleEnough tv (pool.coroutines co).lastRunTime idleMillisecs := by
  -- The coroutine belongs to the pool beforehand, so only the deletions count.
  obtain ⟨looks, before, after, split, room, idle⟩ := examined
  have free : co ∈ pool.freeList := by
    rw [← List.mem_reverse, split]
    simp
  have full := ok.freeFull co free
  rw [(ok.shrink_counts idleMillisecs tv looks).1, foldl_delete_fullList,
    ok.fullNodup.mem_sdiff_iff]
  simp only [full, true_and, not_not]
  -- Those behind the coroutine have all passed, so the test of the coroutine itself decides.
  have passed : before.takeWhile (fun other =>
      decide (IdleEnough tv (pool.coroutines other).lastRunTime idleMillisecs)) = before := by
    apply List.takeWhile_eq_self_iff.mpr
    intro other member
    exact decide_eq_true (idle other member)
  have tail : pool.idleTail idleMillisecs tv = before ++ (co :: after).takeWhile (fun other =>
      decide (IdleEnough tv (pool.coroutines other).lastRunTime idleMillisecs)) := by
    rw [Pool.idleTail, split, List.takeWhile_append, passed, if_pos rfl]
  rw [tail, List.takeWhile_cons]
  constructor
  · intro gone
    by_contra fails
    -- A coroutine that fails ends the loop, and no one before it has its address.
    have nodup := List.nodup_reverse.mpr ok.freeNodup
    rw [split, List.nodup_append] at nodup
    simp only [fails, decide_false, Bool.false_eq_true, if_false, List.append_nil] at gone
    exact nodup.2.2 co (List.mem_of_mem_take gone) co List.mem_cons_self rfl
  · intro passes
    -- One that passes is within the bound, as those before it do not use it up.
    have position : (before ++ [co]).length ≤ pool.shrinkBound maxCount := by
      rw [List.length_append, List.length_singleton]
      omega
    simp only [passes, decide_true, if_true]
    rw [List.append_cons, List.take_append, List.take_of_length_le position]
    simp

end PoolOk

/--
A shrink deletes a coroutine that it reaches exactly when it has been idle for long enough.

This holds if and only if the seconds of the two times decide alone.
-/
theorem examined_deleted_in_time_iff {pool : Pool} (ok : PoolOk pool)
    {idleMillisecs maxCount : Int} {tv : TimeVal} {co : Ptr}
    (examined : pool.Examines idleMillisecs maxCount tv co) :
    (co ∉ (efCoroutinePoolShrink pool idleMillisecs maxCount tv).1.fullList ↔
      idleMillisecs * 1000 ≤ tv.since (pool.coroutines co).lastRunTime) ↔
      SecondsDecide tv (pool.coroutines co).lastRunTime idleMillisecs := by
  -- The loop asks its test, and the test is what the condition is about.
  rw [ok.examined_deleted_iff examined]
  exact idleEnough_iff_since _ _ _

/-- A coroutine that has been idle for two seconds goes when five milliseconds are asked for. -/
theorem examined_deleted_in_time_two_seconds :
    (2 ∉ (efCoroutinePoolShrink (onePool 0 ⟨6, 0⟩) 5 1 ⟨8, 0⟩).1.fullList ↔
      5 * 1000 ≤ TimeVal.since ⟨8, 0⟩ ⟨6, 0⟩) ↔ SecondsDecide ⟨8, 0⟩ ⟨6, 0⟩ 5 :=
  examined_deleted_in_time_iff (poolOk_onePool 0 ⟨6, 0⟩)
    ⟨by decide, [], [], rfl, by decide, by simp⟩

/-- Idle for a tenth of a second across a full second, a coroutine goes before its half second. -/
theorem shrink_deletes_early :
    ∃ (pool : Pool) (idleMillisecs maxCount : Int) (tv : TimeVal) (co : Ptr),
      PoolOk pool ∧ pool.Examines idleMillisecs maxCount tv co ∧
      (pool.coroutines co).lastRunTime = ⟨100, 900000⟩ ∧ tv = ⟨101, 0⟩ ∧ idleMillisecs = 500 ∧
      ¬ (co ∉ (efCoroutinePoolShrink pool idleMillisecs maxCount tv).1.fullList ↔
        idleMillisecs * 1000 ≤ tv.since (pool.coroutines co).lastRunTime) :=
  ⟨onePool 0 ⟨100, 900000⟩, 500, 1, ⟨101, 0⟩, 2, poolOk_onePool 0 ⟨100, 900000⟩,
    ⟨by decide, [], [], rfl, by decide, by simp⟩, rfl, rfl, rfl, by decide⟩

end SimpleSrv.Ef
