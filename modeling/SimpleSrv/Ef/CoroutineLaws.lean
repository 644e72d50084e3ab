import Mathlib.Data.List.Perm.Subperm
import Mathlib.Order.Lattice
import SimpleSrv.Lib.Run
import SimpleSrv.Ef.FiberLaws
import SimpleSrv.Ef.FiberRuns
import SimpleSrv.Ef.Coroutine

/-! The representation invariant of the coroutine pool, over nested runs of its operations. -/

namespace SimpleSrv.Ef

/-- Times compare in a transitive way. -/
theorem TimeVal.le_trans {a b c : TimeVal} (first : a ≤ b) (second : b ≤ c) : a ≤ c := by
  -- The seconds decide, unless they are equal twice.
  rcases first with earlier | ⟨same, first⟩
  · rcases second with later | ⟨same, _⟩
    · exact .inl (by omega)
    · exact .inl (by omega)
  · rcases second with later | ⟨still, second⟩
    · exact .inl (by omega)
    · exact .inr ⟨by omega, by omega⟩

/-- The lists, the counters and the fiber statuses of a pool agree with each other. -/
structure PoolOk (pool : Pool) : Prop where
  fullCount : pool.fullCount = pool.fullList.length
  freeCount : pool.freeCount = pool.freeList.length
  fullNodup : pool.fullList.Nodup
  freeNodup : pool.freeList.Nodup
  freeFull : ∀ co ∈ pool.freeList, co ∈ pool.fullList
  /-- A coroutine waits on the free list exactly when it has exited. -/
  freeExited : ∀ co ∈ pool.fullList,
    co ∈ pool.freeList ↔ (pool.fiberSched.fibers co).status = fiberStatusExited
  bounded : pool.fullCount ≤ max pool.limitMax 0

/-- The pool after the head of the free list has been handed out. -/
def Pool.reused (pool : Pool) (co : Ptr) (rest : List Ptr) (fiberProc param : Ptr) : Pool :=
  { pool with
    freeCount := pool.freeCount - 1
    freeList := rest
    fiberSched := efFiberInit pool.fiberSched co fiberProc param }

/-- The pool after a coroutine on new memory has been handed out. -/
def Pool.added (pool : Pool) (co fiberProc param : Ptr) : Pool :=
  { pool with
    fiberSched := efFiberInit pool.fiberSched co fiberProc param
    coroutines := Function.update pool.coroutines co { pool.coroutines co with runCount := 0 }
    fullCount := pool.fullCount + 1
    fullList := co :: pool.fullList }

/-- What creation can do to a pool. -/
inductive Created (pool : Pool) (fiberProc param : Ptr) (mapped : Option Ptr) :
    Pool × Option Ptr → Prop
  | refused : pool.freeCount ≤ 0 → pool.limitMax ≤ pool.fullCount ∨ mapped = none →
      Created pool fiberProc param mapped (pool, none)
  | reused (co : Ptr) (rest : List Ptr) : pool.freeList = co :: rest →
      Created pool fiberProc param mapped (pool.reused co rest fiberProc param, some co)
  | added (co : Ptr) : mapped = some co → pool.freeCount ≤ 0 → pool.fullCount < pool.limitMax →
      Created pool fiberProc param mapped (pool.added co fiberProc param, some co)

/-- A deletion touches neither the scheduler nor the memory of the coroutines. -/
@[simp] theorem foldl_delete_fiberSched (gone : List Ptr) (pool : Pool) :
    (gone.foldl Pool.delete pool).fiberSched = pool.fiberSched := by
  -- The induction is on the coroutines that are deleted.
  induction gone generalizing pool with
  | nil => rfl
  | cons first rest ih => exact ih _

/-- The records of the coroutines are left as they are. -/
@[simp] theorem foldl_delete_coroutines (gone : List Ptr) (pool : Pool) :
    (gone.foldl Pool.delete pool).coroutines = pool.coroutines := by
  induction gone generalizing pool with
  | nil => rfl
  | cons first rest ih => exact ih _

/-- The limit is left as it is. -/
@[simp] theorem foldl_delete_limitMax (gone : List Ptr) (pool : Pool) :
    (gone.foldl Pool.delete pool).limitMax = pool.limitMax := by
  induction gone generalizing pool with
  | nil => rfl
  | cons first rest ih => exact ih _

/-- Deletions take the coroutines out of both lists, and count them off. -/
@[simp] theorem foldl_delete_fullList (gone : List Ptr) (pool : Pool) :
    (gone.foldl Pool.delete pool).fullList = pool.fullList.diff gone := by
  -- Each deletion erases one address from the list.
  induction gone generalizing pool with
  | nil => rfl
  | cons first rest ih => exact (ih _).trans (List.diff_cons _ _ _).symm

/-- The idle ones are taken out of their list in the same way. -/
@[simp] theorem foldl_delete_freeList (gone : List Ptr) (pool : Pool) :
    (gone.foldl Pool.delete pool).freeList = pool.freeList.diff gone := by
  induction gone generalizing pool with
  | nil => rfl
  | cons first rest ih => exact (ih _).trans (List.diff_cons _ _ _).symm

/-- Each deletion counts one coroutine off, whether or not it was in the list. -/
@[simp] theorem foldl_delete_fullCount (gone : List Ptr) (pool : Pool) :
    (gone.foldl Pool.delete pool).fullCount = pool.fullCount - gone.length := by
  induction gone generalizing pool with
  | nil => exact (Int.sub_zero _).symm
  | cons first rest ih =>
    have counted : (pool.delete first).fullCount = pool.fullCount - 1 := rfl
    rw [List.foldl_cons, ih, counted, List.length_cons]
    omega

/-- The loop of a shrink deletes the first coroutines that are idle long enough, up to its limit. -/
theorem shrinkLoop_eq (idleMillisecs : Int) (tv : TimeVal) (todo : List Ptr) (maxCount : Nat)
    (pool : Pool) (freed : Int) :
    shrinkLoop idleMillisecs tv todo maxCount pool freed =
      let gone := (todo.take maxCount).takeWhile fun co =>
        IdleEnough tv (pool.coroutines co).lastRunTime idleMillisecs
      (gone.foldl Pool.delete pool, freed + gone.length) := by
  -- Deleting a coroutine changes no time of another, so the test may read the first pool.
  induction todo generalizing maxCount pool freed with
  | nil => simp [shrinkLoop]
  | cons co before ih =>
    cases maxCount with
    | zero => simp [shrinkLoop]
    | succ maxCount =>
      simp only [shrinkLoop, List.take_succ_cons, List.takeWhile_cons]
      split
      · rename_i idle
        simp only [idle, decide_true, if_true, ih, List.foldl_cons, List.length_cons]
        have sum : ∀ n : Nat, freed + 1 + (n : Int) = freed + ((n + 1 : Nat) : Int) := by omega
        exact Prod.ext rfl (sum _)
      · rename_i idle
        simp [idle]

/-- A well-formed pool on a scheduler whose chain consists of coroutines of the pool. -/
structure PoolInv (pool : Pool) (chain : List Ptr) : Prop extends PoolOk pool where
  sched : SchedInv pool.fiberSched chain
  chainFull : ∀ co ∈ chain, co ≠ pool.fiberSched.threadFiber → co ∈ pool.fullList
  threadAway : pool.fiberSched.threadFiber ∉ pool.fullList
  statuses : ∀ co ∈ pool.fullList, (pool.fiberSched.fibers co).status = fiberStatusInited ∨
    (pool.fiberSched.fibers co).status = fiberStatusExited

namespace PoolInv

variable {pool : Pool} {chain : List Ptr}

/-- A free list as long as the list of all coroutines holds every one of them. -/
theorem everyone_free (inv : PoolInv pool chain) (allFree : pool.freeCount = pool.fullCount) :
    pool.freeList.Perm pool.fullList := by
  -- Two lists without repetition, of the same length, one inside the other.
  have fullCount := inv.fullCount
  have freeCount := inv.freeCount
  exact (List.subperm_of_subset inv.freeNodup inv.freeFull).perm_of_length_le (by omega)

/-- A coroutine on the free list is on no chain. -/
theorem free_off_chain (inv : PoolInv pool chain) {co : Ptr} (free : co ∈ pool.freeList) :
    co ∉ chain := by
  -- A free coroutine has exited.
  intro member
  have full := inv.freeFull co free
  have exited := (inv.freeExited co full).mp free
  have mapped : co ≠ pool.fiberSched.threadFiber := fun same => inv.threadAway (same ▸ full)
  -- Whoever is on the chain besides the system thread is initialised.
  rw [inv.sched.linked.status_inited member mapped] at exited
  exact absurd exited (by decide)

/-- A coroutine of the pool that is not free is initialised. -/
theorem inited_of_not_free (inv : PoolInv pool chain) {co : Ptr} (full : co ∈ pool.fullList)
    (busy : co ∉ pool.freeList) : (pool.fiberSched.fibers co).status = fiberStatusInited := by
  -- The pool knows no third status.
  rcases inv.statuses co full with inited | exited
  · exact inited
  · exact absurd ((inv.freeExited co full).mpr exited) busy

/-- The running coroutine belongs to the pool and is not free. -/
theorem current_busy (inv : PoolInv pool chain)
    (nested : pool.fiberSched.currentFiber ≠ pool.fiberSched.threadFiber) :
    pool.fiberSched.currentFiber ∈ pool.fullList ∧
      pool.fiberSched.currentFiber ∉ pool.freeList :=
  ⟨inv.chainFull _ inv.sched.current_mem nested,
    fun free => inv.free_off_chain free inv.sched.current_mem⟩

/-- A new pool is well formed. -/
theorem initial {threadFiber : Ptr} {memory : Ptr → Fiber} {coroutines : Ptr → Coroutine}
    {stackSize : Nat} {limitMin limitMax : Int}
    (unused : ∀ fiber, fiber ≠ threadFiber → (memory fiber).status ≠ fiberStatusInited) :
    PoolInv (efCoroutinePoolInit threadFiber memory coroutines stackSize limitMin limitMax)
      [threadFiber] where
  fullCount := rfl
  freeCount := rfl
  fullNodup := List.nodup_nil
  freeNodup := List.nodup_nil
  freeFull := by simp [efCoroutinePoolInit]
  freeExited := by simp [efCoroutinePoolInit]
  bounded := le_max_right _ _
  sched := .initial unused
  chainFull := by simp [efCoroutinePoolInit, efFiberInitSched]
  threadAway := by simp [efCoroutinePoolInit]
  statuses := by simp [efCoroutinePoolInit]

/-- Taking a coroutine from the free list and initialising it keeps the pool well formed. -/
theorem reused (inv : PoolInv pool chain) {co : Ptr} {rest : List Ptr}
    (shape : pool.freeList = co :: rest) (fiberProc param : Ptr) :
    PoolInv (pool.reused co rest fiberProc param) chain := by
  -- The coroutine has exited, so it is on no chain, and it is first on the free list only.
  have free : co ∈ pool.freeList := by simp [shape]
  have off := inv.free_off_chain free
  have count := inv.freeCount
  have nodup := inv.freeNodup
  have inside := inv.freeFull
  have exited := inv.freeExited
  simp only [shape, List.length_cons, List.mem_cons, forall_eq_or_imp] at count inside exited
  rw [shape, List.nodup_cons] at nodup
  refine ⟨⟨inv.fullCount, ?_, inv.fullNodup, nodup.2, inside.2, ?_, inv.bounded⟩,
    inv.sched.inited off _ _, inv.chainFull, inv.threadAway, ?_⟩
  · -- One entry and one count are gone.
    simp only [Pool.reused, count]
    omega
  · intro other full
    by_cases same : other = co
    · -- The coroutine handed out has left the free list and is initialised.
      subst same
      simp [Pool.reused, efFiberInit, Sched.modify_fibers, nodup.1, fiberStatusInited,
        fiberStatusExited]
    · simpa [Pool.reused, efFiberInit, Sched.modify_fibers, same] using exited other full
  · intro other full
    by_cases same : other = co
    · subst same
      simp [Pool.reused, efFiberInit, Sched.modify_fibers]
    · simpa [Pool.reused, efFiberInit, Sched.modify_fibers, same] using inv.statuses other full

/-- Adding a coroutine on newly mapped memory keeps the pool well formed. -/
theorem added (inv : PoolInv pool chain) {co : Ptr} (fresh : co ∉ pool.fullList)
    (mapped : co ≠ pool.fiberSched.threadFiber) (room : pool.fullCount < pool.limitMax)
    (fiberProc param : Ptr) : PoolInv (pool.added co fiberProc param) chain := by
  -- Memory that the pool does not know is neither on a chain nor free.
  have off : co ∉ chain := fun member => fresh (inv.chainFull co member mapped)
  have busy : co ∉ pool.freeList := fun free => fresh (inv.freeFull co free)
  refine
    ⟨⟨?_, inv.freeCount, List.nodup_cons.mpr ⟨fresh, inv.fullNodup⟩, inv.freeNodup, ?_, ?_, ?_⟩,
    inv.sched.inited off _ _, ?_, ?_, ?_⟩
  · simp [Pool.added, inv.fullCount]
  · exact fun other free => List.mem_cons_of_mem _ (inv.freeFull other free)
  · intro other full
    by_cases same : other = co
    · subst same
      -- The new coroutine is initialised, so it need not be free.
      simp [Pool.added, efFiberInit, Sched.modify_fibers, busy, fiberStatusInited,
        fiberStatusExited]
    · simp only [Pool.added, List.mem_cons, same, false_or] at full
      simpa [Pool.added, efFiberInit, Sched.modify_fibers, same] using inv.freeExited other full
  · -- There was room for one more.
    have bound := le_max_left pool.limitMax 0
    simp only [Pool.added]
    omega
  · exact fun other member away => List.mem_cons_of_mem _ (inv.chainFull other member away)
  · simp only [Pool.added, List.mem_cons, not_or]
    exact ⟨mapped.symm, inv.threadAway⟩
  · intro other full
    by_cases same : other = co
    · subst same
      simp [Pool.added, efFiberInit, Sched.modify_fibers]
    · simp only [Pool.added, List.mem_cons, same, false_or] at full
      simpa [Pool.added, efFiberInit, Sched.modify_fibers, same] using inv.statuses other full

/-- Deleting a coroutine of the free list keeps the pool well formed. -/
theorem deleted (inv : PoolInv pool chain) {co : Ptr} (free : co ∈ pool.freeList) :
    PoolInv (pool.delete co) chain := by
  -- The coroutine is in both lists exactly once, and on no chain.
  have full := inv.freeFull co free
  have off := inv.free_off_chain free
  have fullPos := List.length_pos_of_mem full
  have freePos := List.length_pos_of_mem free
  have bound := inv.bounded
  refine ⟨⟨?_, ?_, inv.fullNodup.erase _, inv.freeNodup.erase _, ?_, ?_, ?_⟩, inv.sched, ?_, ?_, ?_⟩
  · simp only [Pool.delete, inv.fullCount, List.length_erase_of_mem full]
    omega
  · simp only [Pool.delete, inv.freeCount, List.length_erase_of_mem free]
    omega
  · intro other member
    simp only [Pool.delete, inv.freeNodup.mem_erase_iff, inv.fullNodup.mem_erase_iff] at member ⊢
    exact ⟨member.1, inv.freeFull other member.2⟩
  · intro other member
    simp only [Pool.delete, inv.freeNodup.mem_erase_iff, inv.fullNodup.mem_erase_iff] at member ⊢
    simpa [member.1] using inv.freeExited other member.2
  · simp only [Pool.delete]
    omega
  · intro other member away
    -- Nobody on the chain is the one deleted.
    have apart : other ≠ co := fun same => off (same ▸ member)
    exact (List.mem_erase_of_ne apart).mpr (inv.chainFull other member away)
  · exact fun member => inv.threadAway (List.mem_of_mem_erase member)
  · exact fun other member => inv.statuses other (List.mem_of_mem_erase member)

/-- Deleting coroutines of the free list one by one keeps the pool well formed. -/
theorem deletedAll {gone : List Ptr} : ∀ {pool : Pool}, PoolInv pool chain → gone.Nodup →
    (∀ co ∈ gone, co ∈ pool.freeList) → PoolInv (gone.foldl Pool.delete pool) chain := by
  -- The coroutines still to be deleted stay on the free list, as they differ from the first.
  induction gone with
  | nil =>
    intro pool inv _ _
    exact inv
  | cons first rest ih =>
    intro pool inv nodup inside
    obtain ⟨apart, nodup⟩ := List.nodup_cons.mp nodup
    have still : ∀ co ∈ rest, co ∈ (pool.delete first).freeList := by
      intro co member
      have other : co ≠ first := fun same => apart (same ▸ member)
      exact (List.mem_erase_of_ne other).mpr (inside co (List.mem_cons_of_mem _ member))
    exact ih (inv.deleted (inside first List.mem_cons_self)) nodup still

/-- A shrink keeps the pool well formed, and what it deletes are coroutines of the free list. -/
theorem shrink (inv : PoolInv pool chain) (idleMillisecs maxCount : Int) (tv : TimeVal) :
    ∃ gone : List Ptr, (∀ co ∈ gone, co ∈ pool.freeList) ∧
      (efCoroutinePoolShrink pool idleMillisecs maxCount tv).1 = gone.foldl Pool.delete pool ∧
      PoolInv (gone.foldl Pool.delete pool) chain ∧
      ∀ co, (co ∈ (gone.foldl Pool.delete pool).fullList ↔ co ∈ pool.fullList ∧ co ∉ gone) ∧
        (co ∈ (gone.foldl Pool.delete pool).freeList ↔ co ∈ pool.freeList ∧ co ∉ gone) := by
  -- Both lists lose exactly those who have gone.
  have left : ∀ (gone : List Ptr) (co : Ptr),
      (co ∈ (gone.foldl Pool.delete pool).fullList ↔ co ∈ pool.fullList ∧ co ∉ gone) ∧
        (co ∈ (gone.foldl Pool.delete pool).freeList ↔ co ∈ pool.freeList ∧ co ∉ gone) := by
    intro gone co
    rw [foldl_delete_fullList, foldl_delete_freeList]
    exact ⟨inv.fullNodup.mem_sdiff_iff, inv.freeNodup.mem_sdiff_iff⟩
  unfold efCoroutinePoolShrink
  split
  · exact ⟨[], by simp, rfl, inv, left []⟩
  · simp only [shrinkLoop_eq]
    -- The loop takes its victims from the tail of the free list on.
    generalize victims : (List.takeWhile _ _) = gone
    have part : gone.Sublist pool.freeList.reverse :=
      victims ▸ (List.takeWhile_sublist _).trans (List.take_sublist _ _)
    have inside : ∀ co ∈ gone, co ∈ pool.freeList :=
      fun co member => List.mem_reverse.mp (part.subset member)
    exact ⟨gone, inside, rfl,
      inv.deletedAll (part.nodup (List.nodup_reverse.mpr inv.freeNodup)) inside, left gone⟩

/-- A resume of a suspended coroutine puts it on top of the chain and leaves the pool alone. -/
theorem resume_switched (inv : PoolInv pool chain) {co : Ptr} (full : co ∈ pool.fullList)
    (off : co ∉ chain) (busy : co ∉ pool.freeList) (toYield : Int) (call : Nat) (now : TimeVal) :
    efCoroutineResume pool co toYield call now =
        some { pool with fiberSched := pool.fiberSched.entered co call } ∧
      PoolInv { pool with fiberSched := pool.fiberSched.entered co call } (co :: chain) := by
  -- A coroutine that is not free waits at its entry or inside a yield.
  have inited := inv.inited_of_not_free full busy
  have statuses : ∀ fiber, ((pool.fiberSched.entered co call).fibers fiber).status =
      (pool.fiberSched.fibers fiber).status := by
    intro fiber
    simp only [Sched.entered, Sched.modify_fibers]
    split <;> split <;> simp_all
  obtain ⟨point, _, resumable, switched⟩ := efFiberResume_switched inv.sched inited off toYield call
  constructor
  · rw [efCoroutineResume, switched]
    -- The target waits at its entry or in a yield, where no code of the pool follows.
    cases point with
    | entry => rfl
    | resuming => exact resumable.elim
    | yielding => rfl
  · refine ⟨⟨inv.fullCount, inv.freeCount, inv.fullNodup, inv.freeNodup, inv.freeFull, ?_,
      inv.bounded⟩, inv.sched.entered inited off call, ?_, inv.threadAway, ?_⟩
    · intro other member
      simpa only [statuses] using inv.freeExited other member
    · intro other member away
      -- The chain has one member more, which belongs to the pool.
      rcases List.mem_cons.mp member with rfl | member
      · exact full
      · exact inv.chainFull other member away
    · intro other member
      simpa only [statuses] using inv.statuses other member

/-- A resume of an exited coroutine changes nothing. -/
theorem resume_exited {co : Ptr} (exited : (pool.fiberSched.fibers co).status = fiberStatusExited)
    (toYield : Int) (call : Nat) (now : TimeVal) :
    efCoroutineResume pool co toYield call now = some pool := by
  -- The scheduler refuses a fiber that is not initialised.
  have unusable : (pool.fiberSched.fibers co).status ≠ fiberStatusInited := by
    rw [exited]
    decide
  rw [efCoroutineResume, efFiberResume_returned unusable]
  rfl

/-- A yield takes the running coroutine off the chain and leaves the pool alone. -/
theorem yield_switched (inv : PoolInv pool chain)
    (nested : pool.fiberSched.currentFiber ≠ pool.fiberSched.threadFiber) (sndval : Int)
    (call : Nat) (now : TimeVal) :
    pool.yield sndval call now = some { pool with fiberSched := pool.fiberSched.left call } ∧
      PoolInv { pool with fiberSched := pool.fiberSched.left call } chain.tail := by
  -- The coroutine that resumed this one is next on the chain.
  obtain ⟨parent, rest, waits, shape, up, saved, switched⟩ :=
    efFiberYield_switched inv.sched nested sndval call
  have statuses : ∀ fiber, ((pool.fiberSched.left call).fibers fiber).status =
      (pool.fiberSched.fibers fiber).status := by
    intro fiber
    simp only [Sched.left, Sched.modify_fibers]
    split <;> simp_all
  have inited := inv.sched.linked.status_inited inv.sched.current_mem nested
  subst shape
  constructor
  · rw [Pool.yield, switched]
    -- The yielding coroutine has not exited, so its resume adds nothing to the free list.
    simp [Pool.arrive, efCoroutineResumed, statuses, inited, fiberStatusInited, fiberStatusExited]
  · refine ⟨⟨inv.fullCount, inv.freeCount, inv.fullNodup, inv.freeNodup, inv.freeFull, ?_,
      inv.bounded⟩, inv.sched.left up call, ?_, inv.threadAway, ?_⟩
    · intro other member
      simpa only [statuses] using inv.freeExited other member
    · exact fun other member away => inv.chainFull other (List.mem_cons_of_mem _ member) away
    · intro other member
      simpa only [statuses] using inv.statuses other member

/-- An exit takes the running coroutine off the chain and puts it on the free list. -/
theorem exit_switched (inv : PoolInv pool chain)
    (nested : pool.fiberSched.currentFiber ≠ pool.fiberSched.threadFiber) (retval : Int)
    (now : TimeVal) :
    pool.exit retval now =
      some (efCoroutineResumed { pool with fiberSched := pool.fiberSched.ended }
        pool.fiberSched.currentFiber now) ∧
      PoolInv (efCoroutineResumed { pool with fiberSched := pool.fiberSched.ended }
        pool.fiberSched.currentFiber now) chain.tail := by
  -- The coroutine that resumed this one is next on the chain.
  obtain ⟨parent, rest, waits, shape, up, saved, switched⟩ :=
    efFiberExit_switched inv.sched nested retval
  obtain ⟨full, busy⟩ := inv.current_busy nested
  have statuses : ∀ fiber, (pool.fiberSched.ended.fibers fiber).status =
      if fiber = pool.fiberSched.currentFiber then fiberStatusExited
      else (pool.fiberSched.fibers fiber).status := by
    intro fiber
    simp only [Sched.ended, Sched.modify_fibers]
    split <;> simp_all
  subst shape
  constructor
  · rw [Pool.exit, switched]
    rfl
  · rw [efCoroutineResumed, if_pos (by simp [statuses])]
    refine ⟨⟨inv.fullCount, ?_, inv.fullNodup, List.nodup_cons.mpr ⟨busy, inv.freeNodup⟩, ?_, ?_,
      inv.bounded⟩, inv.sched.ended up, ?_, inv.threadAway, ?_⟩
    · simp [inv.freeCount]
    · intro other member
      rcases List.mem_cons.mp member with rfl | member
      · exact full
      · exact inv.freeFull other member
    · intro other member
      by_cases same : other = pool.fiberSched.currentFiber
      · simp [statuses, same]
      · simpa [statuses, same] using inv.freeExited other member
    · exact fun other member away => inv.chainFull other (List.mem_cons_of_mem _ member) away
    · intro other member
      by_cases same : other = pool.fiberSched.currentFiber
      · simp [statuses, same]
      · simpa [statuses, same] using inv.statuses other member

/-- Creation has one of three effects. -/
theorem created (inv : PoolInv pool chain) (fiberProc param : Ptr) (mapped : Option Ptr) :
    ∃ result, efCoroutineCreate pool fiberProc param mapped = some result ∧
      Created pool fiberProc param mapped result := by
  -- The cases are the branches of the function, with the free list tried first.
  unfold efCoroutineCreate
  split
  · have count := inv.freeCount
    cases shape : pool.freeList with
    | nil =>
      -- The counter is the length of the list, so it cannot promise an entry of an empty one.
      rw [shape] at count
      simp only [List.length_nil] at count
      omega
    | cons co rest => exact ⟨_, rfl, .reused co rest shape⟩
  · split
    · rename_i full
      exact ⟨_, rfl, .refused (by omega) (.inl full)⟩
    · cases mapped with
      | none => exact ⟨_, rfl, .refused (by omega) (.inr rfl)⟩
      | some co => exact ⟨_, rfl, .added co rfl (by omega) (by omega)⟩

/-- Each of the three effects is what creation really has. -/
theorem created_eq (inv : PoolInv pool chain) {fiberProc param : Ptr} {mapped : Option Ptr}
    {result : Pool × Option Ptr} (effect : Created pool fiberProc param mapped result) :
    efCoroutineCreate pool fiberProc param mapped = some result := by
  -- Each effect tells which of the branches was taken.
  unfold efCoroutineCreate
  cases effect with
  | refused empty why =>
    rw [if_neg (by omega)]
    split
    · rfl
    · rename_i room
      rw [why.resolve_left (by omega)]
  | reused co rest shape =>
    have count := inv.freeCount
    rw [shape, List.length_cons] at count
    rw [if_pos (by omega), shape]
    rfl
  | added co mapped empty room =>
    rw [if_neg (by omega), if_neg (by omega), mapped]
    rfl

/-- Creation keeps the pool well formed and hands out new memory or an exited coroutine. -/
theorem create (inv : PoolInv pool chain) {mapped : Option Ptr} (fresh : pool.Fresh mapped)
    {fiberProc param : Ptr} {after : Pool} {handed : Option Ptr}
    (effect : Created pool fiberProc param mapped (after, handed)) :
    PoolInv after chain ∧ ∀ co, handed = some co →
      co ∉ pool.fullList ∨ (pool.fiberSched.fibers co).status = fiberStatusExited := by
  -- The free list yields coroutines that have exited, and memory is new by assumption.
  cases effect with
  | refused => exact ⟨inv, by simp⟩
  | reused co rest shape =>
    refine ⟨inv.reused shape fiberProc param, ?_⟩
    intro other same
    obtain rfl := Option.some.inj same
    have free : co ∈ pool.freeList := by simp [shape]
    exact .inr ((inv.freeExited co (inv.freeFull co free)).mp free)
  | added co mapped empty room =>
    obtain ⟨new, apart⟩ := fresh co mapped
    refine ⟨inv.added new apart room fiberProc param, ?_⟩
    intro other same
    obtain rfl := Option.some.inj same
    exact .inl new

/-- Every permitted operation takes effect and keeps the pool well formed. -/
theorem step {r : PoolRun} {op : PoolOp} (inv : PoolInv r.pool chain)
    (allowed : PoolDiscipline r op) :
    ∃ after chain, poolStep r op = some ⟨after, r.number + 1⟩ ∧ PoolInv after chain := by
  -- The operations are taken one by one.
  cases op with
  | create fiberProc param mapped =>
    obtain ⟨⟨after, handed⟩, created, effect⟩ := inv.created fiberProc param mapped
    exact ⟨after, chain, by simp [poolStep, created], (inv.create allowed effect).1⟩
  | resume co toYield now =>
    obtain ⟨full, off⟩ := allowed
    rw [inv.sched.onChain_iff] at off
    by_cases free : co ∈ r.pool.freeList
    · -- A free coroutine has exited, and is not entered.
      have unchanged := resume_exited ((inv.freeExited co full).mp free) toYield r.number now
      exact ⟨r.pool, chain, by simp [poolStep, unchanged], inv⟩
    · obtain ⟨switched, kept⟩ := inv.resume_switched full off free toYield r.number now
      exact ⟨_, _, by simp [poolStep, switched], kept⟩
  | yield sndval now =>
    obtain ⟨switched, kept⟩ := inv.yield_switched allowed sndval r.number now
    exact ⟨_, _, by simp [poolStep, switched], kept⟩
  | exit retval now =>
    obtain ⟨switched, kept⟩ := inv.exit_switched allowed retval now
    exact ⟨_, _, by simp [poolStep, switched], kept⟩
  | shrink idleMillisecs maxCount now =>
    obtain ⟨gone, _, shrunk, kept, _⟩ := inv.shrink idleMillisecs maxCount now
    exact ⟨_, chain, rfl, shrunk ▸ kept⟩

end PoolInv

/-- A pool in use is well formed on some chain. -/
def PoolRunInv (r : PoolRun) : Prop := ∃ chain, PoolInv r.pool chain

/-- One permitted operation preserves the run invariant. -/
theorem PoolRunInv.step {r after : PoolRun} {op : PoolOp} (inv : PoolRunInv r)
    (allowed : PoolDiscipline r op) (stepped : poolStep r op = some after) : PoolRunInv after := by
  -- The operation has one result only.
  obtain ⟨chain, inv⟩ := inv
  obtain ⟨pool, chain', effect, kept⟩ := inv.step allowed
  rw [effect, Option.some.injEq] at stepped
  exact ⟨chain', stepped ▸ kept⟩

/--
The pool stays well formed over every run of its operations, nested in any way.

Resuming an exited coroutine changes nothing.
Creation never hands out a coroutine still in use, and a shrink deletes exited coroutines only.
The memory that coroutines are created on holds no usable fiber before the pool is set up.
-/
theorem pool_well_formed {threadFiber : Ptr} {memory : Ptr → Fiber}
    {coroutines : Ptr → Coroutine} {stackSize : Nat} {limitMin limitMax : Int}
    {ops : List PoolOp} {r : PoolRun}
    (unused : ∀ fiber, fiber ≠ threadFiber → (memory fiber).status ≠ fiberStatusInited)
    (run : Run poolStep PoolDiscipline
      ⟨efCoroutinePoolInit threadFiber memory coroutines stackSize limitMin limitMax, 0⟩ ops r) :
    PoolOk r.pool ∧
      (∀ co toYield call now, (r.pool.fiberSched.fibers co).status = fiberStatusExited →
        efCoroutineResume r.pool co toYield call now = some r.pool) ∧
      (∀ fiberProc param mapped, r.pool.Fresh mapped → ∃ after handed,
        efCoroutineCreate r.pool fiberProc param mapped = some (after, handed) ∧
          ∀ co, handed = some co → co ∉ r.pool.fullList ∨
            (r.pool.fiberSched.fibers co).status = fiberStatusExited) ∧
      (∀ idleMillisecs maxCount now, ∀ co ∈ r.pool.fullList,
        co ∉ (efCoroutinePoolShrink r.pool idleMillisecs maxCount now).1.fullList →
          (r.pool.fiberSched.fibers co).status = fiberStatusExited) ∧
      ∀ op, PoolDiscipline r op → ∃ after, poolStep r op = some after := by
  -- The invariant holds of the new pool, and every operation keeps it.
  have start : PoolRunInv
      ⟨efCoroutinePoolInit threadFiber memory coroutines stackSize limitMin limitMax, 0⟩ :=
    ⟨[threadFiber], .initial unused⟩
  obtain ⟨chain, inv⟩ := run.invariant start fun _ _ _ => PoolRunInv.step
  refine ⟨inv.toPoolOk, fun co toYield call now exited => PoolInv.resume_exited exited _ _ _,
    ?_, ?_, ?_⟩
  · intro fiberProc param mapped fresh
    obtain ⟨⟨after, handed⟩, created, effect⟩ := inv.created fiberProc param mapped
    exact ⟨after, handed, created, (inv.create fresh effect).2⟩
  · intro idleMillisecs maxCount now co full gone
    obtain ⟨victims, free, shrunk, _, left⟩ := inv.shrink idleMillisecs maxCount now
    -- Whoever is missing afterwards was a victim, and victims were free.
    rw [shrunk, (left co).1, not_and, not_not] at gone
    exact (inv.freeExited co full).mp (free co (gone full))
  · intro op allowed
    obtain ⟨after, _, effect, _⟩ := inv.step allowed
    exact ⟨_, effect⟩

/-- A coroutine at address 2 yields once, exits, is handed out again, exits, and is deleted. -/
theorem pool_well_formed_reuse :
    let memory : Ptr → Fiber := fun _ => ⟨0, 0, none⟩
    ∃ r, Run poolStep PoolDiscipline
        ⟨efCoroutinePoolInit 1 memory (fun _ => ⟨⟨0, 0⟩, 0⟩) 4096 0 4, 0⟩
        [.create 40 0 (some 2), .resume 2 7 ⟨5, 0⟩, .yield 9 ⟨5, 0⟩, .resume 2 5 ⟨6, 0⟩,
          .exit 3 ⟨6, 0⟩, .create 41 0 none, .resume 2 0 ⟨7, 0⟩, .exit 0 ⟨7, 0⟩,
          .shrink 0 (-1) ⟨8, 0⟩] r ∧
      r.pool.fullList = [] ∧ r.pool.runCount = 2 ∧ PoolOk r.pool := by
  intro memory
  -- At the thread's fiber, the chain holds nothing but this fiber.
  have off : ∀ {s : Sched}, s.currentFiber = 1 → s.threadFiber = 1 → ¬ OnChain s 2 := by
    intro s current thread reached
    have chained : IsChain s [1] := thread.symm
    have member := chained.mem_of_onChain (by simp [current]) reached
    simp at member
  have mapped : (2 : Ptr) ≠ 1 := by decide
  have run : Run poolStep PoolDiscipline
      ⟨efCoroutinePoolInit 1 memory (fun _ => ⟨⟨0, 0⟩, 0⟩) 4096 0 4, 0⟩
      [.create 40 0 (some 2), .resume 2 7 ⟨5, 0⟩, .yield 9 ⟨5, 0⟩, .resume 2 5 ⟨6, 0⟩,
        .exit 3 ⟨6, 0⟩, .create 41 0 none, .resume 2 0 ⟨7, 0⟩, .exit 0 ⟨7, 0⟩,
        .shrink 0 (-1) ⟨8, 0⟩] _ :=
    .cons (fun co same => by obtain rfl := Option.some.inj same; exact ⟨List.not_mem_nil, mapped⟩)
      rfl <|
    .cons ⟨by decide, off rfl rfl⟩ rfl <| .cons mapped rfl <|
    .cons ⟨by decide, off rfl rfl⟩ rfl <| .cons mapped rfl <|
    .cons (fun co same => by cases same) rfl <|
    .cons ⟨by decide, off rfl rfl⟩ rfl <| .cons mapped rfl <| .cons trivial rfl <| .start _
  exact ⟨_, run, rfl, rfl, (pool_well_formed (fun _ _ => by decide) run).1⟩

end SimpleSrv.Ef
