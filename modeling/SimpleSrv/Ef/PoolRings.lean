import SimpleSrv.Ef.CoroutineLaws
import SimpleSrv.Ef.ListEntry

/-! The two lists of a coroutine pool as rings of links, and the walk of a shrink over them. -/

namespace SimpleSrv.Ef

open Function Links

/-- The addresses of a pool's list heads, and where its coroutines have their list entries. -/
structure PoolLayout where
  fullList : Ptr
  freeList : Ptr
  /-- The offset of `full_entry` in `ef_coroutine_t`. -/
  fullEntry : Nat
  /-- The offset of `free_entry` in `ef_coroutine_t`. -/
  freeEntry : Nat
  /-- The two heads are different fields of the pool. -/
  apart : fullList ≠ freeList

/-- `CAST_PARENT_PTR`, given the offset of the field. -/
def castParentPtr (entry : Ptr) (offset : Nat) : Ptr := entry - offset

/-- What a shrink reads and writes of a pool, and the links of all list entries. -/
structure RingPool where
  links : ListHeap
  limitMin : Int
  fullCount : Int
  freeCount : Int
  coroutines : Ptr → Coroutine

/-- Take a coroutine off both lists of the pool. -/
def RingPool.delete (pool : RingPool) (layout : PoolLayout) (co : Ptr) : RingPool :=
  { pool with
    freeCount := pool.freeCount - 1
    fullCount := pool.fullCount - 1
    links := efListRemove (efListRemove pool.links (co + layout.freeEntry))
      (co + layout.fullEntry) }

/-- The loop of `ef_coroutine_pool_shrink`, which saves the entry before the one that it removes. -/
def shrinkWalk (layout : PoolLayout) (idleMillisecs : Int) (tv : TimeVal) :
    Nat → RingPool → Ptr → Int → RingPool × Int
  | 0, pool, _, freeCount => (pool, freeCount)
  | maxCount + 1, pool, listTail, freeCount =>
    if listTail = layout.freeList then (pool, freeCount)
    else
      let co := castParentPtr listTail layout.freeEntry
      let saved := efListEntryBefore pool.links listTail
      if IdleEnough tv (pool.coroutines co).lastRunTime idleMillisecs then
        shrinkWalk layout idleMillisecs tv maxCount (pool.delete layout co) saved (freeCount + 1)
      else (pool, freeCount)

/-- `ef_coroutine_pool_shrink` on the links themselves. -/
def shrinkRings (layout : PoolLayout) (pool : RingPool) (idleMillisecs maxCount : Int)
    (tv : TimeVal) : RingPool × Int :=
  if pool.freeCount ≤ 0 ∨ (maxCount > 0 ∧ pool.fullCount ≤ pool.limitMin) then (pool, 0)
  else
    let beyondMin := toInt (pool.fullCount - pool.limitMin)
    let maxCount := if maxCount > beyondMin then beyondMin else maxCount
    let maxCount := if maxCount < 0 then -maxCount else maxCount
    shrinkWalk layout idleMillisecs tv maxCount.toNat pool
      (efListEntryBefore pool.links layout.freeList) 0

/-- The lists of a pool, each coroutine standing for its entry there, beside any other lists. -/
def PoolLayout.shape (layout : PoolLayout) (others : Shape) (fullList freeList : List Ptr) :
    Shape :=
  update (update others layout.fullList (some (fullList.map (· + layout.fullEntry))))
    layout.freeList (some (freeList.map (· + layout.freeEntry)))

/-- The links are those of this pool's lists, and the other fields are the same. -/
structure RingPool.Represents (rings : RingPool) (layout : PoolLayout) (others : Shape)
    (pool : Pool) : Prop where
  lists : rings.links.Rings (layout.shape others pool.fullList pool.freeList)
  limitMin : rings.limitMin = pool.limitMin
  fullCount : rings.fullCount = pool.fullCount
  freeCount : rings.freeCount = pool.freeCount
  coroutines : rings.coroutines = pool.coroutines

namespace RingPool.Represents

variable {rings : RingPool} {layout : PoolLayout} {others : Shape} {pool : Pool} {co : Ptr}

/-- The free list of the pool, found from its head. -/
theorem free_list (fullList freeList : List Ptr) :
    layout.shape others fullList freeList layout.freeList =
      some (freeList.map (· + layout.freeEntry)) :=
  update_self ..

/-- The full list of the pool, found from its head. -/
theorem full_list (fullList freeList : List Ptr) :
    layout.shape others fullList freeList layout.fullList =
      some (fullList.map (· + layout.fullEntry)) := by
  rw [PoolLayout.shape, update_of_ne layout.apart, update_self]

/-- A coroutine is taken off both lists, through its two entries. -/
theorem delete (represents : rings.Represents layout others pool) (free : co ∈ pool.freeList)
    (full : co ∈ pool.fullList) :
    (rings.delete layout co).Represents layout others (pool.delete co) where
  lists := by
    have distinct : ∀ offset : Nat, Injective fun entry : Ptr => entry + offset := fun _ _ _ =>
      Nat.add_right_cancel
    have first := efListRemove_rings represents.lists (free_list _ _)
      (List.mem_map_of_mem free)
    -- The second entry is still in its list, which the first removal has not touched.
    have still : update (layout.shape others pool.fullList pool.freeList) layout.freeList
        (some ((pool.freeList.map (· + layout.freeEntry)).erase (co + layout.freeEntry)))
        layout.fullList = some (pool.fullList.map (· + layout.fullEntry)) := by
      rw [update_of_ne layout.apart, full_list]
    have second := efListRemove_rings first still (List.mem_map_of_mem full)
    rw [← List.map_erase (distinct layout.freeEntry), ← List.map_erase (distinct layout.fullEntry)]
      at second
    rw [PoolLayout.shape, update_idem, update_comm layout.apart.symm, update_idem] at second
    exact second
  limitMin := represents.limitMin
  fullCount := congrArg (· - 1) represents.fullCount
  freeCount := congrArg (· - 1) represents.freeCount
  coroutines := represents.coroutines

/-- The walk over the links deletes what the loop over the list deletes, from its end on. -/
theorem shrinkWalk_eq (idleMillisecs : Int) (tv : TimeVal) {maxCount : Nat} {freeCount : Int}
    (represents : rings.Represents layout others pool)
    (freeFull : ∀ co ∈ pool.freeList, co ∈ pool.fullList) (nodup : pool.freeList.Nodup) :
    (shrinkWalk layout idleMillisecs tv maxCount rings
        (efListEntryBefore rings.links layout.freeList) freeCount).1.Represents layout others
      (shrinkLoop idleMillisecs tv pool.freeList.reverse maxCount pool freeCount).1 ∧
    (shrinkWalk layout idleMillisecs tv maxCount rings
        (efListEntryBefore rings.links layout.freeList) freeCount).2 =
      (shrinkLoop idleMillisecs tv pool.freeList.reverse maxCount pool freeCount).2 := by
  -- Each round looks at the last entry, so the list is taken apart from its end.
  induction maxCount generalizing rings pool freeCount with
  | zero =>
    rw [shrinkWalk]
    cases pool.freeList.reverse <;> exact ⟨represents, rfl⟩
  | succ maxCount ih =>
    have ring := represents.lists.ring _ _ (free_list _ _)
    have tail := ring.prev_head
    rcases List.eq_nil_or_concat pool.freeList with none | ⟨before, co, some_⟩
    · have alone : efListEntryBefore rings.links layout.freeList = layout.freeList := by
        rw [none] at tail
        exact tail
      rw [shrinkWalk, if_pos alone, none]
      exact ⟨represents, rfl⟩
    · rw [List.concat_eq_append] at some_
      rw [some_, List.map_append, List.map_singleton] at ring tail
      rw [List.getLastD_concat] at tail
      have entry : efListEntryBefore rings.links layout.freeList = co + layout.freeEntry := tail
      have inside : co + layout.freeEntry ≠ layout.freeList := fun same =>
        ring.place (same ▸ .head _)
      have parent : castParentPtr (co + layout.freeEntry) layout.freeEntry = co :=
        Nat.add_sub_cancel ..
      rw [shrinkWalk, entry, if_neg inside, parent, some_, List.reverse_append,
        List.reverse_singleton, List.singleton_append, shrinkLoop, represents.coroutines]
      by_cases idle : IdleEnough tv (pool.coroutines co).lastRunTime idleMillisecs
      · rw [if_pos idle, if_pos idle]
        have free : co ∈ pool.freeList := by simp [some_]
        have deleted := represents.delete free (freeFull co free)
        have rest : (pool.delete co).freeList = before := by
          have fresh : co ∉ before := by
            rw [some_, List.nodup_append] at nodup
            exact fun early => nodup.2.2 co early co (.head _) rfl
          show pool.freeList.erase co = before
          rw [some_, List.erase_append_right _ fresh, List.erase_cons_head, List.append_nil]
        -- The saved entry is the last one of what is left.
        have saved : efListEntryBefore rings.links (co + layout.freeEntry) =
            efListEntryBefore (rings.delete layout co).links layout.freeList := by
          have left := (deleted.lists.ring _ _ (free_list _ _)).prev_head
          rw [rest] at left
          exact (entry_neighbours ring).2.trans left.symm
        have inFull : ∀ other ∈ (pool.delete co).freeList, other ∈ (pool.delete co).fullList := by
          intro other member
          have apart : other ≠ co := by
            rintro rfl
            exact nodup.not_mem_erase member
          have known := freeFull other (List.mem_of_mem_erase member)
          exact (List.mem_erase_of_ne apart).mpr known
        have next := @ih _ _ (freeCount + 1) deleted inFull (nodup.erase co)
        rw [rest, ← saved] at next
        exact next
      · rw [if_neg idle, if_neg idle]
        exact ⟨represents, rfl⟩

/-- A shrink on the links does to the pool what the shrink on its lists does. -/
theorem shrinkRings_eq (represents : rings.Represents layout others pool) (ok : PoolOk pool)
    (idleMillisecs maxCount : Int) (tv : TimeVal) :
    (shrinkRings layout rings idleMillisecs maxCount tv).1.Represents layout others
      (efCoroutinePoolShrink pool idleMillisecs maxCount tv).1 ∧
    (shrinkRings layout rings idleMillisecs maxCount tv).2 =
      (efCoroutinePoolShrink pool idleMillisecs maxCount tv).2 := by
  -- Both read the same counters, so they take the same of the two ways.
  unfold shrinkRings efCoroutinePoolShrink
  rw [represents.freeCount, represents.fullCount, represents.limitMin]
  split
  · exact ⟨represents, rfl⟩
  · exact represents.shrinkWalk_eq idleMillisecs tv ok.freeFull ok.freeNodup

end RingPool.Represents

end SimpleSrv.Ef
