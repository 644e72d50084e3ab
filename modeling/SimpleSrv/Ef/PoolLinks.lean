import SimpleSrv.Ef.PoolRings

/-! The coroutine pool on its links: every run on them does what it does to the lists. -/

namespace SimpleSrv.Ef

open Function Links

/-- The two entries of a coroutine are different fields of it. -/
structure PoolPlace extends PoolLayout where
  entriesApart : fullEntry ≠ freeEntry

/-- `ef_coroutine_pool_t` with the links of its lists in place of the lists. -/
structure LinkPool extends RingPool where
  fiberSched : Sched
  stackSize : Nat
  limitMax : Int
  runCount : Nat

namespace LinkPool

/-- `ef_coroutine_pool_init`, once the scheduler is initialised. -/
def init (place : PoolPlace) (links : ListHeap) (threadFiber : Ptr) (memory : Ptr → Fiber)
    (coroutines : Ptr → Coroutine) (stackSize : Nat) (limitMin limitMax : Int) : LinkPool where
  links := efListInit (efListInit links place.fullList) place.freeList
  limitMin := limitMin
  fullCount := 0
  freeCount := 0
  coroutines := coroutines
  fiberSched := efFiberInitSched threadFiber memory
  stackSize := stackSize
  limitMax := limitMax
  runCount := 0

/--
`ef_coroutine_create`, given what `ef_fiber_create` would answer.

There is no behaviour to describe when the counter promises an entry of an empty free list.
-/
def create (pool : LinkPool) (place : PoolPlace) (fiberProc param : Ptr) (mapped : Option Ptr) :
    Option (LinkPool × Option Ptr) :=
  if pool.freeCount > 0 then
    match efListRemoveAfter pool.links place.freeList with
    | (_, none) => none
    | (links, some entry) =>
      let co := castParentPtr entry place.freeEntry
      some ({ pool with
        freeCount := pool.freeCount - 1
        links := links
        fiberSched := efFiberInit pool.fiberSched co fiberProc param }, some co)
  else if pool.fullCount ≥ pool.limitMax then some (pool, none)
  else
    match mapped with
    | none => some (pool, none)
    | some co =>
      some ({ pool with
        fiberSched := efFiberInit pool.fiberSched co fiberProc param
        coroutines := update pool.coroutines co { pool.coroutines co with runCount := 0 }
        fullCount := pool.fullCount + 1
        links := efListInsertAfter pool.links place.fullList (co + place.fullEntry) }, some co)

/-- The end of `ef_coroutine_resume`, after its `ef_fiber_resume` has returned 0. -/
def resumed (pool : LinkPool) (place : PoolPlace) (co : Ptr) (now : TimeVal) : LinkPool :=
  if (pool.fiberSched.fibers co).status = fiberStatusExited then
    { pool with
      coroutines := update pool.coroutines co
        { runCount := (pool.coroutines co).runCount + 1, lastRunTime := now }
      links := efListInsertAfter pool.links place.freeList (co + place.freeEntry)
      freeCount := pool.freeCount + 1
      runCount := pool.runCount + 1 }
  else pool

/-- What the pool does at once when a switch of stacks arrives somewhere. -/
def arrive (pool : LinkPool) (place : PoolPlace) (s : Sched) (arrival : Arrival) (now : TimeVal) :
    LinkPool :=
  let pool := { pool with fiberSched := s }
  match arrival.point with
  | .resuming _ co => pool.resumed place co now
  | .entry _ _ | .yielding _ => pool

/-- `ef_coroutine_resume`, up to its return or to its switch of stacks. -/
def resume (pool : LinkPool) (place : PoolPlace) (co : Ptr) (toYield : Int) (call : Nat)
    (now : TimeVal) : Option LinkPool :=
  (efFiberResume pool.fiberSched co toYield call).map fun
    | .returned _ => pool
    | .switched s arrival => pool.arrive place s arrival now

/-- `ef_fiber_yield` of the running coroutine, with what the pool does where it arrives. -/
def yield (pool : LinkPool) (place : PoolPlace) (sndval : Int) (call : Nat) (now : TimeVal) :
    Option LinkPool :=
  (efFiberYield pool.fiberSched sndval call).map fun (s, arrival) => pool.arrive place s arrival now

/-- The exit of the running coroutine, with what the pool does where it arrives. -/
def exit (pool : LinkPool) (place : PoolPlace) (retval : Int) (now : TimeVal) : Option LinkPool :=
  (efFiberExit pool.fiberSched retval).map fun (s, arrival) => pool.arrive place s arrival now

/-- `ef_coroutine_pool_shrink`, with the time it reads and the number of coroutines it deletes. -/
def shrink (pool : LinkPool) (place : PoolPlace) (idleMillisecs maxCount : Int) (tv : TimeVal) :
    LinkPool × Int :=
  let shrunk := shrinkRings place.toPoolLayout pool.toRingPool idleMillisecs maxCount tv
  ({ pool with toRingPool := shrunk.1 }, shrunk.2)

end LinkPool

/-- A pool on links in use, with the number of operations made on it. -/
structure LinkRun where
  pool : LinkPool
  number : Nat

/-- One operation of the running code on the links of the pool. -/
def linkStep (place : PoolPlace) (r : LinkRun) : PoolOp → Option LinkRun
  | .create fiberProc param mapped =>
    (r.pool.create place fiberProc param mapped).map fun (pool, _) => ⟨pool, r.number + 1⟩
  | .resume co toYield now =>
    (r.pool.resume place co toYield r.number now).map fun pool => ⟨pool, r.number + 1⟩
  | .yield sndval now =>
    (r.pool.yield place sndval r.number now).map fun pool => ⟨pool, r.number + 1⟩
  | .exit retval now =>
    (r.pool.exit place retval now).map fun pool => ⟨pool, r.number + 1⟩
  | .shrink idleMillisecs maxCount now =>
    some ⟨(r.pool.shrink place idleMillisecs maxCount now).1, r.number + 1⟩

/-- The entries of a coroutine are on no other list, and are not the heads of the pool's own. -/
def PoolPlace.Outside (place : PoolPlace) (others : Shape) (co : Ptr) : Prop :=
  ∀ entry ∈ [co + place.fullEntry, co + place.freeEntry],
    OffRings others entry ∧ entry ≠ place.fullList ∧ entry ≠ place.freeList

/-- No entry of one of the two coroutines is an entry of the other one. -/
def PoolPlace.Apart (place : PoolPlace) (co other : Ptr) : Prop :=
  co + place.fullEntry ≠ other + place.freeEntry ∧ co + place.freeEntry ≠ other + place.fullEntry

/-- The coroutines of the pool do not overlap each other or anything else that is linked. -/
structure PoolPlace.Separate (place : PoolPlace) (others : Shape) (pool : Pool) : Prop where
  outside : ∀ co ∈ pool.fullList, place.Outside others co
  apart : ∀ co ∈ pool.fullList, ∀ other ∈ pool.fullList, place.Apart co other

/-- What the kernel and the callers owe the pool, where a mapping overlaps no list entry either. -/
def LinkDiscipline (place : PoolPlace) (others : Shape) (r : PoolRun) (op : PoolOp) : Prop :=
  PoolDiscipline r op ∧ ∀ fiberProc param co, op = .create fiberProc param (some co) →
    place.Outside others co ∧ ∀ other ∈ r.pool.fullList, place.Apart co other

/-- The links are those of the lists, and all other fields are the same. -/
structure LinkPool.Represents (links : LinkPool) (place : PoolPlace) (others : Shape)
    (pool : Pool) : Prop where
  rings : links.toRingPool.Represents place.toPoolLayout others pool
  fiberSched : links.fiberSched = pool.fiberSched
  stackSize : links.stackSize = pool.stackSize
  limitMax : links.limitMax = pool.limitMax
  runCount : links.runCount = pool.runCount

section Refinement

variable {place : PoolPlace} {others : Shape} {links : LinkPool} {pool : Pool} {co entry : Ptr}

/-- A node is on no list if it is on none of the others and not among those of the pool. -/
theorem offRings_shape {fullList freeList : List Ptr} (off : OffRings others entry)
    (full : entry ∉ place.fullList :: fullList.map (· + place.fullEntry))
    (free : entry ∉ place.freeList :: freeList.map (· + place.freeEntry)) :
    OffRings (place.shape others fullList freeList) entry := by
  -- The head of the list says whose it is.
  intro head entries here
  rw [PoolLayout.shape, update_apply] at here
  split at here
  · rename_i same
    obtain rfl := Option.some.inj here
    rwa [same]
  · rw [update_apply] at here
    split at here
    · rename_i same
      obtain rfl := Option.some.inj here
      rwa [same]
    · exact off head entries here

/-- The entry of a new coroutine in the full list is on no list yet. -/
theorem full_entry_off (outside : place.Outside others co)
    (apart : ∀ other ∈ pool.fullList, place.Apart co other) (fresh : co ∉ pool.fullList)
    (freeFull : ∀ co ∈ pool.freeList, co ∈ pool.fullList) :
    OffRings (place.shape others pool.fullList pool.freeList) (co + place.fullEntry) := by
  -- The coroutine is new, so its entry is neither a head nor the entry of a coroutine that the
  -- lists know; that entries of different lists do not overlap is a matter of the layout.
  obtain ⟨off, notFull, notFree⟩ := outside _ (.head _)
  apply offRings_shape off
  · simp only [List.mem_cons, notFull, false_or, List.mem_map, not_exists, not_and]
    intro other member same
    exact fresh (Nat.add_right_cancel same ▸ member)
  · simp only [List.mem_cons, notFree, false_or, List.mem_map, not_exists, not_and]
    intro other member same
    exact (apart other (freeFull other member)).1 same.symm

/-- The entry of a coroutine in the free list is on no list while the coroutine is in use. -/
theorem free_entry_off (separate : place.Separate others pool) (full : co ∈ pool.fullList)
    (busy : co ∉ pool.freeList) :
    OffRings (place.shape others pool.fullList pool.freeList) (co + place.freeEntry) := by
  -- A busy coroutine is only on the full list, through its other entry.
  obtain ⟨off, notFull, notFree⟩ := separate.outside co full _ (.tail _ (.head _))
  apply offRings_shape off
  · simp only [List.mem_cons, notFull, false_or, List.mem_map, not_exists, not_and]
    intro other member same
    exact (separate.apart co full other member).2 same.symm
  · simp only [List.mem_cons, notFree, false_or, List.mem_map, not_exists, not_and]
    intro other member same
    exact busy (Nat.add_right_cancel same ▸ member)

/-- A shrink changes nothing but the lists and their counters. -/
theorem shrink_keeps (pool : Pool) (idleMillisecs maxCount : Int) (tv : TimeVal) :
    let after := (efCoroutinePoolShrink pool idleMillisecs maxCount tv).1
    after.fiberSched = pool.fiberSched ∧ after.stackSize = pool.stackSize ∧
      after.limitMax = pool.limitMax ∧ after.runCount = pool.runCount := by
  -- `efCoroutinePoolShrink` deletes coroutine after coroutine, so this is an induction on those it
  -- deletes.
  have deletions : ∀ (gone : List Ptr) (pool : Pool),
      let after := gone.foldl Pool.delete pool
      after.fiberSched = pool.fiberSched ∧ after.stackSize = pool.stackSize ∧
        after.limitMax = pool.limitMax ∧ after.runCount = pool.runCount := by
    intro gone
    induction gone with
    | nil => exact fun _ => ⟨rfl, rfl, rfl, rfl⟩
    | cons co rest ih => exact fun pool => ih (pool.delete co)
  unfold efCoroutinePoolShrink
  split
  · exact ⟨rfl, rfl, rfl, rfl⟩
  · rw [shrinkLoop_eq]
    exact deletions _ pool

namespace LinkPool.Represents

/-- Creation on the links hands out what creation on the lists hands out. -/
theorem create (represents : links.Represents place others pool) (ok : PoolOk pool)
    {mapped : Option Ptr} (fresh : pool.Fresh mapped)
    (new : ∀ co, mapped = some co →
      place.Outside others co ∧ ∀ other ∈ pool.fullList, place.Apart co other)
    (fiberProc param : Ptr) :
    Option.Rel (fun a b => a.1.Represents place others b.1 ∧ a.2 = b.2)
      (links.create place fiberProc param mapped)
      (efCoroutineCreate pool fiberProc param mapped) := by
  -- Both sides read the same counters, so they take the same branch.
  have rings := represents.rings
  unfold LinkPool.create efCoroutineCreate
  rw [rings.freeCount, rings.fullCount, represents.limitMax]
  split
  · -- The free list is not empty, so its first entry is removed.
    rename_i some_
    cases shape : pool.freeList with
    | nil =>
      rw [ok.freeCount, shape] at some_
      simp at some_
    | cons co rest =>
      have here : place.toPoolLayout.shape others pool.fullList pool.freeList place.freeList =
          some (pool.freeList.map (· + place.freeEntry)) :=
        RingPool.Represents.free_list _ _
      have ring := rings.lists.ring _ _ here
      have removes := efListRemoveAfter_removes rings.lists here (.head _)
      have first : efListEntryAfter links.links place.freeList = co + place.freeEntry := by
        have next := ring.next_head
        rw [shape] at next
        exact next
      rw [shape, List.map_cons, first] at removes
      have filled : (co + place.freeEntry) :: rest.map (· + place.freeEntry) ≠ [] :=
        List.cons_ne_nil _ _
      have returned := removes.returned filled
      have inside : co + place.freeEntry ≠ place.freeList := by
        rw [shape, List.map_cons] at ring
        intro same
        exact (List.nodup_cons.mp ring.nodup).1 (same ▸ .head _)
      have shorter := removes.shorter filled inside
      rw [List.erase_cons_head] at shorter
      generalize efListRemoveAfter links.links place.freeList = result at returned shorter
      obtain ⟨heap, removed⟩ := result
      obtain rfl : removed = some (co + place.freeEntry) := returned
      have parent : castParentPtr (co + place.freeEntry) place.freeEntry = co :=
        Nat.add_sub_cancel ..
      simp only [parent]
      refine .some ⟨⟨⟨?_, rings.limitMin, rfl, rfl, rings.coroutines⟩, ?_, represents.stackSize,
        rfl, represents.runCount⟩, rfl⟩
      · have same : update (place.shape others pool.fullList (co :: rest)) place.freeList
            (some (rest.map (· + place.freeEntry))) = place.shape others pool.fullList rest :=
          update_idem ..
        exact same ▸ shorter
      · rw [represents.fiberSched]
  · split
    · exact .some ⟨represents, rfl⟩
    · cases mapped with
      | none => exact .some ⟨represents, rfl⟩
      | some co =>
        -- The new coroutine goes to the front of the full list, and the free list stays as it is.
        obtain ⟨outside, apart⟩ := new co rfl
        have off := full_entry_off outside apart (fresh co rfl).1 ok.freeFull
        have inserted := efListInsertAfter_rings rings.lists
          (RingPool.Represents.full_list pool.fullList pool.freeList) (.head _) off
        rw [placeAfter_head] at inserted
        refine .some ⟨⟨⟨?_, rings.limitMin, rfl, rfl, ?_⟩, ?_, represents.stackSize, rfl,
          represents.runCount⟩, rfl⟩
        · have same : update (place.shape others pool.fullList pool.freeList) place.fullList
              (some ((co + place.fullEntry) :: pool.fullList.map (· + place.fullEntry))) =
              place.shape others (co :: pool.fullList) pool.freeList := by
            rw [PoolLayout.shape, PoolLayout.shape, update_comm place.apart.symm, update_idem]
            rfl
          exact same ▸ inserted
        · rw [rings.coroutines]
        · rw [represents.fiberSched]

/-- The end of a resume on the links is its end on the lists. -/
theorem resumed (represents : links.Represents place others pool)
    (off : (pool.fiberSched.fibers co).status = fiberStatusExited →
      OffRings (place.shape others pool.fullList pool.freeList) (co + place.freeEntry))
    (now : TimeVal) :
    (links.resumed place co now).Represents place others (efCoroutineResumed pool co now) := by
  -- Only a fiber that has exited goes back, to the front of the free list.
  have rings := represents.rings
  unfold LinkPool.resumed efCoroutineResumed
  rw [represents.fiberSched]
  split
  · rename_i exited
    have inserted := efListInsertAfter_rings rings.lists
      (RingPool.Represents.free_list pool.fullList pool.freeList) (.head _) (off exited)
    rw [placeAfter_head] at inserted
    refine ⟨⟨?_, rings.limitMin, rings.fullCount, ?_, ?_⟩, rfl, represents.stackSize,
      represents.limitMax, ?_⟩
    · have same : update (place.shape others pool.fullList pool.freeList) place.freeList
          (some ((co + place.freeEntry) :: pool.freeList.map (· + place.freeEntry))) =
          place.shape others pool.fullList (co :: pool.freeList) := update_idem ..
      exact same ▸ inserted
    · exact congrArg (· + 1) rings.freeCount
    · rw [rings.coroutines]
    · exact congrArg (· + 1) represents.runCount
  · exact represents

/-- Wherever a switch of stacks arrives, the links follow the lists. -/
theorem arrive (represents : links.Represents place others pool)
    (separate : place.Separate others pool) {s : Sched} {arrival : Arrival} {now : TimeVal}
    (after : PoolOk (pool.arrive s arrival now)) :
    (links.arrive place s arrival now).Represents place others (pool.arrive s arrival now) := by
  -- What is done behind the switch depends on where the stack was left: only `ef_coroutine_resume`
  -- goes on to look at the fiber's status.
  have rings := represents.rings
  have moved : ({ links with fiberSched := s } : LinkPool).Represents place others
      { pool with fiberSched := s } :=
    ⟨⟨rings.lists, rings.limitMin, rings.fullCount, rings.freeCount, rings.coroutines⟩, rfl,
      represents.stackSize, represents.limitMax, represents.runCount⟩
  unfold LinkPool.arrive
  unfold Pool.arrive at after ⊢
  cases point : arrival.point with
  | entry proc param => exact moved
  | yielding call => exact moved
  | resuming call co =>
    rw [point] at after
    apply moved.resumed
    intro exited
    -- The pool is well formed behind the step, so the coroutine was not free before it.
    have pushed : (efCoroutineResumed { pool with fiberSched := s } co now).freeList =
        co :: pool.freeList := by
      rw [efCoroutineResumed, if_pos exited]
    have kept : (efCoroutineResumed { pool with fiberSched := s } co now).fullList =
        pool.fullList := by
      rw [efCoroutineResumed, if_pos exited]
    have nodup := after.freeNodup
    have full := after.freeFull co
    simp only [pushed, kept] at nodup full
    have off := free_entry_off separate (full (.head _)) (List.nodup_cons.mp nodup).1
    exact off

/-- A shrink on the links is a shrink on the lists. -/
theorem shrink (represents : links.Represents place others pool) (ok : PoolOk pool)
    (idleMillisecs maxCount : Int) (tv : TimeVal) :
    (links.shrink place idleMillisecs maxCount tv).1.Represents place others
      (efCoroutinePoolShrink pool idleMillisecs maxCount tv).1 ∧
    (links.shrink place idleMillisecs maxCount tv).2 =
      (efCoroutinePoolShrink pool idleMillisecs maxCount tv).2 := by
  obtain ⟨rings, count⟩ := represents.rings.shrinkRings_eq ok idleMillisecs maxCount tv
  obtain ⟨fiberSched, stackSize, limitMax, runCount⟩ := shrink_keeps pool idleMillisecs maxCount tv
  exact ⟨⟨rings, represents.fiberSched.trans fiberSched.symm,
    represents.stackSize.trans stackSize.symm, represents.limitMax.trans limitMax.symm,
    represents.runCount.trans runCount.symm⟩, count⟩

end LinkPool.Represents

/-- A switch of stacks adds no coroutine to the pool. -/
theorem arrive_fullList (pool : Pool) (s : Sched) (arrival : Arrival) (now : TimeVal) :
    (pool.arrive s arrival now).fullList = pool.fullList := by
  -- A coroutine that has exited goes to the free list, and stays in the full one.
  unfold Pool.arrive
  cases arrival.point with
  | entry => rfl
  | yielding => rfl
  | resuming call co =>
    simp only [efCoroutineResumed]
    split <;> rfl

/-- Only creation on new memory adds a coroutine to the pool. -/
theorem fullList_step {r after : PoolRun} {op : PoolOp} (stepped : poolStep r op = some after)
    (full : co ∈ after.pool.fullList) :
    co ∈ r.pool.fullList ∨ ∃ fiberProc param, op = .create fiberProc param (some co) := by
  -- The other steps move coroutines between the lists, or delete some.
  cases op with
  | create fiberProc param mapped =>
    obtain ⟨⟨pool, handed⟩, created, rfl⟩ := Option.map_eq_some_iff.mp stepped
    simp only [efCoroutineCreate] at created
    split at created
    · split at created
      · cases created
      · obtain ⟨rfl, _⟩ := Prod.mk.inj (Option.some.inj created)
        exact .inl full
    · split at created
      · obtain ⟨rfl, _⟩ := Prod.mk.inj (Option.some.inj created)
        exact .inl full
      · cases mapped with
        | none =>
          obtain ⟨rfl, _⟩ := Prod.mk.inj (Option.some.inj created)
          exact .inl full
        | some new =>
          obtain ⟨rfl, _⟩ := Prod.mk.inj (Option.some.inj created)
          rcases List.mem_cons.mp full with rfl | old
          · exact .inr ⟨fiberProc, param, rfl⟩
          · exact .inl old
  | resume target toYield now =>
    obtain ⟨pool, resumed, rfl⟩ := Option.map_eq_some_iff.mp stepped
    obtain ⟨outcome, _, rfl⟩ := Option.map_eq_some_iff.mp resumed
    cases outcome with
    | returned => exact .inl full
    | switched s arrival => exact .inl (arrive_fullList .. ▸ full)
  | yield sndval now =>
    obtain ⟨pool, yielded, rfl⟩ := Option.map_eq_some_iff.mp stepped
    obtain ⟨⟨s, arrival⟩, _, rfl⟩ := Option.map_eq_some_iff.mp yielded
    exact .inl (arrive_fullList .. ▸ full)
  | exit retval now =>
    obtain ⟨pool, exited, rfl⟩ := Option.map_eq_some_iff.mp stepped
    obtain ⟨⟨s, arrival⟩, _, rfl⟩ := Option.map_eq_some_iff.mp exited
    exact .inl (arrive_fullList .. ▸ full)
  | shrink idleMillisecs maxCount now =>
    obtain rfl := Option.some.inj stepped
    simp only [efCoroutinePoolShrink] at full
    split at full
    · exact .inl full
    · rw [shrinkLoop_eq] at full
      simp only [foldl_delete_fullList] at full
      exact .inl (List.diff_subset _ _ full)

/-- Coroutines on mappings that overlap nothing stay apart. -/
theorem PoolPlace.Separate.step {r after : PoolRun} {op : PoolOp}
    (separate : place.Separate others r.pool) (owed : LinkDiscipline place others r op)
    (stepped : poolStep r op = some after) : place.Separate others after.pool where
  outside := fun co full => by
    rcases fullList_step stepped full with old | ⟨fiberProc, param, rfl⟩
    · exact separate.outside co old
    · exact (owed.2 fiberProc param co rfl).1
  apart := fun co full other also => by
    have sym : ∀ {a b : Ptr}, place.Apart a b → place.Apart b a := fun apart =>
      ⟨Ne.symm apart.2, Ne.symm apart.1⟩
    rcases fullList_step stepped full with old | ⟨fiberProc, param, rfl⟩
    · rcases fullList_step stepped also with old' | ⟨fiberProc, param, rfl⟩
      · exact separate.apart co old other old'
      · exact sym ((owed.2 fiberProc param other rfl).2 co old)
    · rcases fullList_step stepped also with old' | ⟨_, _, same⟩
      · exact (owed.2 fiberProc param co rfl).2 other old'
      · -- Both are the new one, whose own two entries are apart.
        obtain ⟨_, _, same⟩ := PoolOp.create.inj same
        obtain rfl := Option.some.inj same
        exact ⟨fun same => place.entriesApart (Nat.add_left_cancel same),
          fun same => place.entriesApart (Nat.add_left_cancel same).symm⟩

/-- The links and the lists of a pool in use, as they are at the same moment. -/
structure Follows (place : PoolPlace) (others : Shape) (r : PoolRun) (linked : LinkRun) : Prop where
  inv : PoolRunInv r
  separate : place.Separate others r.pool
  represents : linked.pool.Represents place others r.pool
  number : linked.number = r.number

/-- Whatever the lists do, the links do. -/
theorem Follows.step {r after : PoolRun} {linked : LinkRun} {op : PoolOp}
    (follows : Follows place others r linked) (owed : LinkDiscipline place others r op)
    (stepped : poolStep r op = some after) :
    ∃ next, linkStep place linked op = some next ∧ Follows place others after next := by
  -- Both sides share the scheduler, so every switch lands at the same place; what differs are the
  -- lists.
  have kept := follows.inv.step owed.1 stepped
  have apart := follows.separate.step owed stepped
  have represents := follows.represents
  obtain ⟨_, ok⟩ := follows.inv
  obtain ⟨_, okAfter⟩ := id kept
  have number := follows.number
  -- It is enough to find the links that represent the pool afterwards.
  suffices found : ∃ pool, linkStep place linked op = some ⟨pool, linked.number + 1⟩ ∧
      pool.Represents place others after.pool ∧ after.number = r.number + 1 by
    obtain ⟨pool, followed, represented, counted⟩ := found
    exact ⟨_, followed, kept, apart, represented, by simp [number, counted]⟩
  cases op with
  | create fiberProc param mapped =>
    obtain ⟨⟨pool, handed⟩, created, rfl⟩ := Option.map_eq_some_iff.mp stepped
    have related := represents.create ok.toPoolOk owed.1 (fun co same => by
      obtain rfl := same
      exact owed.2 fiberProc param co rfl) fiberProc param
    rw [created] at related
    cases created' : linked.pool.create place fiberProc param mapped with
    | none => rw [created'] at related; cases related
    | some result =>
      rw [created'] at related
      cases related with
      | some related =>
        exact ⟨result.1, by simp [linkStep, created'], related.1, rfl⟩
  | resume co toYield now =>
    obtain ⟨pool, resumed, rfl⟩ := Option.map_eq_some_iff.mp stepped
    obtain ⟨outcome, answered, rfl⟩ := Option.map_eq_some_iff.mp resumed
    simp only [linkStep, LinkPool.resume, represents.fiberSched, number, answered, Option.map_some]
    cases outcome with
    | returned code => exact ⟨_, rfl, represents, trivial⟩
    | switched s arrival =>
      exact ⟨_, rfl, represents.arrive follows.separate okAfter.toPoolOk, trivial⟩
  | yield sndval now =>
    obtain ⟨pool, yielded, rfl⟩ := Option.map_eq_some_iff.mp stepped
    obtain ⟨⟨s, arrival⟩, switched, rfl⟩ := Option.map_eq_some_iff.mp yielded
    simp only [linkStep, LinkPool.yield, represents.fiberSched, number, switched, Option.map_some]
    exact ⟨_, rfl, represents.arrive follows.separate okAfter.toPoolOk, trivial⟩
  | exit retval now =>
    obtain ⟨pool, exited, rfl⟩ := Option.map_eq_some_iff.mp stepped
    obtain ⟨⟨s, arrival⟩, switched, rfl⟩ := Option.map_eq_some_iff.mp exited
    simp only [linkStep, LinkPool.exit, represents.fiberSched, switched, Option.map_some]
    exact ⟨_, rfl, represents.arrive follows.separate okAfter.toPoolOk, trivial⟩
  | shrink idleMillisecs maxCount now =>
    obtain rfl := Option.some.inj stepped
    exact ⟨_, rfl, (represents.shrink ok.toPoolOk idleMillisecs maxCount now).1, rfl⟩

/-- A new pool has two empty lists beside those that were there. -/
theorem init_represents {heap : ListHeap} (rings : heap.Rings others)
    (full : OffRings others place.fullList) (free : OffRings others place.freeList)
    (threadFiber : Ptr) (memory : Ptr → Fiber) (coroutines : Ptr → Coroutine) (stackSize : Nat)
    (limitMin limitMax : Int) :
    (LinkPool.init place heap threadFiber memory coroutines stackSize limitMin
      limitMax).Represents place others
      (efCoroutinePoolInit threadFiber memory coroutines stackSize limitMin limitMax) where
  rings := by
    -- `ef_coroutine_pool_init` makes the two heads point to themselves, one after the other.
    have first := efListInit_rings rings full
    have off : OffRings (update others place.fullList (some [])) place.freeList := by
      intro head entries here
      rw [update_apply] at here
      split at here
      · rename_i same
        obtain rfl := Option.some.inj here
        rw [same]
        simpa using place.apart.symm
      · exact free head entries here
    exact ⟨efListInit_rings first off, rfl, rfl, rfl, rfl⟩
  fiberSched := rfl
  stackSize := rfl
  limitMax := rfl
  runCount := rfl

/-- The links give the same answers as the lists. -/
structure SameAnswers (place : PoolPlace) (others : Shape) (r : PoolRun) (linked : LinkRun) :
    Prop where
  represents : linked.pool.Represents place others r.pool
  create : ∀ fiberProc param mapped,
    LinkDiscipline place others r (.create fiberProc param mapped) →
      (linked.pool.create place fiberProc param mapped).map Prod.snd =
        (efCoroutineCreate r.pool fiberProc param mapped).map Prod.snd
  shrink : ∀ idleMillisecs maxCount tv,
    (linked.pool.shrink place idleMillisecs maxCount tv).2 =
      (efCoroutinePoolShrink r.pool idleMillisecs maxCount tv).2
  /-- The list is empty exactly when the counter says so. -/
  empty : efListEmpty linked.pool.links place.freeList ↔ linked.pool.freeCount = 0

/-- Links that follow the lists give their answers. -/
theorem Follows.sameAnswers {r : PoolRun} {linked : LinkRun}
    (follows : Follows place others r linked) : SameAnswers place others r linked where
  represents := follows.represents
  create := fun fiberProc param mapped owed => by
    obtain ⟨_, ok⟩ := follows.inv
    have related := follows.represents.create ok.toPoolOk owed.1 (fun co same => by
      obtain rfl := same
      exact owed.2 fiberProc param co rfl) fiberProc param
    -- Only what is handed out is compared here.
    generalize linked.pool.create place fiberProc param mapped = own at related
    generalize efCoroutineCreate r.pool fiberProc param mapped = result at related
    cases related with
    | none => rfl
    | some related => exact congrArg some related.2
  shrink := fun idleMillisecs maxCount tv => by
    obtain ⟨_, ok⟩ := follows.inv
    exact (follows.represents.shrink ok.toPoolOk idleMillisecs maxCount tv).2
  empty := by
    obtain ⟨_, ok⟩ := follows.inv
    have rings := follows.represents.rings
    have ring := rings.lists.ring _ _
      (RingPool.Represents.free_list r.pool.fullList r.pool.freeList)
    have count := ok.freeCount
    rw [efListEmpty_iff ring (.head _), rings.freeCount, count, List.map_eq_nil_iff]
    simp

/--
The pool on its intrusive lists can do whatever the pool on sequences can do, and with the same
answers: over every run, nested in any way, its two lists stay rings, and no other list is touched.
-/
theorem pool_links_refine {heap : ListHeap} {threadFiber : Ptr} {memory : Ptr → Fiber}
    {coroutines : Ptr → Coroutine} {stackSize : Nat} {limitMin limitMax : Int} {ops : List PoolOp}
    {r : PoolRun} (rings : heap.Rings others) (full : OffRings others place.fullList)
    (free : OffRings others place.freeList)
    (unused : ∀ fiber, fiber ≠ threadFiber → (memory fiber).status ≠ fiberStatusInited)
    (run : Run poolStep (LinkDiscipline place others)
      ⟨efCoroutinePoolInit threadFiber memory coroutines stackSize limitMin limitMax, 0⟩ ops r) :
    ∃ linked, Run (linkStep place) (fun _ _ => True)
        ⟨LinkPool.init place heap threadFiber memory coroutines stackSize limitMin limitMax, 0⟩
        ops linked ∧
      SameAnswers place others r linked := by
  -- A simulation: the links follow the lists from the start, and each step keeps it so.
  have start : Follows place others
      ⟨efCoroutinePoolInit threadFiber memory coroutines stackSize limitMin limitMax, 0⟩
      ⟨LinkPool.init place heap threadFiber memory coroutines stackSize limitMin limitMax, 0⟩ :=
    ⟨⟨[threadFiber], .initial unused⟩,
      ⟨fun _ => nofun, fun _ => nofun⟩,
      init_represents rings full free threadFiber memory coroutines stackSize limitMin limitMax,
      rfl⟩
  obtain ⟨linked, followed, follows⟩ := run.simulate start fun _ _ _ _ follows owed stepped =>
    follows.step owed stepped
  exact ⟨linked, followed, follows.sameAnswers⟩

/-- The pool's heads lie at 100 and 102, and a coroutine's entries 10 and 12 behind its start. -/
def farHeads : PoolPlace where
  fullList := 100
  freeList := 102
  fullEntry := 10
  freeEntry := 12
  apart := by decide
  entriesApart := by decide

/-- A coroutine at address 2 is created, exits, and stands alone in both of the lists then. -/
theorem pool_links_refine_exit :
    let memory : Ptr → Fiber := fun _ => ⟨0, 0, none⟩
    let heap : ListHeap := ⟨fun _ => 0, fun _ => 0⟩
    ∃ linked, Run (linkStep farHeads) (fun _ _ => True)
        ⟨LinkPool.init farHeads heap 1 memory (fun _ => ⟨⟨0, 0⟩, 0⟩) 4096 0 4, 0⟩
        [.create 40 0 (some 2), .resume 2 7 ⟨5, 0⟩, .exit 3 ⟨6, 0⟩] linked ∧
      efListEntryAfter linked.pool.links 100 = 12 ∧
      efListEntryAfter linked.pool.links 102 = 14 := by
  intro memory heap
  have chained : ∀ {s : Sched}, s.currentFiber = 1 → s.threadFiber = 1 → ¬ OnChain s 2 := by
    intro s current thread reached
    have chain : IsChain s [1] := thread.symm
    have member := chain.mem_of_onChain (by simp [current]) reached
    simp at member
  have elsewhere : ∀ a : Ptr, OffRings (fun _ => none) a := fun _ _ _ => nofun
  have outside : farHeads.Outside (fun _ => none) 2 := by
    intro entry member
    refine ⟨elsewhere entry, ?_⟩
    rcases List.mem_pair.mp member with rfl | rfl <;> decide
  have mapped : (2 : Ptr) ≠ 1 := by decide
  have run : Run poolStep (LinkDiscipline farHeads fun _ => none)
      ⟨efCoroutinePoolInit 1 memory (fun _ => ⟨⟨0, 0⟩, 0⟩) 4096 0 4, 0⟩
      [.create 40 0 (some 2), .resume 2 7 ⟨5, 0⟩, .exit 3 ⟨6, 0⟩] _ :=
    .cons ⟨fun co same => by obtain rfl := Option.some.inj same; exact ⟨List.not_mem_nil, mapped⟩,
      fun _ _ co same => by
        obtain rfl := Option.some.inj (PoolOp.create.inj same).2.2
        exact ⟨outside, nofun⟩⟩ rfl <|
    .cons ⟨⟨by decide, chained rfl rfl⟩, nofun⟩ rfl <|
    .cons ⟨mapped, nofun⟩ rfl <| .start _
  obtain ⟨linked, followed, same⟩ :=
    @pool_links_refine farHeads (fun _ => none) heap _ _ _ _ _ _ _ _
    ⟨fun _ _ none => (by cases none), fun _ _ _ _ none => (by cases none)⟩
    (elsewhere 100) (elsewhere 102) (fun _ _ => by decide) run
  have full := same.represents.rings.lists.ring _ _ (RingPool.Represents.full_list _ _)
  have free := same.represents.rings.lists.ring _ _ (RingPool.Represents.free_list _ _)
  exact ⟨linked, followed, full.next_head, free.next_head⟩

end Refinement

end SimpleSrv.Ef
