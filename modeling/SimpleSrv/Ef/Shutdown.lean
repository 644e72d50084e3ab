import Mathlib.Data.List.TakeWhile
import SimpleSrv.Ef.Accounts
import SimpleSrv.Ef.Queues

/-! A loop that returns 0 has served every queued connection and has given everything back. -/

namespace SimpleSrv.Ef

/-- Time does not run backwards, and a fiber is refused only to a pool that is full. -/
def ShutdownOk (w : World) (label : Label) : Prop :=
  KernelOk w label ∧
    match label with
    | .tick now => w.machine.clock ≤ now
    | .loop (.start none) =>
      0 < w.machine.pool.freeCount ∨ w.machine.pool.limitMax ≤ w.machine.pool.fullCount
    | _ => True

instance (w : World) : (label : Label) → Decidable (ShutdownOk w label)
  | .tick now => inferInstanceAs (Decidable (True ∧ w.machine.clock ≤ now))
  | .loop (.start none) => inferInstanceAs (Decidable (w.machine.pool.Fresh none ∧
      (0 < w.machine.pool.freeCount ∨ w.machine.pool.limitMax ≤ w.machine.pool.fullCount)))
  | .loop (.start (some er)) =>
    inferInstanceAs (Decidable (w.machine.pool.Fresh (some er) ∧ True))
  | .loop (.addListen _ _ _ _) | .loop .run | .loop (.associate _) | .loop (.wait _)
  | .loop (.accept _) | .loop .advance | .stop | .handler _ =>
    inferInstanceAs (Decidable (True ∧ True))

/-- The pool may hold a coroutine, and every free one has run before now. -/
structure Rested (pool : Pool) (clock : TimeVal) : Prop where
  room : 1 ≤ pool.limitMax
  times : ∀ co ∈ pool.freeList, (pool.coroutines co).lastRunTime ≤ clock

/-- Whoever has run before now is idle for at least no time. -/
theorem idleEnough_zero {now last : TimeVal} (before : last ≤ now) : IdleEnough now last 0 := by
  -- No time is a limit of no seconds and no rest.
  rcases before with later | ⟨same, later⟩
  · exact .inl (by omega)
  · exact .inr ⟨by omega, by simpa using later⟩

namespace Rested

variable {pool : Pool} {clock : TimeVal}

/-- Handing out a coroutine leaves fewer free ones. -/
theorem created (rested : Rested pool clock) {fiberProc param er : Ptr} {mapped : Option Ptr}
    {after : Pool} (effect : Created pool fiberProc param mapped (after, some er)) :
    Rested after clock := by
  -- The free list gets shorter, or stays as it is.
  cases effect with
  | reused _ rest shape =>
    refine ⟨rested.room, fun co free => rested.times co ?_⟩
    rw [shape]
    exact List.mem_cons_of_mem _ free
  | added =>
    refine ⟨rested.room, fun co free => ?_⟩
    -- A new coroutine gets its run count, but no time.
    have time : ((pool.added er fiberProc param).coroutines co).lastRunTime =
        (pool.coroutines co).lastRunTime := by
      simp only [Pool.added, Function.update_apply]
      split
      · rename_i same
        rw [same]
      · rfl
    rw [time]
    exact rested.times co free

/-- A shrink leaves some of the free coroutines. -/
theorem shrunk (rested : Rested pool clock) {chain : List Ptr} (inv : PoolInv pool chain)
    (idleMillisecs maxCount : Int) (tv : TimeVal) :
    Rested (efCoroutinePoolShrink pool idleMillisecs maxCount tv).1 clock := by
  -- A shrink changes no times.
  obtain ⟨gone, _, shrunk, _, left⟩ := inv.shrink idleMillisecs maxCount tv
  rw [shrunk]
  refine ⟨by rw [foldl_delete_limitMax]; exact rested.room, fun co free => ?_⟩
  rw [foldl_delete_coroutines]
  exact rested.times co ((left co).2.mp free).1

/-- Asked to delete as many coroutines as there are, a shrink takes the whole free list. -/
theorem shrink_everyone (rested : Rested pool clock) {chain : List Ptr} (inv : PoolInv pool chain)
    (allFree : pool.freeCount = pool.fullCount) :
    (efCoroutinePoolShrink pool 0 (-pool.fullCount) clock).1 =
      pool.freeList.reverse.foldl Pool.delete pool := by
  -- The counters are the lengths of the lists.
  have freeCount := inv.freeCount
  unfold efCoroutinePoolShrink
  by_cases empty : pool.freeCount ≤ 0
  · have none_free : pool.freeList = [] := List.eq_nil_of_length_eq_zero (by omega)
    rw [if_pos (.inl empty), none_free]
    rfl
  · rw [if_neg (by omega)]
    simp only [shrinkLoop_eq]
    -- Whatever the lower limit is, the count covers the list, and nobody on it ran just now.
    have covered : ∀ maxCount : Int, pool.fullCount ≤ maxCount →
        (pool.freeList.reverse.take maxCount.toNat).takeWhile (fun co =>
          IdleEnough clock (pool.coroutines co).lastRunTime 0) = pool.freeList.reverse := by
      intro maxCount enough
      rw [List.take_of_length_le (by rw [List.length_reverse]; omega), List.takeWhile_eq_self_iff]
      intro co member
      exact decide_eq_true (idleEnough_zero (rested.times co (List.mem_reverse.mp member)))
    rw [covered]
    split <;> split <;> omega

/-- Asked to delete as many coroutines as there are, all of them free, a shrink empties the pool. -/
theorem shrink_all (rested : Rested pool clock) {chain : List Ptr} (inv : PoolInv pool chain)
    (allFree : pool.freeCount = pool.fullCount) :
    let after := (efCoroutinePoolShrink pool 0 (-pool.fullCount) clock).1
    after.fullCount = 0 ∧ after.freeCount = 0 ∧ after.fullList = [] ∧ after.freeList = [] := by
  -- As all coroutines are free, both lists have the same members.
  have everyone := inv.everyone_free allFree
  have kept := inv.deletedAll (List.nodup_reverse.mpr inv.freeNodup) fun co => List.mem_reverse.mp
  rw [← rested.shrink_everyone inv allFree] at kept
  -- Whoever is taken out of a list that has no others leaves nothing behind.
  have emptied : ∀ list : List Ptr, list.Nodup → (∀ co ∈ list, co ∈ pool.freeList) →
      list.diff pool.freeList.reverse = [] := by
    intro list different inside
    refine List.eq_nil_iff_forall_not_mem.mpr fun co member => ?_
    obtain ⟨there, away⟩ := different.mem_sdiff_iff.mp member
    exact away (List.mem_reverse.mpr (inside co there))
  have full : (efCoroutinePoolShrink pool 0 (-pool.fullCount) clock).1.fullList = [] := by
    rw [rested.shrink_everyone inv allFree, foldl_delete_fullList]
    exact emptied _ inv.fullNodup fun co => everyone.mem_iff.mpr
  have free : (efCoroutinePoolShrink pool 0 (-pool.fullCount) clock).1.freeList = [] := by
    rw [rested.shrink_everyone inv allFree, foldl_delete_freeList]
    exact emptied _ inv.freeNodup fun co => id
  refine ⟨?_, ?_, full, free⟩
  · rw [kept.fullCount, full]
    rfl
  · rw [kept.freeCount, free]
    rfl

end Rested

namespace Rested

variable {w : World}

/-- The code behind the label `exit_queue` keeps the pool rested. -/
theorem exitQueue (rested : Rested w.machine.pool w.machine.clock) (loop : WorldInv w) :
    Rested w.exitQueue.machine.pool w.exitQueue.machine.clock := by
  -- Closing the sockets touches neither the pool nor the clock.
  unfold World.exitQueue
  split
  · have left := StoppedFrom.stopListens w
    have shrunk : ∀ maxCount, Rested
        (efCoroutinePoolShrink w.stopListens.machine.pool 0 maxCount
          w.stopListens.machine.clock).1 w.stopListens.machine.clock := by
      intro maxCount
      rw [left.pool, left.clock]
      exact rested.shrunk loop.machine.pool 0 maxCount _
    simp only
    split <;> exact shrunk _
  · exact rested

/-- Every move of the loop keeps the pool rested. -/
theorem loopMove (rested : Rested w.machine.pool w.machine.clock) (loop : WorldInv w) {op : LoopOp}
    {after : World} (move : LoopMove w op after) :
    Rested after.machine.pool after.machine.clock := by
  -- Only three of the moves touch the pool.
  cases move with
  | starts li qf mapped pool er at_ effect =>
    have created := rested.created effect
    exact ⟨created.room, created.times⟩
  | stops at_ stopping => exact rested.exitQueue loop
  | shrinks at_ =>
    unfold World.shrink
    simp only
    split
    · exact rested.shrunk loop.machine.pool _ _ _
    · exact rested
  | wakes er event batch at_ points => exact ⟨rested.room, rested.times⟩
  | jumps | listens | associates | refuses | drops | reuses | allocates | recycles => exact rested

/-- A coroutine that exits has run just now. -/
theorem handlerMove (rested : Rested w.machine.pool w.machine.clock) (loop : WorldInv w)
    {op : HandlerOp} {er : Ptr} {pool : Pool} {kernel : Kernel} {record : Routine}
    (current : efCoroutineCurrent w.machine.pool = some er)
    (move : HandlerMove w.machine er op pool kernel record) : Rested pool w.machine.clock := by
  -- Only an exit adds to the free list, and it takes the time of now.
  have running := (loop.machine.routines er (loop.machine.current_busy current)).running current
  rcases move.place running with ⟨rfl, _⟩ | ⟨rfl, _⟩ | ⟨rfl, _⟩
  · exact rested
  · exact ⟨rested.room, rested.times⟩
  · rw [Machine.exited_eq current]
    refine ⟨rested.room, fun co free => ?_⟩
    simp only [Function.update_apply]
    split
    · exact .inr ⟨rfl, Int.le_refl _⟩
    · rename_i apart
      exact rested.times co ((List.mem_cons.mp free).resolve_left apart)

end Rested

/-- Nothing is left of the listeners, of the nodes on the free list, or of the pool. -/
structure GivenBack (w : World) : Prop where
  listenList : w.listenList = []
  freeFdList : w.freeFdList = []
  fullCount : w.machine.pool.fullCount = 0
  freeCount : w.machine.pool.freeCount = 0
  fullList : w.machine.pool.fullList = []
  freeList : w.machine.pool.freeList = []

/-- What the loop knows about its end. -/
structure EndInv (w : World) : Prop where
  polls : w.trace.count .pollFreed = if w.pc = .halted 0 then 1 else 0
  /-- The queue phase ends with empty queues, or with coroutines that are all in use. -/
  drained : w.pc = .exitQueue → (∀ li ∈ w.listenList, (w.listens li).fdList = []) ∨
    (w.machine.pool.freeCount ≤ 0 ∧ 1 ≤ w.machine.pool.fullCount)
  ended : w.pc = .halted 0 → GivenBack w

namespace EndInv

variable {w : World}

/-- On the way to any other place nothing has to be known. -/
theorem passes (inv : EndInv w) (before : w.pc ≠ .halted 0) {after : World}
    {extra : List LoopEvent} (trace : after.trace = w.trace ++ extra)
    (quiet : extra.count .pollFreed = 0) (goesOn : after.pc ≠ .halted 0)
    (later : after.pc ≠ .exitQueue) : EndInv after := by
  -- No event frees the poll object, and the place is not the end.
  refine ⟨?_, fun at_ => absurd at_ later, fun at_ => absurd at_ goesOn⟩
  have polls := inv.polls
  rw [if_neg before] at polls
  rw [if_neg goesOn, trace, List.count_append, polls, quiet]

/-- Steps that only move the system thread on keep what is known about the end. -/
theorem jump (inv : EndInv w) (queues : QueueInv w) (room : 1 ≤ w.machine.pool.limitMax)
    {op : LoopOp} {pc : Pc} (ok : ShutdownOk w (.loop op)) (move : Jump w op pc) :
    EndInv { w with pc := pc } := by
  -- No jump begins or leads to the end.
  have before : w.pc ≠ .halted 0 := by
    cases move <;> simp_all
  have goesOn : pc ≠ .halted 0 := by
    cases move <;> simp
  refine ⟨?_, ?_, fun at_ => absurd at_ goesOn⟩
  · have polls := inv.polls
    rw [if_neg before] at polls
    rw [if_neg goesOn]
    exact polls
  · intro later
    cases move with
    | started at_ =>
      -- The walk has gone past every listener and has left each of them with an empty queue.
      have position := queues.position
      simp only [World.Position, at_] at position
      obtain ⟨done, todo, list, none_left, empty⟩ := position
      have past : todo = [] := List.head?_eq_none_iff.mp none_left.symm
      rw [past, List.append_nil] at list
      exact .inl fun li listed => empty li (list ▸ listed)
    | exhausted li qf mapped at_ empty why =>
      -- The walk has been left early, so all coroutines are in use, and there are some.
      refine .inr ⟨empty, ?_⟩
      rcases why with full | rfl
      · exact room.trans full
      · rcases ok.2 with free | full
        · exact absurd empty (Int.not_le.mpr free)
        · exact room.trans full
    | unlisted | enters | fails | associated | interrupted | broken | reported | accepted
    | dispatched | accepts | opens | closes | goesOn => cases later

/-- With nothing left to serve, the loop ends and gives everything back. -/
theorem exitQueue (inv : EndInv w) (loop : WorldInv w)
    (rested : Rested w.machine.pool w.machine.clock) (at_ : w.pc = .exitQueue)
    (stopping : w.stopping = true) : EndInv w.exitQueue := by
  -- Closing the sockets does not free the poll object.
  have left := StoppedFrom.stopListens w
  obtain ⟨extra, traced, stops⟩ := left.trace
  obtain ⟨_, quiet⟩ := Stopping.invisible stops
  have polls := inv.polls
  rw [if_neg (by simp [at_])] at polls
  rw [World.exitQueue, if_pos stopping]
  simp only
  split
  · rename_i allFree
    have allFree : w.machine.pool.freeCount = w.machine.pool.fullCount := left.pool ▸ allFree
    -- All coroutines are free, so the queue phase was not left for want of one.
    have empty := (inv.drained at_).resolve_right fun busy => by omega
    refine ⟨?_, (fun later => by cases later), fun _ => ?_⟩
    · simp only [World.withPool, World.withKernel, World.freeNodes, traced, List.count_append,
        polls, quiet, if_true]
      rfl
    · -- Every queue is empty, so no listener is left on the list.
      have unlisted : w.stopListens.listenList = [] := by
        refine List.eq_nil_iff_forall_not_mem.mpr fun li member => ?_
        obtain ⟨listed, queue⟩ := World.foldl_stopListen_left loop.nodup li member
        exact queue listed (empty li listed)
      obtain ⟨full, free, fullList, freeList⟩ := rested.shrink_all loop.machine.pool allFree
      have pool : (efCoroutinePoolShrink w.stopListens.machine.pool 0
          (-w.stopListens.machine.pool.fullCount) w.stopListens.machine.clock).1 =
          (efCoroutinePoolShrink w.machine.pool 0 (-w.machine.pool.fullCount)
            w.machine.clock).1 := by
        rw [left.pool, left.clock]
      rw [← pool] at full free fullList freeList
      exact ⟨unlisted, rfl, full, free, fullList, freeList⟩
  · -- While a coroutine is in use, the loop goes on.
    have back : EndInv { w with pc := .shrink } :=
      inv.passes (by simp [at_]) (List.append_nil _).symm rfl (by simp) (by simp)
    exact back.passes (by simp) traced quiet (by simp) (by simp)

/-- Every move of the loop keeps what is known about the end. -/
theorem loopMove (inv : EndInv w) (loop : WorldInv w) (queues : QueueInv w)
    (rested : Rested w.machine.pool w.machine.clock) {op : LoopOp} (ok : ShutdownOk w (.loop op))
    {after : World} (move : LoopMove w op after) : EndInv after := by
  -- All but two of the moves pass by the end.
  cases move with
  | jumps pc move => exact inv.jump queues rested.room ok move
  | stops at_ stopping => exact inv.exitQueue loop rested at_ stopping
  | listens socket proc setfl li at_ =>
    refine inv.passes (by simp [at_]) rfl rfl ?_ ?_ <;> simp [World.listened, at_]
  | associates li refusal at_ =>
    exact inv.passes (by simp [at_]) (List.append_nil _).symm rfl (by simp) (by simp)
  | refuses li batch fd answers at_ =>
    exact inv.passes (by simp [at_]) (List.append_nil _).symm rfl (by simp) (by simp)
  | drops li batch fd answers at_ =>
    exact inv.passes (by simp [at_]) (List.append_nil _).symm rfl (by simp) (by simp)
  | reuses li batch fd answers qf rest at_ =>
    refine inv.passes (by simp [at_]) rfl rfl ?_ ?_ <;>
      simp [World.enqueue, World.modifyListen, World.opened, World.withKernel, at_]
  | allocates li batch fd answers qf at_ =>
    refine inv.passes (by simp [at_]) rfl rfl ?_ ?_ <;>
      simp [World.enqueue, World.modifyListen, World.opened, World.withKernel, at_]
  | wakes er event batch at_ =>
    exact inv.passes (by simp [at_]) (List.append_nil _).symm rfl (by simp) (by simp)
  | starts li qf mapped pool er at_ =>
    exact inv.passes (by simp [at_]) rfl rfl (by simp [World.started]) (by simp [World.started])
  | recycles li qf enf at_ =>
    exact inv.passes (by simp [at_]) (List.append_nil _).symm rfl (by simp [World.recycled])
      (by simp [World.recycled])
  | shrinks at_ =>
    unfold World.shrink
    simp only
    split <;> exact inv.passes (by simp [at_]) (List.append_nil _).symm rfl
      (by simp [World.withPool]) (by simp [World.withPool])

end EndInv

/-- Everything that the shutdown rests on. -/
structure ShutdownInv (w : World) : Prop where
  server : ServerInv w
  rested : Rested w.machine.pool w.machine.clock
  runs : RunsInv w
  sockets : SocketsInv w
  ends : EndInv w

/-- Every step keeps everything that the shutdown rests on. -/
theorem ShutdownInv.step {w after : World} (inv : ShutdownInv w) {label : Label}
    (ok : ShutdownOk w label) (stepped : SimpleSrv.Ef.step w label = some after) :
    ShutdownInv after := by
  -- The labels are taken one by one.
  obtain ⟨⟨loop, queues⟩, rested, runs, sockets, ends⟩ := inv
  have server : ServerInv after := ⟨loop.step ok.1 stepped, queues.step loop ok.1 stepped⟩
  cases label with
  | tick now =>
    obtain rfl := Option.some.inj stepped
    -- The clock goes forward only, so whoever rested goes on resting.
    have later : w.machine.clock ≤ now := ok.2
    refine ⟨server, ⟨rested.room, fun co free => TimeVal.le_trans (rested.times co free) later⟩,
      runs.same rfl (Nat.le_refl _) fun _ busy => ⟨busy, rfl⟩, sockets.same rfl rfl fun _ => rfl,
      ends.polls, ends.drained, fun at_ => ?_⟩
    obtain ⟨listenList, freeFdList, fullCount, freeCount, fullList, freeList⟩ := ends.ended at_
    exact ⟨listenList, freeFdList, fullCount, freeCount, fullList, freeList⟩
  | stop =>
    obtain rfl := Option.some.inj stepped
    refine ⟨server, rested, runs.same rfl (Nat.le_refl _) fun _ busy => ⟨busy, rfl⟩,
      sockets.same rfl rfl fun _ => rfl, ends.polls, ends.drained, fun at_ => ?_⟩
    obtain ⟨listenList, freeFdList, fullCount, freeCount, fullList, freeList⟩ := ends.ended at_
    exact ⟨listenList, freeFdList, fullCount, freeCount, fullList, freeList⟩
  | loop op =>
    obtain ⟨idle, stepped⟩ := Option.ite_none_right_eq_some.mp stepped
    have fresh : ∀ mapped, op = .start mapped → w.machine.pool.Fresh mapped := by
      rintro mapped rfl
      exact ok.1
    have move := loop.loopStep_move idle fresh stepped
    exact ⟨server, rested.loopMove loop move, runs.loopMove loop fresh move,
      sockets.loopMove loop idle move, ends.loopMove loop queues rested ok move⟩
  | handler op =>
    obtain ⟨machine, moved, rfl⟩ := Option.map_eq_some_iff.mp stepped
    obtain ⟨er, pool, kernel, record, current, move, rfl⟩ := loop.machine.handlerStep_move moved
    have passing : ∀ event ∈ w.machine.exitedEvents op, Passing event := by
      intro event member
      cases op with
      | ret retval =>
        simp only [Machine.exitedEvents, current, List.mem_singleton] at member
        exact member ▸ .exited _ _
      | transfer | connect | goOn | close | socket => cases member
    obtain ⟨_, listened, closed, freed, polls⟩ := Passing.invisible passing
    -- While a handler runs the loop is neither at its end nor behind its queue phase.
    have inside := loop.runner (by rw [current]; simp)
    have goesOn : w.pc ≠ .halted 0 := by
      rcases inside with ⟨_, at_⟩ | ⟨_, _, _, at_⟩ <;> simp [at_]
    have elsewhere : w.pc ≠ .exitQueue := by
      rcases inside with ⟨_, at_⟩ | ⟨_, _, _, at_⟩ <;> simp [at_]
    exact ⟨server, rested.handlerMove loop current move, runs.handlerMove loop current move,
      sockets.extend rfl listened closed freed rfl fun _ => rfl,
      ends.passes goesOn rfl polls goesOn elsewhere⟩

/-- A runtime on a new pool has nothing to give back. -/
theorem ShutdownInv.initial (setting : Setting) (room : 1 ≤ setting.limitMax) :
    ShutdownInv setting.world where
  server := ⟨.initial setting, .initial setting⟩
  rested := ⟨room, fun co free => absurd free List.not_mem_nil⟩
  runs := ⟨.nil, fun run member => absurd member List.not_mem_nil,
    fun li er proc fd run member => absurd member List.not_mem_nil⟩
  sockets := ⟨fun _ => rfl, fun _ => rfl⟩
  ends := ⟨rfl, (fun at_ => by cases at_), fun at_ => by cases at_⟩

end SimpleSrv.Ef
