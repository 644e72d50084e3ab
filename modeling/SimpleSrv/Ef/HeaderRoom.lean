import SimpleSrv.Ef.CoroutineLaws
import SimpleSrv.Ef.StackLaws

/-! The room that a pool leaves for the headers of its coroutines, which may differ in size. -/

namespace SimpleSrv.Ef

/-- `sizeof(ef_coroutine_t)`. -/
def sizeofCoroutine : Nat := 120

/-- A pool together with the memory of its coroutines, and the sizes an observer has noted. -/
structure HeaderPool where
  run : PoolRun
  /-- The record of each coroutine, with the stack pointer that its last initialisation set. -/
  stackOf : Ptr → FiberStack
  access : Word → Bool
  /-- The header size of the creation that has returned a coroutine last. -/
  asked : Ptr → Word
  /-- The header size that its stack has been laid out for. -/
  made : Ptr → Word

/-- An operation on the pool, in which a creation has a header size. -/
inductive HeaderOp (page : PageSize) where
  | create (headerSize : Word) (fiberProc param : Ptr)
      (mmap : (size : Word) → Option (Area page size)) (mprotected : Bool)
  | resume (co : Ptr) (toYield : Int) (now : TimeVal)
  | yield (sndval : Int) (now : TimeVal)
  | exit (retval : Int) (now : TimeVal)
  | shrink (idleMillisecs maxCount : Int) (now : TimeVal)

variable {page : PageSize}

namespace HeaderPool

/-- What `ef_fiber_create` would answer. -/
def mapped (s : HeaderPool) (mmap : (size : Word) → Option (Area page size)) (mprotected : Bool)
    (headerSize : Word) : Option Stack :=
  efFiberCreate page mmap mprotected s.access (BitVec.ofNat 64 s.run.pool.stackSize) headerSize

/-- `munmap` of the stacks of these coroutines. -/
def unmapped (s : HeaderPool) (gone : List Ptr) : Word → Bool :=
  gone.foldl (fun access co =>
    setAccess access (s.stackOf co).stackArea (s.stackOf co).stackSize false) s.access

end HeaderPool

/-- The operation without its header size. -/
def HeaderOp.poolOp (s : HeaderPool) : HeaderOp page → PoolOp
  | .create headerSize fiberProc param mmap mprotected =>
    .create fiberProc param
      ((s.mapped mmap mprotected headerSize).map fun st => st.fiber.stackUpper.toNat)
  | .resume co toYield now => .resume co toYield now
  | .yield sndval now => .yield sndval now
  | .exit retval now => .exit retval now
  | .shrink idleMillisecs maxCount now => .shrink idleMillisecs maxCount now

/-- What an operation does to the memory, besides what it does to the pool. -/
def HeaderOp.effect (s : HeaderPool) (run : PoolRun) : HeaderOp page → HeaderPool
  | .create headerSize _ _ mmap mprotected =>
    if s.run.pool.freeCount > 0 then
      match s.run.pool.freeList with
      | [] => { s with run := run }
      | co :: _ =>
        -- The frame is written again, at the end of the stack that the coroutine has.
        let stack := { s.stackOf co with
          stackPtr := efFiberInternalInit (s.stackOf co).stackUpper }
        { s with
          run := run
          stackOf := Function.update s.stackOf co stack
          asked := Function.update s.asked co headerSize }
    else if s.run.pool.fullCount ≥ s.run.pool.limitMax then { s with run := run }
    else
      match s.mapped mmap mprotected headerSize with
      | none => { s with run := run }
      | some st =>
        let co := st.fiber.stackUpper.toNat
        { run := run
          stackOf := Function.update s.stackOf co st.fiber
          access := st.access
          asked := Function.update s.asked co headerSize
          made := Function.update s.made co headerSize }
  | .shrink _ _ _ =>
    { s with
      run := run
      access := s.unmapped (s.run.pool.fullList.filter fun co => co ∉ run.pool.fullList) }
  | .resume _ _ _ | .yield _ _ | .exit _ _ => { s with run := run }

/-- One operation on the pool and its memory. -/
def headerStep (s : HeaderPool) (op : HeaderOp page) : Option HeaderPool :=
  (poolStep s.run (op.poolOp s)).map fun run => op.effect s run

/-- Two stacks have no byte in common. -/
def FiberStack.Apart (first second : FiberStack) : Prop :=
  first.stackArea.toNat + first.stackSize.toNat ≤ second.stackArea.toNat ∨
    second.stackArea.toNat + second.stackSize.toNat ≤ first.stackArea.toNat

/-- What the kernel and the callers of the pool owe it. -/
def HeaderDiscipline (s : HeaderPool) (op : HeaderOp page) : Prop :=
  match op with
  | .create headerSize _ _ mmap mprotected =>
    -- The header holds an `ef_coroutine_t` at least, and leaves room for the frame in its page.
    sizeofCoroutine ≤ headerSize.toNat ∧ headerSize.toNat + 128 ≤ page.bytes.toNat ∧
      -- New memory is none that is in use.
      ∀ st ∈ s.mapped mmap mprotected headerSize,
        (∀ co ∈ s.run.pool.fullList, st.fiber.Apart (s.stackOf co)) ∧
          st.fiber.stackUpper.toNat ≠ s.run.pool.fiberSched.threadFiber
  | .resume _ _ _ | .yield _ _ | .exit _ _ | .shrink _ _ _ =>
    PoolDiscipline s.run (op.poolOp s)

/-- A coroutine has the room that was asked for, and its frame and its stack lie below it. -/
structure HasRoom (s : HeaderPool) (co : Nat) : Prop where
  header : co + (s.asked co).toNat ≤
    (s.stackOf co).stackArea.toNat + (s.stackOf co).stackSize.toNat
  accessible : ∀ a : Word, co ≤ a.toNat → a.toNat < co + (s.asked co).toNat → s.access a = true
  /-- The first frame has 128 bytes. -/
  frame : (s.stackOf co).stackPtr.toNat + 128 ≤ co
  stack : (s.stackOf co).stackLower.toNat ≤ (s.stackOf co).stackPtr.toNat ∧
    (s.stackOf co).stackUpper.toNat ≤ co

/-- Every coroutine that a creation has returned, and that has not exited since, has room. -/
def RoomForAll (s : HeaderPool) : Prop :=
  ∀ co ∈ s.run.pool.fullList, co ∉ s.run.pool.freeList → HasRoom s co

/-- A creation takes a coroutine from the free list only for a header that it has been made for. -/
def ReusesFitting (s : HeaderPool) : HeaderOp page → Prop
  | .create headerSize _ _ _ _ =>
    ∀ co ∈ s.run.pool.freeList.head?, headerSize.toNat ≤ (s.made co).toNat
  | .resume _ _ _ | .yield _ _ | .exit _ _ | .shrink _ _ _ => True

/-- Where a coroutine of the pool lies. -/
structure Placed (s : HeaderPool) (co : Nat) : Prop where
  address : (s.stackOf co).stackUpper.toNat = co
  header : co + (s.made co).toNat = (s.stackOf co).stackArea.toNat + (s.stackOf co).stackSize.toNat
  filled : 0 < (s.made co).toNat
  pointer : (s.stackOf co).stackPtr.toNat + 128 = co
  lower : (s.stackOf co).stackLower.toNat ≤ (s.stackOf co).stackPtr.toNat
  area : (s.stackOf co).stackArea.toNat ≤ (s.stackOf co).stackLower.toNat
  low : (s.stackOf co).stackArea.toNat + (s.stackOf co).stackSize.toNat ≤ 2 ^ 63
  usable : ∀ a : Word, (s.stackOf co).stackLower.toNat ≤ a.toNat →
    a.toNat < (s.stackOf co).stackArea.toNat + (s.stackOf co).stackSize.toNat → s.access a = true

/-- What holds throughout a run. -/
structure HeaderInv (s : HeaderPool) : Prop where
  pool : PoolRunInv s.run
  placed : ∀ co ∈ s.run.pool.fullList, Placed s co
  apart : ∀ co ∈ s.run.pool.fullList, ∀ other ∈ s.run.pool.fullList, co ≠ other →
    (s.stackOf co).Apart (s.stackOf other)

variable {s t : HeaderPool} {co : Nat}

namespace Placed

/-- A coroutine has the room that was asked for exactly if it was made for as much. -/
theorem hasRoom_iff (placed : Placed s co) :
    HasRoom s co ↔ (s.asked co).toNat ≤ (s.made co).toNat := by
  -- The header begins where the area ends, less the size that it was made for.
  have header := placed.header
  have pointer := placed.pointer
  have lower := placed.lower
  have address := placed.address
  constructor
  · intro room
    have fits := room.header
    omega
  · intro fits
    refine ⟨by omega, ?_, by omega, by omega, by omega⟩
    -- The header ends with the area, whose upper part is mapped.
    intro a first last
    apply placed.usable a
    · omega
    · omega

/-- The address of a coroutine lies in its own area. -/
theorem inside (placed : Placed s co) : (s.stackOf co).stackArea.toNat ≤ co ∧
    co < (s.stackOf co).stackArea.toNat + (s.stackOf co).stackSize.toNat := by
  -- The header is not empty, and lies at the upper end.
  have header := placed.header
  have filled := placed.filled
  have pointer := placed.pointer
  have lower := placed.lower
  have area := placed.area
  omega

/-- A coroutine stays in its place when its record and the access to its area do. -/
theorem kept (placed : Placed s co) (stack : t.stackOf co = s.stackOf co)
    (made : t.made co = s.made co)
    (access : ∀ a : Word, (s.stackOf co).stackArea.toNat ≤ a.toNat →
      a.toNat < (s.stackOf co).stackArea.toNat + (s.stackOf co).stackSize.toNat →
      t.access a = s.access a) : Placed t co := by
  -- Every condition is stated through the record and the access.
  refine ⟨?_, ?_, ?_, ?_, ?_, ?_, ?_, ?_⟩
  · rw [stack]
    exact placed.address
  · rw [stack, made]
    exact placed.header
  · rw [made]
    exact placed.filled
  · rw [stack]
    exact placed.pointer
  · rw [stack]
    exact placed.lower
  · rw [stack]
    exact placed.area
  · rw [stack]
    exact placed.low
  · rw [stack]
    intro a first last
    rw [access a (Nat.le_trans placed.area first) last]
    exact placed.usable a first last

end Placed

/-- A byte outside of the stacks that are unmapped stays as it is. -/
theorem HeaderPool.unmapped_apart {gone : List Ptr} {a : Word}
    (low : ∀ other ∈ gone,
      (s.stackOf other).stackArea.toNat + (s.stackOf other).stackSize.toNat ≤ 2 ^ 63)
    (outside : ∀ other ∈ gone, ¬ ((s.stackOf other).stackArea.toNat ≤ a.toNat ∧
      a.toNat < (s.stackOf other).stackArea.toNat + (s.stackOf other).stackSize.toNat)) :
    s.unmapped gone a = s.access a := by
  -- The induction is on the coroutines that have gone, the first of which may be last.
  unfold unmapped
  generalize s.access = access
  induction gone generalizing access with
  | nil => rfl
  | cons other rest ih =>
    rw [List.foldl_cons, ih (fun o mem => low o (by simp [mem]))
      (fun o mem => outside o (by simp [mem]))]
    have region := toNat_sub_lt_iff a (low other (by simp))
    rw [setAccess, if_neg]
    rw [region]
    exact outside other (by simp)

/-- What a creation does to the pool and its memory. -/
inductive RoomMade (s : HeaderPool) (headerSize : Word) (handed : Option Stack) :
    HeaderPool → Prop
  /-- Nothing is returned. -/
  | refused (run : PoolRun) (empty : s.run.pool.freeList = []) (same : run.pool = s.run.pool) :
      RoomMade s headerSize handed { s with run := run }
  /-- The head of the free list gets a new frame. -/
  | reused (run : PoolRun) (co : Ptr) (rest : List Ptr) (shape : s.run.pool.freeList = co :: rest)
      (full : run.pool.fullList = s.run.pool.fullList) (free : run.pool.freeList = rest) :
      RoomMade s headerSize handed
        { s with
          run := run
          stackOf := Function.update s.stackOf co
            { s.stackOf co with stackPtr := efFiberInternalInit (s.stackOf co).stackUpper }
          asked := Function.update s.asked co headerSize }
  /-- A stack that has been mapped is added. -/
  | added (run : PoolRun) (st : Stack) (mapped : handed = some st)
      (empty : s.run.pool.freeList = [])
      (full : run.pool.fullList = st.fiber.stackUpper.toNat :: s.run.pool.fullList)
      (free : run.pool.freeList = []) :
      RoomMade s headerSize handed
        { run := run
          stackOf := Function.update s.stackOf st.fiber.stackUpper.toNat st.fiber
          access := st.access
          asked := Function.update s.asked st.fiber.stackUpper.toNat headerSize
          made := Function.update s.made st.fiber.stackUpper.toNat headerSize }

/-- A creation does one of the three. -/
theorem roomMade_of_step {headerSize : Word} {fiberProc param : Ptr}
    {mmap : (size : Word) → Option (Area page size)} {mprotected : Bool}
    (inv : PoolRunInv s.run)
    (stepped : headerStep s (.create headerSize fiberProc param mmap mprotected) = some t) :
    RoomMade s headerSize (s.mapped mmap mprotected headerSize) t := by
  -- The memory has to take the branch that the pool takes.
  obtain ⟨chain, inv⟩ := inv
  obtain ⟨run, moved, done⟩ := Option.map_eq_some_iff.mp stepped
  rw [← done]
  obtain ⟨⟨after, handed⟩, created, effect⟩ := inv.created fiberProc param
    ((s.mapped mmap mprotected headerSize).map fun st => st.fiber.stackUpper.toNat)
  simp only [HeaderOp.poolOp, poolStep, created, Option.map_some, Option.some.injEq] at moved
  have pool : run.pool = after := by rw [← moved]
  have count := inv.freeCount
  -- The memory follows the branch that the creation takes.
  cases effect with
  | refused empty why =>
    have none_free : s.run.pool.freeList = [] :=
      List.length_eq_zero_iff.mp (by omega)
    have unchanged : HeaderOp.effect s run
        (.create headerSize fiberProc param mmap mprotected) = { s with run := run } := by
      simp only [HeaderOp.effect]
      rw [if_neg (by omega)]
      by_cases room : s.run.pool.fullCount ≥ s.run.pool.limitMax
      · rw [if_pos room]
      · have missing := why.resolve_left room
        rw [Option.map_eq_none_iff] at missing
        rw [if_neg room, missing]
    rw [unchanged]
    exact .refused run none_free pool
  | reused co rest shape =>
    have changed : HeaderOp.effect s run (.create headerSize fiberProc param mmap mprotected) =
        { s with
          run := run
          stackOf := Function.update s.stackOf co
            { s.stackOf co with stackPtr := efFiberInternalInit (s.stackOf co).stackUpper }
          asked := Function.update s.asked co headerSize } := by
      rw [shape, List.length_cons] at count
      simp only [HeaderOp.effect]
      rw [if_pos (by omega), shape]
    rw [changed]
    exact .reused run co rest shape (by rw [pool]; rfl) (by rw [pool]; rfl)
  | added co found empty room =>
    have none_free : s.run.pool.freeList = [] :=
      List.length_eq_zero_iff.mp (by omega)
    obtain ⟨st, mapped, upper⟩ := Option.map_eq_some_iff.mp found
    have changed : HeaderOp.effect s run (.create headerSize fiberProc param mmap mprotected) =
        { run := run
          stackOf := Function.update s.stackOf st.fiber.stackUpper.toNat st.fiber
          access := st.access
          asked := Function.update s.asked st.fiber.stackUpper.toNat headerSize
          made := Function.update s.made st.fiber.stackUpper.toNat headerSize } := by
      simp only [HeaderOp.effect]
      rw [if_neg (by omega), if_neg (by omega), mapped]
    rw [changed]
    refine .added run st mapped none_free ?_ ?_
    · rw [pool, upper]
      rfl
    · rw [pool]
      exact none_free

/-- An operation that creates nothing adds no coroutine, and makes none busy again. -/
theorem PoolInv.rest_move {r u : PoolRun} {chain : List Ptr} {op : PoolOp}
    (inv : PoolInv r.pool chain) (allowed : PoolDiscipline r op)
    (stepped : poolStep r op = some u)
    (rest : ∀ fiberProc param mapped, op ≠ .create fiberProc param mapped) :
    (∀ co ∈ u.pool.fullList, co ∈ r.pool.fullList) ∧
      ∀ co ∈ u.pool.fullList, co ∉ u.pool.freeList → co ∉ r.pool.freeList := by
  -- The operations are taken one by one.
  cases op with
  | create fiberProc param mapped => exact absurd rfl (rest fiberProc param mapped)
  | resume co toYield now =>
    obtain ⟨full, off⟩ := allowed
    rw [inv.sched.onChain_iff] at off
    by_cases free : co ∈ r.pool.freeList
    · have unchanged := resume_exited ((inv.freeExited co full).mp free) toYield r.number now
      simp only [poolStep, unchanged, Option.map_some, Option.some.injEq] at stepped
      rw [← stepped]
      exact ⟨fun _ mem => mem, fun _ _ busy => busy⟩
    · obtain ⟨switched, _⟩ := inv.resume_switched full off free toYield r.number now
      simp only [poolStep, switched, Option.map_some, Option.some.injEq] at stepped
      rw [← stepped]
      exact ⟨fun _ mem => mem, fun _ _ busy => busy⟩
  | yield sndval now =>
    obtain ⟨switched, _⟩ := inv.yield_switched allowed sndval r.number now
    simp only [poolStep, switched, Option.map_some, Option.some.injEq] at stepped
    rw [← stepped]
    exact ⟨fun _ mem => mem, fun _ _ busy => busy⟩
  | exit retval now =>
    obtain ⟨switched, _⟩ := inv.exit_switched allowed retval now
    simp only [poolStep, switched, Option.map_some, Option.some.injEq] at stepped
    rw [← stepped]
    -- Whether or not the coroutine is put there, the free list keeps whom it has.
    unfold efCoroutineResumed
    split
    · exact ⟨fun _ mem => mem, fun _ _ busy free => busy (List.mem_cons_of_mem _ free)⟩
    · exact ⟨fun _ mem => mem, fun _ _ busy => busy⟩
  | shrink idleMillisecs maxCount now =>
    obtain ⟨gone, free, shrunk, _, left⟩ := inv.shrink idleMillisecs maxCount now
    simp only [poolStep, shrunk, Option.some.injEq] at stepped
    rw [← stepped]
    refine ⟨fun co mem => ((left co).1.mp mem).1, fun co mem busy present => ?_⟩
    exact busy ((left co).2.mpr ⟨present, ((left co).1.mp mem).2⟩)

/-- The operations besides creation change no record, and unmap only stacks of those who go. -/
theorem effect_rest {op : HeaderOp page} (run : PoolRun)
    (rest : ∀ headerSize fiberProc param mmap mprotected,
      op ≠ .create headerSize fiberProc param mmap mprotected) :
    (op.effect s run).run = run ∧ (op.effect s run).stackOf = s.stackOf ∧
      (op.effect s run).asked = s.asked ∧ (op.effect s run).made = s.made ∧
      ((op.effect s run).access = s.access ∨ (op.effect s run).access =
        s.unmapped (s.run.pool.fullList.filter fun co => co ∉ run.pool.fullList)) := by
  -- Only a shrink unmaps something.
  cases op with
  | create headerSize fiberProc param mmap mprotected =>
    exact absurd rfl (rest headerSize fiberProc param mmap mprotected)
  | resume | yield | exit => exact ⟨rfl, rfl, rfl, rfl, .inl rfl⟩
  | shrink => exact ⟨rfl, rfl, rfl, rfl, .inr rfl⟩

/-- Such an operation is none that creates something in the pool. -/
theorem rest_poolOp {op : HeaderOp page}
    (rest : ∀ headerSize fiberProc param mmap mprotected,
      op ≠ .create headerSize fiberProc param mmap mprotected) :
    ∀ fiberProc param mapped, op.poolOp s ≠ .create fiberProc param mapped := by
  -- Each operation stands for the one of the same name.
  intro fiberProc param mapped same
  cases op with
  | create headerSize fiberProc param mmap mprotected =>
    exact rest headerSize fiberProc param mmap mprotected rfl
  | resume | yield | exit | shrink => cases same

/-- The memory follows the pool. -/
theorem effect_run (run : PoolRun) (op : HeaderOp page) : (op.effect s run).run = run := by
  cases op with
  | resume | yield | exit | shrink => rfl
  | create =>
    -- Whatever the creation does to the memory, the pool is the one that is given.
    simp only [HeaderOp.effect]
    split
    · split
      · rfl
      · rfl
    · split
      · rfl
      · split
        · rfl
        · rfl

namespace HeaderInv

/-- A new stack is none that the pool knows. -/
theorem fresh (inv : HeaderInv s) {mmap : (size : Word) → Option (Area page size)}
    {mprotected : Bool} {headerSize : Word} {st : Stack}
    (mapped : s.mapped mmap mprotected headerSize = some st)
    (least : sizeofCoroutine ≤ headerSize.toNat)
    (room : headerSize.toNat + 128 ≤ page.bytes.toNat)
    (new : ∀ co ∈ s.run.pool.fullList, st.fiber.Apart (s.stackOf co)) :
    st.fiber.stackUpper.toNat ∉ s.run.pool.fullList := by
  -- Its address lies in its own area, which has no byte in common with the others.
  intro known
  have layout := efFiberCreate_layout mapped room
  have upper := layout.upper
  have page_le := layout.page_le
  obtain ⟨first, last⟩ := (inv.placed _ known).inside
  unfold sizeofCoroutine at least
  rcases new _ known with below | above
  · omega
  · omega

/-- The discipline of the pool is kept, since the kernel keeps new memory apart. -/
theorem poolDiscipline (inv : HeaderInv s) {op : HeaderOp page}
    (allowed : HeaderDiscipline s op) : PoolDiscipline s.run (op.poolOp s) := by
  -- Only a creation brings in memory.
  cases op with
  | create headerSize fiberProc param mmap mprotected =>
    obtain ⟨least, room, new⟩ := allowed
    intro co found
    obtain ⟨st, mapped, same⟩ := Option.map_eq_some_iff.mp found
    obtain ⟨apart, away⟩ := new st mapped
    rw [← same]
    exact ⟨inv.fresh mapped least room apart, away⟩
  | resume | yield | exit | shrink => exact allowed

/-- In a new pool there is no coroutine. -/
theorem initial {threadFiber : Ptr} {memory : Ptr → Fiber} {coroutines : Ptr → Coroutine}
    {stackSize : Nat} {limitMin limitMax : Int} (stackOf : Ptr → FiberStack)
    (access : Word → Bool) (asked made : Ptr → Word)
    (unused : ∀ fiber, fiber ≠ threadFiber → (memory fiber).status ≠ fiberStatusInited) :
    HeaderInv
      ⟨⟨efCoroutinePoolInit threadFiber memory coroutines stackSize limitMin limitMax, 0⟩,
        stackOf, access, asked, made⟩ where
  pool := ⟨[threadFiber], .initial unused⟩
  placed _ absent := nomatch absent
  apart _ absent := nomatch absent

/-- A created stack is placed as its header wants it. -/
theorem placed_added (run : PoolRun) {mmap : (size : Word) → Option (Area page size)}
    {mprotected : Bool} {headerSize : Word} {st : Stack}
    (mapped : s.mapped mmap mprotected headerSize = some st)
    (least : sizeofCoroutine ≤ headerSize.toNat)
    (room : headerSize.toNat + 128 ≤ page.bytes.toNat) :
    Placed
      { run := run
        stackOf := Function.update s.stackOf st.fiber.stackUpper.toNat st.fiber
        access := st.access
        asked := Function.update s.asked st.fiber.stackUpper.toNat headerSize
        made := Function.update s.made st.fiber.stackUpper.toNat headerSize }
      st.fiber.stackUpper.toNat := by
  -- The layout of a new stack is known.
  have layout := efFiberCreate_layout mapped room
  have usable := efFiberCreate_access mapped room
  have page_le := layout.page_le
  have lower := layout.lower
  have upper := layout.upper
  have pointer := layout.pointer
  unfold sizeofCoroutine at least
  refine ⟨?_, ?_, ?_, ?_, ?_, ?_, ?_, ?_⟩
  all_goals simp only [Function.update_self]
  · exact upper
  · omega
  · exact pointer
  · omega
  · omega
  · exact layout.low
  · intro a first last
    rw [usable a, if_pos ⟨by omega, last⟩]
    exact decide_eq_true first

/-- A coroutine that gets a new frame stays where it is. -/
theorem placed_reused (run : PoolRun) (headerSize : Word) (placed : Placed s co) :
    Placed
      { s with
        run := run
        stackOf := Function.update s.stackOf co
          { s.stackOf co with stackPtr := efFiberInternalInit (s.stackOf co).stackUpper }
        asked := Function.update s.asked co headerSize } co := by
  obtain ⟨address, header, filled, pointer, lower, area, low, usable⟩ := placed
  -- The frame is written at the distance from the end at which it was written first.
  have again : (efFiberInternalInit (s.stackOf co).stackUpper).toNat + 128 = co := by
    have words : (128 : Word).toNat = 128 := rfl
    rw [efFiberInternalInit, BitVec.toNat_sub, words]
    omega
  refine ⟨?_, ?_, filled, ?_, ?_, ?_, ?_, ?_⟩
  all_goals simp only [Function.update_self]
  · exact address
  · exact header
  · exact again
  · omega
  · exact area
  · exact low
  · exact usable

/-- A creation leaves the coroutines in their places, and gives a new one a place of its own. -/
theorem created (inv : HeaderInv s) (pool : PoolRunInv t.run)
    {mmap : (size : Word) → Option (Area page size)} {mprotected : Bool} {headerSize : Word}
    (least : sizeofCoroutine ≤ headerSize.toNat)
    (room : headerSize.toNat + 128 ≤ page.bytes.toNat)
    (new : ∀ st ∈ s.mapped mmap mprotected headerSize, ∀ co ∈ s.run.pool.fullList,
      st.fiber.Apart (s.stackOf co))
    (made : RoomMade s headerSize (s.mapped mmap mprotected headerSize) t) : HeaderInv t := by
  -- The cases are the three things that a creation can do to the memory.
  cases made with
  | refused run empty same =>
    refine ⟨pool, ?_, ?_⟩
    all_goals simp only [same]
    · exact fun co full => (inv.placed co full).kept rfl rfl fun _ _ _ => rfl
    · exact inv.apart
  | reused run co rest shape full free =>
    refine ⟨pool, ?_, ?_⟩
    all_goals simp only [full]
    · intro other known
      by_cases same : other = co
      · rw [same] at known ⊢
        exact placed_reused run headerSize (inv.placed co known)
      · exact (inv.placed other known).kept (Function.update_of_ne same _ _) rfl
          fun _ _ _ => rfl
    · -- The areas are the old ones.
      have areas : ∀ x, (Function.update s.stackOf co { s.stackOf co with
          stackPtr := efFiberInternalInit (s.stackOf co).stackUpper } x).stackArea =
            (s.stackOf x).stackArea ∧
          (Function.update s.stackOf co { s.stackOf co with
            stackPtr := efFiberInternalInit (s.stackOf co).stackUpper } x).stackSize =
            (s.stackOf x).stackSize := by
        intro x
        by_cases same : x = co
        · rw [same, Function.update_self]
          exact ⟨rfl, rfl⟩
        · rw [Function.update_of_ne same]
          exact ⟨rfl, rfl⟩
      intro first known second also differ
      have old := inv.apart first known second also differ
      simp only [FiberStack.Apart, areas] at old ⊢
      exact old
  | added run st mapped empty full free =>
    have apart := new st mapped
    have usable := efFiberCreate_access mapped room
    have unknown := inv.fresh mapped least room apart
    have other : ∀ co ∈ s.run.pool.fullList, co ≠ st.fiber.stackUpper.toNat :=
      fun co known same => unknown (same ▸ known)
    refine ⟨pool, ?_, ?_⟩
    all_goals simp only [full, List.mem_cons]
    · intro co known
      rcases known with same | known
      · rw [same]
        exact placed_added run mapped least room
      · apply (inv.placed co known).kept
        · exact Function.update_of_ne (other co known) _ _
        · exact Function.update_of_ne (other co known) _ _
        · -- The new area has no byte of the old stack.
          intro a first last
          show st.access a = s.access a
          rw [usable a, if_neg]
          intro inside
          rcases apart co known with below | above
          · omega
          · omega
    · intro first one second two differ
      rcases one with same | one
      · rcases two with also | two
        · exact absurd (same.trans also.symm) differ
        · rw [same, Function.update_self, Function.update_of_ne (other second two)]
          exact apart second two
      · rcases two with also | two
        · rw [also, Function.update_self, Function.update_of_ne (other first one)]
          exact (apart first one).symm
        · rw [Function.update_of_ne (other first one), Function.update_of_ne (other second two)]
          exact inv.apart first one second two differ

/-- The other operations unmap only the stacks of coroutines that leave the pool. -/
theorem others (inv : HeaderInv s) {op : HeaderOp page} (allowed : HeaderDiscipline s op)
    (stepped : headerStep s op = some t)
    (rest : ∀ headerSize fiberProc param mmap mprotected,
      op ≠ .create headerSize fiberProc param mmap mprotected) : HeaderInv t := by
  -- Whoever is in the pool now was in it before, with the same record.
  have discipline := inv.poolDiscipline allowed
  obtain ⟨run, moved, done⟩ := Option.map_eq_some_iff.mp stepped
  have kept := inv.pool.step discipline moved
  obtain ⟨chain, pool⟩ := inv.pool
  obtain ⟨left, _⟩ := pool.rest_move discipline moved (rest_poolOp rest)
  obtain ⟨after, stackOf, _, made, access⟩ := effect_rest run rest
  rw [done] at after stackOf made access
  refine ⟨after ▸ kept, ?_, ?_⟩
  all_goals rw [after]
  · intro co known
    have placed := inv.placed co (left co known)
    apply placed.kept (congrFun stackOf co) (congrFun made co)
    intro a first last
    rcases access with same | unmapped
    · rw [same]
    · rw [unmapped]
      apply HeaderPool.unmapped_apart
      · intro other gone
        exact (inv.placed other (List.mem_filter.mp gone).1).low
      · intro other gone inside
        have differ : other ≠ co := by
          intro same
          have absent := (List.mem_filter.mp gone).2
          rw [same] at absent
          simp [known] at absent
        rcases inv.apart other (List.mem_filter.mp gone).1 co (left co known) differ with
          below | above
        · omega
        · omega
  · rw [stackOf]
    exact fun first one second two =>
      inv.apart first (left first one) second (left second two)

/-- Every permitted operation keeps the coroutines in their places. -/
theorem step (inv : HeaderInv s) {op : HeaderOp page} (allowed : HeaderDiscipline s op)
    (stepped : headerStep s op = some t) : HeaderInv t := by
  -- Only a creation writes the records of the coroutines.
  by_cases creates : ∃ headerSize fiberProc param mmap mprotected,
      op = .create headerSize fiberProc param mmap mprotected
  · obtain ⟨headerSize, fiberProc, param, mmap, mprotected, same⟩ := creates
    have discipline := inv.poolDiscipline allowed
    obtain ⟨run, moved, done⟩ := Option.map_eq_some_iff.mp stepped
    have kept := inv.pool.step discipline moved
    rw [same] at stepped allowed done
    have after : t.run = run := by
      rw [← done]
      exact effect_run _ _
    obtain ⟨least, room, new⟩ := allowed
    exact inv.created (after ▸ kept) least room (fun st mapped => (new st mapped).1)
      (roomMade_of_step inv.pool stepped)
  · exact inv.others allowed stepped fun headerSize fiberProc param mmap mprotected same =>
      creates ⟨headerSize, fiberProc, param, mmap, mprotected, same⟩

/-- There is room for all exactly if no coroutine in use was made for less than it is asked for. -/
theorem roomForAll_sizes (inv : HeaderInv s) : RoomForAll s ↔ ∀ co ∈ s.run.pool.fullList,
    co ∉ s.run.pool.freeList → (s.asked co).toNat ≤ (s.made co).toNat := by
  -- For one coroutine it is a matter of the two sizes.
  unfold RoomForAll
  constructor
  · intro room co full busy
    exact (inv.placed co full).hasRoom_iff.mp (room co full busy)
  · intro sizes co full busy
    exact (inv.placed co full).hasRoom_iff.mpr (sizes co full busy)

/-- With room for all, an operation leaves room for all exactly if it re-uses what fits. -/
theorem roomForAll_iff (inv : HeaderInv s) (room : RoomForAll s) {op : HeaderOp page}
    (allowed : HeaderDiscipline s op) (stepped : headerStep s op = some t) :
    RoomForAll t ↔ ReusesFitting s op := by
  -- The cases are those of a creation, and then all the other operations.
  have after := inv.step allowed stepped
  rw [inv.roomForAll_sizes] at room
  rw [after.roomForAll_sizes]
  by_cases creates : ∃ headerSize fiberProc param mmap mprotected,
      op = .create headerSize fiberProc param mmap mprotected
  · obtain ⟨headerSize, fiberProc, param, mmap, mprotected, same⟩ := creates
    rw [same] at stepped ⊢
    have made := roomMade_of_step inv.pool stepped
    cases made with
    | refused run empty same =>
      -- Nothing has been free, and nothing changes.
      simp only [ReusesFitting, same, empty, List.head?_nil]
      rw [empty] at room
      constructor
      · exact fun _ _ absent => nomatch absent
      · exact fun _ => room
    | reused run co rest shape full free =>
      obtain ⟨chain, pool⟩ := inv.pool
      have nodup := pool.freeNodup
      have known := pool.freeFull co (by rw [shape]; exact List.mem_cons_self)
      rw [shape, List.nodup_cons] at nodup
      simp only [ReusesFitting, full, free, shape, List.head?_cons, Option.mem_some_iff,
        forall_eq']
      constructor
      · -- The head is in use now, with the header that has been asked for.
        intro sizes
        have size := sizes co known nodup.1
        rw [Function.update_self] at size
        exact size
      · intro fits other present busy
        by_cases same : other = co
        · rw [same, Function.update_self]
          exact fits
        · rw [Function.update_of_ne same]
          apply room other present
          rw [shape]
          exact fun free => (List.mem_cons.mp free).elim same busy
    | added run st mapped empty full free =>
      simp only [ReusesFitting, empty, full, free, List.mem_cons]
      constructor
      · exact fun _ _ absent => nomatch absent
      · intro _ other present _
        by_cases same : other = st.fiber.stackUpper.toNat
        · rw [same, Function.update_self, Function.update_self]
        · rw [Function.update_of_ne same, Function.update_of_ne same]
          apply room other (present.resolve_left same)
          rw [empty]
          exact List.not_mem_nil
  · -- Nothing is created, so whoever is in use has been so before.
    have rest : ∀ headerSize fiberProc param mmap mprotected,
        op ≠ .create headerSize fiberProc param mmap mprotected :=
      fun headerSize fiberProc param mmap mprotected same =>
        creates ⟨headerSize, fiberProc, param, mmap, mprotected, same⟩
    obtain ⟨run, moved, done⟩ := Option.map_eq_some_iff.mp stepped
    have discipline := inv.poolDiscipline allowed
    obtain ⟨chain, pool⟩ := inv.pool
    obtain ⟨left, busy⟩ := pool.rest_move discipline moved (rest_poolOp rest)
    obtain ⟨current, _, asked, made, _⟩ := effect_rest run rest
    rw [done] at current asked made
    have fits : ReusesFitting s op := by
      cases op with
      | create headerSize fiberProc param mmap mprotected =>
        exact absurd rfl (rest headerSize fiberProc param mmap mprotected)
      | resume | yield | exit | shrink => trivial
    rw [current, asked, made]
    exact ⟨fun _ => fits, fun _ co full used => room co (left co full) (busy co full used)⟩

end HeaderInv

/-- The pool with which a server begins, in whatever memory. -/
def HeaderPool.init (threadFiber : Ptr) (memory : Ptr → Fiber) (coroutines : Ptr → Coroutine)
    (stackSize : Nat) (limitMin limitMax : Int) (stackOf : Ptr → FiberStack)
    (access : Word → Bool) (asked made : Ptr → Word) : HeaderPool where
  run := ⟨efCoroutinePoolInit threadFiber memory coroutines stackSize limitMin limitMax, 0⟩
  stackOf := stackOf
  access := access
  asked := asked
  made := made

section Runs

variable {threadFiber : Ptr} {memory : Ptr → Fiber} {coroutines : Ptr → Coroutine}
variable {stackSize : Nat} {limitMin limitMax : Int} {stackOf : Ptr → FiberStack}
variable {access : Word → Bool} {asked made : Ptr → Word}

/-- A new pool has room for all of its coroutines, since there are none. -/
theorem roomForAll_init
    (unused : ∀ fiber, fiber ≠ threadFiber → (memory fiber).status ≠ fiberStatusInited) :
    HeaderInv (.init threadFiber memory coroutines stackSize limitMin limitMax stackOf access asked
        made) ∧
      RoomForAll (.init threadFiber memory coroutines stackSize limitMin limitMax stackOf access
        asked made) := by
  constructor
  · exact .initial stackOf access asked made unused
  · exact fun _ absent => nomatch absent

/-- An operation that re-uses what fits keeps the invariant and the room for all. -/
theorem HeaderInv.step_fitting {op : HeaderOp page} (holds : HeaderInv s ∧ RoomForAll s)
    (ok : HeaderDiscipline s op ∧ ReusesFitting s op) (stepped : headerStep s op = some t) :
    HeaderInv t ∧ RoomForAll t := by
  obtain ⟨inv, room⟩ := holds
  obtain ⟨allowed, fits⟩ := ok
  exact ⟨inv.step allowed stepped, (inv.roomForAll_iff room allowed stepped).mpr fits⟩

/-- Each step of a run leaves room for all exactly if each creation re-uses what fits. -/
theorem header_room_iff
    (unused : ∀ fiber, fiber ≠ threadFiber → (memory fiber).status ≠ fiberStatusInited)
    (ops : List (HeaderOp page)) (s : HeaderPool) :
    Run headerStep
        (fun r op => HeaderDiscipline r op ∧ ∀ t, headerStep r op = some t → RoomForAll t)
        (.init threadFiber memory coroutines stackSize limitMin limitMax stackOf access asked made)
        ops s ↔
      Run headerStep (fun r op => HeaderDiscipline r op ∧ ReusesFitting r op)
        (.init threadFiber memory coroutines stackSize limitMin limitMax stackOf access asked made)
        ops s := by
  -- The runs are compared step by step, under the invariant.
  constructor
  · intro run
    have kept : ∀ (r : HeaderPool) (op : HeaderOp page) (u : HeaderPool),
        HeaderInv r ∧ RoomForAll r →
        (HeaderDiscipline r op ∧ ∀ t, headerStep r op = some t → RoomForAll t) →
        headerStep r op = some u → HeaderInv u ∧ RoomForAll u :=
      fun r op u holds ok stepped => ⟨holds.1.step ok.1 stepped, ok.2 u stepped⟩
    apply run.strengthen (roomForAll_init unused) kept
    intro r op u holds ok stepped
    exact ⟨ok.1, (holds.1.roomForAll_iff holds.2 ok.1 stepped).mp (ok.2 u stepped)⟩
  · intro run
    -- The same invariant, which this time is kept because of what each creation re-uses.
    apply run.strengthen (roomForAll_init unused) fun r op u => HeaderInv.step_fitting
    intro r op u holds ok _
    exact ⟨ok.1, fun t stepped => (HeaderInv.step_fitting holds ok stepped).2⟩

end Runs

/-- The fiber of the system thread, over a memory without another one. -/
def soloMemory : Ptr → Fiber := fun _ => ⟨0, 0, none⟩

/-- No other fiber has been initialised there. -/
theorem soloMemory_unused (fiber : Ptr) (_ : fiber ≠ 1) :
    (soloMemory fiber).status ≠ fiberStatusInited := by
  show (0 : Int) ≠ 1
  decide

/-- A new pool of at most four coroutines, on the thread whose fiber has the address 1. -/
def newHeaderPool : HeaderPool :=
  .init 1 soloMemory (fun _ => ⟨⟨0, 0⟩, 0⟩) 4096 0 4 (fun _ => ⟨0, 0, 0, 0, 0⟩) (fun _ => false)
    (fun _ => 0) (fun _ => 0)

/-- What a run does up to the exit of its only coroutine, with a header of 128 bytes. -/
def firstUse : List (HeaderOp smallPage) :=
  [.create 128 40 0 mmapAt true, .resume 69504 7 ⟨5, 0⟩, .exit 3 ⟨6, 0⟩]

/-- A creation that finds this coroutine on the free list. -/
def secondUse (headerSize : Word) : HeaderOp smallPage :=
  .create headerSize 41 0 (fun _ => none) true

/-- The coroutine comes back from the free list, which it has for itself. -/
theorem secondUse_run (headerSize : Word) (least : sizeofCoroutine ≤ headerSize.toNat)
    (room : headerSize.toNat + 128 ≤ smallPage.bytes.toNat) : ∃ s t,
    Run headerStep (fun r op => HeaderDiscipline r op ∧ ReusesFitting r op) newHeaderPool
      firstUse s ∧
    HeaderDiscipline s (secondUse headerSize) ∧ headerStep s (secondUse headerSize) = some t ∧
    s.run.pool.freeList = [69504] ∧ s.made 69504 = 128 := by
  -- The pool has one thread fiber, and the chain holds nothing else.
  have off : ∀ {s : Sched}, s.currentFiber = 1 → s.threadFiber = 1 → ¬ OnChain s 69504 := by
    intro s current thread reached
    have chained : IsChain s [1] := thread.symm
    have member := chained.mem_of_onChain (by simp [current]) reached
    simp at member
  have away : (69504 : Ptr) ≠ 1 := by decide
  have apart : ∀ st ∈ newHeaderPool.mapped mmapAt true 128,
      st.fiber.stackUpper.toNat ≠ newHeaderPool.run.pool.fiberSched.threadFiber := by decide
  refine ⟨_, _, .cons ⟨⟨by decide, by decide, ?_⟩, fun _ absent => nomatch absent⟩ rfl <|
    .cons ⟨⟨?_, off rfl rfl⟩, trivial⟩ rfl <| .cons ⟨away, trivial⟩ rfl <| .start _,
    ⟨least, room, fun _ absent => nomatch absent⟩, rfl, rfl, rfl⟩
  · intro st mapped
    constructor
    · exact fun _ absent => nomatch absent
    · exact apart st mapped
  · decide

/-- On this free list a header fits if it is not larger than the first one. -/
theorem reusesFitting_second {headerSize : Word} (free : s.run.pool.freeList = [69504])
    (made : s.made 69504 = 128) :
    ReusesFitting s (secondUse headerSize) ↔ headerSize.toNat ≤ 128 := by
  have words : (128 : Word).toNat = 128 := rfl
  simp only [secondUse, ReusesFitting, free, List.head?_cons, Option.mem_some_iff, forall_eq', made,
    words]

/-- A coroutine made for 128 bytes is taken again for 120, and there is room for all throughout. -/
theorem header_room_reused : ∃ s : HeaderPool,
    Run headerStep
      (fun r op => HeaderDiscipline r op ∧ ∀ t, headerStep r op = some t → RoomForAll t)
      newHeaderPool (firstUse ++ [secondUse 120]) s := by
  obtain ⟨s, t, run, allowed, stepped, free, made⟩ := secondUse_run 120 (by decide) (by decide)
  have fits : ReusesFitting s (secondUse 120) := (reusesFitting_second free made).mpr (by decide)
  exact ⟨t, (header_room_iff soloMemory_unused _ t).mpr (run.next ⟨allowed, fits⟩ stepped)⟩

/-- A coroutine made for 128 bytes is taken again for 256, which reach past the end of its area. -/
theorem header_room_exceeded : ∃ s : HeaderPool,
    Run headerStep HeaderDiscipline newHeaderPool (firstUse ++ [secondUse 256]) s ∧
      ¬ RoomForAll s := by
  obtain ⟨s, t, run, allowed, stepped, free, made⟩ := secondUse_run 256 (by decide) (by decide)
  have loose := run.weaken fun _ _ ok => ok.1
  refine ⟨t, loose.next allowed stepped, fun room => ?_⟩
  -- Until then there has been room for all, so the last step must have used what fits.
  obtain ⟨inv, before⟩ := run.invariant (roomForAll_init soloMemory_unused)
    fun _ _ _ => HeaderInv.step_fitting
  have fits := (inv.roomForAll_iff before allowed stepped).mp room
  exact absurd ((reusesFitting_second free made).mp fits) (by decide)

end SimpleSrv.Ef
