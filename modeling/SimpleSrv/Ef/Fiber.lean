import Mathlib.Logic.Function.Basic
import Mathlib.Data.List.Basic

/-! The fiber scheduler: who runs, who is waiting for whom, and which value a switch delivers. -/

namespace SimpleSrv.Ef

/-- An address, zero being the null pointer. -/
abbrev Ptr := Nat

/-- `FIBER_STATUS_EXITED`. -/
def fiberStatusExited : Int := 0

/-- `FIBER_STATUS_INITED`. -/
def fiberStatusInited : Int := 1

/-- `ERROR_FIBER_EXITED`. -/
def errorFiberExited : Int := -1

/-- `ERROR_FIBER_NOT_INITED`. -/
def errorFiberNotInited : Int := -2

/-- Where execution goes on once a saved stack pointer has been loaded. -/
inductive Point where
  /-- At the start of `fiber_proc`, on the frame that `ef_fiber_internal_init` wrote. -/
  | entry (proc param : Ptr)
  /-- Behind the swap of the call of `ef_fiber_resume` with this number and argument. -/
  | resuming (call : Nat) (target : Ptr)
  /-- Behind the swap of the call of `ef_fiber_yield` with this number. -/
  | yielding (call : Nat)
  deriving DecidableEq, Repr

/-- What a saved stack pointer stands for: the stack it points into and the code that goes on. -/
structure Context where
  -- The pair is what the words on a saved stack amount to: where they lie and where they return to.
  stack : Ptr
  point : Point
  deriving DecidableEq, Repr

/-- The fields of `ef_fiber_t` that switching uses. -/
structure Fiber where
  status : Int
  parent : Ptr
  /-- Nothing is known to be behind a stack pointer that was never saved. -/
  stackPtr : Option Context
  deriving DecidableEq, Repr

/-- `ef_fiber_sched_t`, with the memory of all fibers and the stack that is in use. -/
structure Sched where
  currentFiber : Ptr
  threadFiber : Ptr
  fibers : Ptr → Fiber
  /-- The fiber on whose stack the processor is. -/
  running : Ptr

/-- What a switch of stacks delivers. -/
structure Arrival where
  /-- The fiber that goes on. -/
  fiber : Ptr
  point : Point
  /-- The return value of its pending swap. -/
  value : Int
  /-- The scheduler's `current_fiber` at this moment. -/
  current : Ptr
  deriving DecidableEq, Repr

namespace Sched

/-- Write to the fields of one fiber. -/
def modify (s : Sched) (fiber : Ptr) (change : Fiber → Fiber) : Sched :=
  -- The record is read from the old memory and written back under the same address.
  { s with fibers := Function.update s.fibers fiber (change (s.fibers fiber)) }

/-- A write shows exactly at the fiber it was made to. -/
theorem modify_fibers (s : Sched) (fiber other : Ptr) (change : Fiber → Fiber) :
    (s.modify fiber change).fibers other =
      if other = fiber then change (s.fibers fiber) else s.fibers other := by
  simp only [modify, Function.update_apply]

end Sched

/-- `ef_fiber_init_sched`, over whatever the memory of the fibers holds. -/
def efFiberInitSched (threadFiber : Ptr) (memory : Ptr → Fiber) : Sched where
  -- The thread that calls is the only fiber there is, and it runs.
  currentFiber := threadFiber
  threadFiber := threadFiber
  fibers := memory
  running := threadFiber

/-- `ef_fiber_init`, with the frame that `ef_fiber_internal_init` leaves on the fiber's stack. -/
def efFiberInit (s : Sched) (fiber proc param : Ptr) : Sched :=
  -- The parent is left as it was: nobody has resumed the fiber yet.
  s.modify fiber fun f =>
    { f with
      status := fiberStatusInited
      stackPtr := some ⟨fiber, .entry proc (if param ≠ 0 then param else fiber)⟩ }

/--
`ef_fiber_internal_swap(target, &saved->stack_ptr, retval)`, called at the given point.

There is no behaviour to describe when the target was never saved.
-/
def efFiberInternalSwap (s : Sched) (target : Option Context) (saved : Ptr) (point : Point)
    (retval : Int) : Option (Sched × Arrival) :=
  target.map fun context =>
    -- The stack being left is the one the processor is on, wherever its pointer is saved.
    let left := s.modify saved fun f => { f with stackPtr := some ⟨s.running, point⟩ }
    ({ left with running := context.stack },
      ⟨context.stack, context.point, retval, s.currentFiber⟩)

/-- How a call of `ef_fiber_resume` goes on. -/
inductive ResumeOutcome where
  /-- It has returned this error code. -/
  | returned (code : Int)
  /-- It has switched to the stack of its argument. -/
  | switched (s : Sched) (arrival : Arrival)

/-- `ef_fiber_resume`, up to its return or to its switch of stacks. -/
def efFiberResume (s : Sched) (target : Ptr) (sndval : Int) (call : Nat) : Option ResumeOutcome :=
  -- An exited fiber and one that was never initialised are told apart in the error only.
  if (s.fibers target).status ≠ fiberStatusInited then
    if (s.fibers target).status = fiberStatusExited then some (.returned errorFiberExited)
    else some (.returned errorFiberNotInited)
  else
    let current := s.currentFiber
    let s := s.modify target fun f => { f with parent := current }
    let s := { s with currentFiber := target }
    (efFiberInternalSwap s (s.fibers target).stackPtr current (.resuming call target) sndval).map
      fun (s, arrival) => .switched s arrival

/-- `ef_fiber_yield`, up to its switch of stacks. -/
def efFiberYield (s : Sched) (sndval : Int) (call : Nat) : Option (Sched × Arrival) :=
  -- The parent field is read before anything is written.
  let current := s.currentFiber
  let parent := (s.fibers current).parent
  let s := { s with currentFiber := parent }
  efFiberInternalSwap s (s.fibers parent).stackPtr current (.yielding call) sndval

/-- `_ef_fiber_exit`, reached when the `fiber_proc` on the current stack returns. -/
def efFiberExit (s : Sched) (retval : Int) : Option (Sched × Arrival) :=
  -- The fiber's own address is the last word on its stack.
  let fiber := s.running
  let s := s.modify fiber fun f => { f with status := fiberStatusExited }
  let parent := (s.fibers fiber).parent
  let s := { s with currentFiber := parent }
  (s.fibers parent).stackPtr.map fun context =>
    ({ s with running := context.stack }, ⟨context.stack, context.point, retval, s.currentFiber⟩)

/-- What the code on the current stack can ask of the scheduler. -/
inductive FiberOp where
  | init (fiber proc param : Ptr)
  | resume (target : Ptr) (sndval : Int)
  | yield (sndval : Int)
  /-- The running fiber's `fiber_proc` returns. -/
  | exit (retval : Int)
  deriving DecidableEq, Repr

/-- What has happened, each event naming first the fiber that caused it. -/
inductive FiberEvent where
  | inited (actor fiber proc param : Ptr)
  | refused (actor target : Ptr) (code : Int)
  | resumed (actor target : Ptr) (sndval : Int) (arrival : Arrival)
  | yielded (actor : Ptr) (sndval : Int) (arrival : Arrival)
  | exited (actor : Ptr) (retval : Int) (arrival : Arrival)
  deriving DecidableEq, Repr

/-- The scheduler together with everything that has happened on it, oldest first. -/
structure Fibers where
  sched : Sched
  log : List FiberEvent

/-- One operation of the running code, numbered by its place in the log. -/
def fiberStep (m : Fibers) : FiberOp → Option Fibers
  | .init fiber proc param =>
    some ⟨efFiberInit m.sched fiber proc param, m.log ++ [.inited m.sched.running fiber proc param]⟩
  | .resume target sndval =>
    (efFiberResume m.sched target sndval m.log.length).map fun
      | .returned code => { m with log := m.log ++ [.refused m.sched.running target code] }
      | .switched s arrival => ⟨s, m.log ++ [.resumed m.sched.running target sndval arrival]⟩
  | .yield sndval =>
    (efFiberYield m.sched sndval m.log.length).map fun (s, arrival) =>
      ⟨s, m.log ++ [.yielded m.sched.running sndval arrival]⟩
  | .exit retval =>
    (efFiberExit m.sched retval).map fun (s, arrival) =>
      ⟨s, m.log ++ [.exited m.sched.running retval arrival]⟩

/-- The fibers from the current one up through its parents to the system thread. -/
inductive OnChain (s : Sched) : Ptr → Prop
  | current : OnChain s s.currentFiber
  | parent {fiber : Ptr} : OnChain s fiber → fiber ≠ s.threadFiber →
      OnChain s (s.fibers fiber).parent

/-- What callers of the scheduler owe it. -/
def FiberDiscipline (m : Fibers) : FiberOp → Prop
  -- The stack of a fiber on the chain is in use, so no new frame may be written to it.
  | .init fiber _ _ => ¬ OnChain m.sched fiber
  | .resume target _ =>
    (m.sched.fibers target).status = fiberStatusInited → ¬ OnChain m.sched target
  -- The system thread has no parent and no `fiber_proc` to return from.
  | .yield _ => m.sched.currentFiber ≠ m.sched.threadFiber
  | .exit _ => m.sched.running ≠ m.sched.threadFiber

end SimpleSrv.Ef
