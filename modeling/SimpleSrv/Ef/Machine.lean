import SimpleSrv.Ef.Coroutine
import SimpleSrv.Ef.Routine

/-! The coroutines that run connection handlers, on one pool, one kernel and one clock. -/

namespace SimpleSrv.Ef

/-- `FD_TYPE_LISTEN` and `FD_TYPE_RWC`. -/
inductive FdType where
  | listen | rwc
  deriving DecidableEq, Repr

/-- `ef_poll_data_t`, all of them belonging to one runtime. -/
structure PollData where
  type : FdType
  fd : Fd
  routinePtr : Ptr
  efProc : Ptr
  deriving DecidableEq, Repr

/-- How far a coroutine has come in `ef_proc`. -/
inductive Stage where
  /-- Nowhere, as it has not been started or has exited. -/
  | idle
  /-- At the first line. -/
  | entry
  /-- In the connection handler. -/
  | handler
  /-- In the yield of this call, which made the association with this number. -/
  | waiting (call : RoutineCall) (retval : Int) (ticket : Nat)
  /-- Right behind that yield, which has returned these events. -/
  | woken (call : RoutineCall) (retval : Int) (ticket : Nat) (events : Nat)
  deriving DecidableEq, Repr

/-- What a coroutine waits for: a descriptor, and the association that it made for it. -/
def Stage.waitsFor : Stage → Option (Fd × Nat)
  | .waiting call _ ticket | .woken call _ ticket _ => some (call.fd, ticket)
  | .idle | .entry | .handler => none

/-- The part of `ef_routine_t` behind its coroutine, and what is on the stack of that coroutine. -/
structure Routine where
  pollData : PollData
  /-- The local variable `fd` of `ef_proc`. -/
  connFd : Fd
  stage : Stage
  /-- What the last call returned to the handler. -/
  result : Answer
  /-- The number of the call that started this run, which the program never sees. -/
  run : Nat
  /-- The handler has closed its connection, of which the program keeps no record. -/
  closedConn : Bool
  deriving DecidableEq, Repr

/-- What a coroutine does when a resume gives it this value. -/
def Routine.goOn (r : Routine) (value : Nat) : Routine :=
  match r.stage with
  | .entry => { r with stage := .handler, connFd := r.pollData.fd }
  | .waiting call retval ticket => { r with stage := .woken call retval ticket value }
  | .idle | .handler | .woken _ _ _ _ => r

/-- The coroutines with everything they work on. -/
structure Machine where
  pool : Pool
  kernel : Kernel
  routines : Ptr → Routine
  /-- The number of the next call. -/
  number : Nat
  /-- What `gettimeofday` answers. -/
  clock : TimeVal

/-- The address of `ef_proc`. -/
def efProcAddress : Ptr := 1

/-- A coroutine that has been handed out and has not exited since. -/
def Pool.Busy (pool : Pool) (er : Ptr) : Prop := er ∈ pool.fullList ∧ er ∉ pool.freeList

instance (pool : Pool) (er : Ptr) : Decidable (pool.Busy er) := inferInstanceAs (Decidable (_ ∧ _))

/-- Leave what a finished handler has not closed to nobody. -/
def Kernel.orphan (k : Kernel) (er : Ptr) : Kernel :=
  { k with owner := fun fd =>
      if k.owner fd = some (.routine er) then some .other else k.owner fd }

/-- Give a queued connection to the coroutine that is started for it. -/
def Kernel.handOver (k : Kernel) (fd : Fd) (er : Ptr) : Kernel :=
  if k.owner fd = some .queued then k.give fd (.routine er) else k

namespace Machine

/-- Write to the record of one coroutine. -/
def modify (m : Machine) (er : Ptr) (change : Routine → Routine) : Machine :=
  { m with routines := Function.update m.routines er (change (m.routines er)) }

/-- `ef_coroutine_resume` as the framework calls it, with the first thing the coroutine does. -/
def resume (m : Machine) (er : Ptr) (toYield : Nat) : Option Machine :=
  (efCoroutineResume m.pool er toYield m.number m.clock).map fun pool =>
    let m := { m with pool := pool, number := m.number + 1 }
    -- A resume that is refused wakes nobody.
    if efCoroutineCurrent pool = some er then m.modify er fun r => r.goOn toYield else m

/-- The yield of the coroutine in the call with this number. -/
def yield (m : Machine) : Option Machine :=
  (m.pool.yield 0 m.number m.clock).map fun pool => { m with pool := pool, number := m.number + 1 }

/-- Leave a part of a call that ends like this. -/
def leave (m : Machine) (er : Ptr) (call : RoutineCall) (ticket : Nat) :
    Kernel × Outcome → Option Machine
  | (kernel, .waiting retval) =>
    ({ m with kernel := kernel }.modify er fun r =>
      { r with stage := .waiting call retval ticket }).yield
  | (kernel, .returned answer) =>
    some ({ m with kernel := kernel, number := m.number + 1 }.modify er fun r =>
      { r with stage := .handler, result := answer })

/-- Point the poll data of a coroutine at the descriptor of the call it is about to make. -/
def aim (m : Machine) (er : Ptr) (fd : Fd) : Machine :=
  m.modify er fun r => { r with pollData := { r.pollData with type := .rwc, fd := fd } }

/-- The end of `ef_proc`, when its handler has returned this value. -/
def finish (m : Machine) (er : Ptr) (retval : Int) : Option Machine :=
  let kernel := (efRoutineClose m.kernel (m.routines er).connFd).1
  (m.pool.exit retval m.clock).map fun pool =>
    { m with pool := pool, kernel := kernel.orphan er, number := m.number + 1 }.modify er fun r =>
      { r with stage := .idle }

end Machine

/-- `ef_routine_run`, given what `ef_fiber_create` would answer. -/
def efRoutineRun (m : Machine) (proc : Ptr) (socket : Fd) (mapped : Option Ptr) :
    Option (Machine × Int) :=
  (efCoroutineCreate m.pool efProcAddress 0 mapped).bind fun
    | (pool, none) => some ({ m with pool := pool }, -1)
    | (pool, some er) =>
      let kernel := m.kernel.handOver socket er
      let m := { m with pool := pool, kernel := kernel }.modify er fun r =>
        { r with
          pollData := ⟨.rwc, socket, er, proc⟩
          stage := .entry
          run := m.number
          closedConn := false }
      (m.resume er 0).map fun m => (m, 0)

/-- What the running coroutine does, with what the kernel answers. -/
inductive HandlerOp where
  | transfer (kind : Transfer) (fd : Fd) (refusal : Option Int) (answer : Answer)
  | connect (sockfd : Fd) (answers : ConnectAnswers)
  /-- The rest of the call whose yield has just returned, up to its next yield or its end. -/
  | goOn (answer : Answer)
  | close (fd : Fd)
  /-- The handler opens a descriptor. -/
  | socket (fd : Fd)
  /-- The handler returns. -/
  | ret (retval : Int)
  deriving DecidableEq, Repr

/-- The coroutine executes its handler, of which there is none behind a null pointer. -/
def Machine.InHandler (m : Machine) (er : Ptr) : Prop :=
  (m.routines er).stage = .handler ∧ (m.routines er).pollData.efProc ≠ 0

instance (m : Machine) (er : Ptr) : Decidable (m.InHandler er) :=
  inferInstanceAs (Decidable (_ ∧ _))

/-- One step of the running coroutine. -/
def handlerStep (m : Machine) (op : HandlerOp) : Option Machine :=
  (efCoroutineCurrent m.pool).bind fun er =>
    match op with
    | .transfer kind fd refusal answer =>
      if m.InHandler er then
        (m.aim er fd).leave er (.transfer kind fd) m.number
          (kind.io.start m.kernel er fd m.number refusal answer)
      else none
    | .connect sockfd answers =>
      if m.InHandler er then
        (m.aim er sockfd).leave er (.connect sockfd) m.number
          (efRoutineConnect m.kernel er sockfd m.number answers)
      else none
    | .goOn answer =>
      match (m.routines er).stage with
      | .woken call retval ticket events =>
        m.leave er call ticket (call.woken m.kernel retval events answer)
      | _ => none
    | .close fd =>
      if m.InHandler er then
        some ({ m with kernel := (efRoutineClose m.kernel fd).1, number := m.number + 1 }.modify er
          fun r => { r with closedConn := r.closedConn || fd = r.connFd })
      else none
    | .socket fd =>
      if m.InHandler er ∧ m.kernel.Unused fd then
        some { m with kernel := m.kernel.give fd (.routine er), number := m.number + 1 }
      else none
    | .ret retval =>
      if (m.routines er).stage = .handler then
        m.finish er (if (m.routines er).pollData.efProc = 0 then 0 else retval)
      else none

end SimpleSrv.Ef
