import SimpleSrv.Ef.Machine

/-! The event loop of the framework, with the queues of accepted connections and the shutdown. -/

namespace SimpleSrv.Ef

/-- `ef_listen_info_t`, its `fd_list` holding the queued nodes from the oldest on. -/
structure ListenInfo where
  pollData : PollData
  efProc : Ptr
  fdList : List Ptr
  deriving DecidableEq, Repr

/-- What the loop has done, oldest first; the program keeps no record of it. -/
inductive LoopEvent where
  /-- A listener has been put on the list for this socket. -/
  | listened (li : Ptr) (fd : Fd)
  /-- A connection has been put on the list of this listener. -/
  | queued (li : Ptr) (fd : Fd)
  /-- A coroutine has entered `ef_proc` for this listener, with what it read from its poll data. -/
  | started (li er proc : Ptr) (fd : Fd) (run : Nat)
  /-- The run with this number has returned from `ef_proc`. -/
  | exited (er : Ptr) (run : Nat)
  /-- The listening socket has been dissociated and closed. -/
  | listenClosed (li : Ptr) (fd : Fd)
  | listenFreed (li : Ptr)
  | pollFreed
  deriving DecidableEq, Repr

/-- Where the system thread is, `ent` and `enf` being absent at the list's own entry. -/
inductive Pc where
  /-- In the calls of `ef_add_listen` that come before the loop. -/
  | setUp
  | associate (ent : Option Ptr)
  | wait
  /-- At the event at the head of what is left of the batch. -/
  | dispatch (batch : List Event)
  /-- In the accept loop of this listener. -/
  | accept (li : Ptr) (batch : List Event)
  | queue (ent : Option Ptr)
  | queueFd (ent : Ptr) (enf : Option Ptr)
  /-- In `ef_routine_run` for the node `qf`. -/
  | queueRun (ent qf : Ptr) (enf : Option Ptr)
  | exitQueue
  /-- At the shrink that ends an iteration. -/
  | shrink
  | halted (ret : Int)
  deriving DecidableEq, Repr

/-- `ef_runtime_t`, the memory it uses, and the state of `ef_run_loop`. -/
structure World where
  machine : Machine
  pc : Pc
  stopping : Bool
  shrinkMillisecs : Int
  countPerShrink : Int
  listens : Ptr → ListenInfo
  listenList : List Ptr
  /-- The field `fd` of each `ef_queue_fd_t`. -/
  queueFds : Ptr → Fd
  freeFdList : List Ptr
  /-- The nodes that have been allocated and not been freed. -/
  nodes : List Ptr
  trace : List LoopEvent

/-- `ef_init`, once the poll object is created and the pool is initialised. -/
def efInit (pool : Pool) (opened : Fd → Bool) (routines : Ptr → Routine) (clock : TimeVal)
    (listens : Ptr → ListenInfo) (queueFds : Ptr → Fd) (shrinkMillisecs countPerShrink : Int) :
    World where
  machine :=
    { pool := pool
      kernel := ⟨fun fd => if opened fd then some .other else none, fun _ => none⟩
      routines := routines
      number := 0
      clock := clock }
  pc := .setUp
  stopping := false
  shrinkMillisecs := shrinkMillisecs
  countPerShrink := countPerShrink
  -- No memory is known to be free of old contents, only the lists are empty.
  listens := listens
  listenList := []
  queueFds := queueFds
  freeFdList := []
  nodes := []
  trace := []

/-- What `ef_init` is given, and what the memory holds that it does not initialise. -/
structure Setting where
  stackSize : Nat
  limitMin : Int
  limitMax : Int
  shrinkMillisecs : Int
  countPerShrink : Int
  threadFiber : Ptr
  fibers : Ptr → Fiber
  coroutines : Ptr → Coroutine
  routines : Ptr → Routine
  listens : Ptr → ListenInfo
  queueFds : Ptr → Fd
  /-- The descriptors that are open already. -/
  opened : Fd → Bool
  clock : TimeVal
  /-- No memory holds a usable fiber before one is made on it. -/
  unused : ∀ fiber, fiber ≠ threadFiber → (fibers fiber).status ≠ fiberStatusInited

/-- The world in which `ef_init` has just returned. -/
def Setting.world (setting : Setting) : World :=
  efInit
    (efCoroutinePoolInit setting.threadFiber setting.fibers setting.coroutines setting.stackSize
      setting.limitMin setting.limitMax)
    setting.opened setting.routines setting.clock setting.listens setting.queueFds
    setting.shrinkMillisecs setting.countPerShrink

/-- The entry behind this one, or nothing at the end of the list. -/
def entryAfter (list : List Ptr) (entry : Ptr) : Option Ptr :=
  match list with
  | [] => none
  | first :: rest => if first = entry then rest.head? else entryAfter rest entry

namespace World

/-- Write to one `ef_listen_info_t`. -/
def modifyListen (w : World) (li : Ptr) (change : ListenInfo → ListenInfo) : World :=
  { w with listens := Function.update w.listens li (change (w.listens li)) }

/-- Work on the kernel alone. -/
def withKernel (w : World) (kernel : Kernel) : World :=
  { w with machine := { w.machine with kernel := kernel } }

/-- Work on the pool alone. -/
def withPool (w : World) (pool : Pool) : World :=
  { w with machine := { w.machine with pool := pool } }

/-- The `ef_poll_data_t` behind a pointer. -/
def pollData (w : World) : PollPtr → PollData
  | .listen li => (w.listens li).pollData
  | .routine er => (w.machine.routines er).pollData

end World

/-- `ef_add_listen`, with the answers of `fcntl` and `malloc`. -/
def efAddListen (w : World) (socket : Fd) (proc : Ptr) (setfl : Int) (mapped : Option Ptr) :
    World × Int :=
  if setfl < 0 then (w, setfl)
  else
    match mapped with
    | none => (w, -1)
    | some li =>
      ({ w with
        machine := { w.machine with kernel := w.machine.kernel.give socket .listener }
        listens := Function.update w.listens li ⟨⟨.listen, socket, 0, 0⟩, proc, []⟩
        listenList := li :: w.listenList
        trace := w.trace ++ [LoopEvent.listened li socket] }, 0)

/-- What the calls in `ef_queue_fd` answer. -/
structure QueueAnswers where
  /-- The flag `O_NONBLOCK` is set already. -/
  nonblock : Bool
  setfl : Int
  /-- What `malloc` returns. -/
  node : Option Ptr
  deriving DecidableEq, Repr

/-- The end of `ef_queue_fd`, which has found a node for the connection. -/
def World.enqueue (w : World) (li qf : Ptr) (fd : Fd) : World :=
  { w with
    machine := { w.machine with kernel := w.machine.kernel.give fd .queued }
    queueFds := Function.update w.queueFds qf fd
    trace := w.trace ++ [LoopEvent.queued li fd] }.modifyListen li fun info =>
      { info with fdList := info.fdList ++ [qf] }

/-- `ef_queue_fd`. -/
def efQueueFd (w : World) (li : Ptr) (fd : Fd) (answers : QueueAnswers) : World × Int :=
  if !answers.nonblock ∧ answers.setfl < 0 then (w, answers.setfl)
  else
    match w.freeFdList with
    | qf :: rest => ({ w with freeFdList := rest }.enqueue li qf fd, 0)
    | [] =>
      match answers.node with
      | some qf => ({ w with nodes := qf :: w.nodes }.enqueue li qf fd, 0)
      -- Without memory for a node the new connection is closed.
      | none => (w.withKernel (w.machine.kernel.close fd).1, -1)

/-- Close the socket of a listener, unless that has been done. -/
def World.closeListen (w : World) (li : Ptr) : World :=
  let fd := (w.listens li).pollData.fd
  if fd ≥ 0 then
    let kernel := ((efEpollDissociate w.machine.kernel fd false false).1.close fd).1
    { w.withKernel kernel with trace := w.trace ++ [LoopEvent.listenClosed li fd] }.modifyListen li
      fun info => { info with pollData := { info.pollData with fd := -1 } }
  else w

/-- Free a listener whose queue is empty. -/
def World.freeListen (w : World) (li : Ptr) : World :=
  if (w.listens li).fdList = [] then
    { w with
      listenList := w.listenList.erase li
      trace := w.trace ++ [LoopEvent.listenFreed li] }
  else w

/-- One turn of the loop that closes the listening sockets. -/
def World.stopListen (w : World) (li : Ptr) : World := (w.closeListen li).freeListen li

/-- The loop that closes the listening sockets, over the list as it finds it. -/
def World.stopListens (w : World) : World :=
  -- Each turn takes the next entry before it removes its own, so the walk meets every entry.
  w.listenList.foldl World.stopListen w

/-- The loop that frees the unused nodes. -/
def World.freeNodes (w : World) : World :=
  { w with nodes := w.nodes.diff w.freeFdList, freeFdList := [] }

/-- The code behind the label `exit_queue`, up to the last shrink of the iteration. -/
def World.exitQueue (w : World) : World :=
  if w.stopping then
    let w := w.stopListens.freeNodes
    let pool := w.machine.pool
    if pool.freeCount = pool.fullCount then
      -- Freeing the poll object ends every registration that is left.
      let w := { w.withKernel { w.machine.kernel with interest := fun _ => none } with
        trace := w.trace ++ [LoopEvent.pollFreed] }
      { w.withPool (efCoroutinePoolShrink pool 0 (-pool.fullCount) w.machine.clock).1 with
        pc := .halted 0 }
    else
      { w.withPool (efCoroutinePoolShrink pool 0 (-pool.freeCount) w.machine.clock).1 with
        pc := .shrink }
  else { w with pc := .shrink }

/-- The shrink that ends an iteration. -/
def World.shrink (w : World) : World :=
  let pool := w.machine.pool
  let w := { w with pc := .wait }
  if pool.freeCount > 0 ∧ pool.fullCount > pool.limitMin then
    w.withPool
      (efCoroutinePoolShrink pool w.shrinkMillisecs w.countPerShrink w.machine.clock).1
  else w

/-- What the poll's wait answers. -/
inductive WaitAnswer where
  | failed (errno : Int)
  /-- The descriptors that are ready, each with its events. -/
  | reported (ready : List (Fd × Nat))
  deriving DecidableEq, Repr

/-- What `accept` answers, and what the calls in `ef_queue_fd` do with the new connection. -/
inductive AcceptAnswer where
  | failed
  | accepted (fd : Fd) (answers : QueueAnswers)
  deriving DecidableEq, Repr

/-- A step of the system thread, with what the kernel and the allocator answer. -/
inductive LoopOp where
  | addListen (socket : Fd) (proc : Ptr) (setfl : Int) (mapped : Option Ptr)
  /-- The call of `ef_run_loop`. -/
  | run
  | associate (refusal : Option Int)
  | wait (answer : WaitAnswer)
  | accept (answer : AcceptAnswer)
  | start (mapped : Option Ptr)
  /-- A step that depends on nothing outside. -/
  | advance
  deriving DecidableEq, Repr

/-- The event of a coroutine that has just entered `ef_proc` for this listener. -/
def Machine.startedEvents (m : Machine) (li : Ptr) : List LoopEvent :=
  match efCoroutineCurrent m.pool with
  | none => []
  | some er =>
    let r := m.routines er
    [.started li er r.pollData.efProc r.connFd r.run]

/-- The event of the running coroutine, if this operation is its last. -/
def Machine.exitedEvents (m : Machine) : HandlerOp → List LoopEvent
  | .ret _ =>
    match efCoroutineCurrent m.pool with
    | none => []
    | some er => [.exited er (m.routines er).run]
  | .transfer _ _ _ _ | .connect _ _ | .goOn _ | .close _ | .socket _ => []

namespace World

/-- The next event of the batch, or the end of the batch. -/
def dispatch (w : World) : List Event → Option World
  | [] => some { w with pc := .queue w.listenList.head? }
  | event :: batch =>
    let ed := w.pollData event.ptr
    match ed.type with
    | .listen =>
      match event.ptr with
      | .listen li => some { w with pc := .accept li batch }
      -- No listener contains the poll data of a coroutine.
      | .routine _ => none
    | .rwc =>
      (w.machine.resume ed.routinePtr event.events).map fun machine =>
        { w with machine := machine, pc := .dispatch batch }

/-- A step that depends on nothing outside. -/
def advance (w : World) : Option World :=
  match w.pc with
  | .associate none => some { w with pc := .wait }
  | .dispatch batch => w.dispatch batch
  | .queue none => some { w with pc := .exitQueue }
  | .queue (some li) => some { w with pc := .queueFd li (w.listens li).fdList.head? }
  | .queueFd li none => some { w with pc := .queue (entryAfter w.listenList li) }
  | .queueRun li qf enf =>
    -- The coroutine has yielded or exited, so its node goes to the free nodes.
    some { w.modifyListen li fun info => { info with fdList := info.fdList.erase qf } with
      freeFdList := qf :: w.freeFdList
      pc := .queueFd li enf }
  | .exitQueue => some w.exitQueue
  | .shrink => some w.shrink
  | .setUp | .associate (some _) | .wait | .accept _ _ | .queueFd _ (some _) | .halted _ => none

/-- The poll's wait, with an array of 1024 events. -/
def wait (w : World) : WaitAnswer → Option World
  | .failed errno =>
    if errno = eintr then some { w with pc := .queue w.listenList.head? }
    else some { w with pc := .halted (-1) }
  | .reported ready =>
    if w.machine.kernel.Reports 1024 ready then
      some { w with pc := .dispatch (efEpollWait w.machine.kernel ready) }
    else none

/-- One turn of the accept loop. -/
def accept (w : World) (li : Ptr) (batch : List Event) : AcceptAnswer → Option World
  -- Unsetting the listener and associating it again are no operations with epoll.
  | .failed => some { w with pc := .dispatch batch }
  | .accepted fd answers =>
    -- The kernel opens a new number, and the allocator returns memory that is not in use.
    if w.machine.kernel.Unused fd ∧ ∀ node ∈ answers.node, node ∉ w.nodes then
      let (w, ret) := efQueueFd (w.withKernel (w.machine.kernel.give fd .other)) li fd answers
      some (if ret < 0 then { w with pc := .dispatch batch } else w)
    else none

/-- The start of a coroutine for the node `qf`. -/
def start (w : World) (li qf : Ptr) (mapped : Option Ptr) : Option World :=
  -- The loop moves on to the next entry before it runs anything.
  let enf := entryAfter (w.listens li).fdList qf
  (efRoutineRun w.machine (w.listens li).efProc (w.queueFds qf) mapped).map fun (machine, ret) =>
    if ret < 0 then { w with machine := machine, pc := .exitQueue }
    else
      { w with
        machine := machine
        pc := .queueRun li qf enf
        trace := w.trace ++ machine.startedEvents li }

/-- A step of the system thread. -/
def loopStep (w : World) (op : LoopOp) : Option World :=
  match w.pc, op with
  | .setUp, .addListen socket proc setfl mapped =>
    if 0 ≤ socket ∧ ∀ li ∈ mapped, li ∉ w.listenList then
      some (efAddListen w socket proc setfl mapped).1
    else none
  | .setUp, .run => some { w with pc := .associate w.listenList.head? }
  | .associate (some li), .associate refusal =>
    let fd := (w.listens li).pollData.fd
    let (kernel, ret) := efEpollAssociate w.machine.kernel fd efPollIn (.listen li) false
      w.machine.number refusal
    let pc := if ret.value < 0 then .halted ret.value else .associate (entryAfter w.listenList li)
    some { w.withKernel kernel with pc := pc }
  | .wait, .wait answer => w.wait answer
  | .accept li batch, .accept answer => w.accept li batch answer
  | .queueFd li (some qf), .start mapped => w.start li qf mapped
  | _, .advance => w.advance
  | _, _ => none

end World

/-- What can happen next, in the loop or beside it. -/
inductive Label where
  /-- Time passes. -/
  | tick (now : TimeVal)
  /-- Someone sets `stopping`. -/
  | stop
  | loop (op : LoopOp)
  | handler (op : HandlerOp)
  deriving DecidableEq, Repr

/-- One step of the system thread or of the coroutine that runs on top of it. -/
def step (w : World) : Label → Option World
  | .tick now => some { w with machine := { w.machine with clock := now } }
  | .stop => some { w with stopping := true }
  | .loop op => if efCoroutineCurrent w.machine.pool = none then w.loopStep op else none
  | .handler op =>
    (handlerStep w.machine op).map fun machine =>
      { w with machine := machine, trace := w.trace ++ w.machine.exitedEvents op }

/-- What the kernel owes the program: memory that it maps is not in use. -/
def KernelOk (w : World) : Label → Prop
  | .loop (.start mapped) => w.machine.pool.Fresh mapped
  | _ => True

instance (w : World) : (label : Label) → Decidable (KernelOk w label)
  | .loop (.start mapped) => inferInstanceAs (Decidable (w.machine.pool.Fresh mapped))
  | .loop (.addListen _ _ _ _) | .loop .run | .loop (.associate _) | .loop (.wait _)
  | .loop (.accept _) | .loop .advance | .tick _ | .stop | .handler _ =>
    inferInstanceAs (Decidable True)

end SimpleSrv.Ef
