import SimpleSrv.Nebula.Channel
import SimpleSrv.Lib.Run

/-! The nebula server: the main reactor adds connections, the sub-reactors serve and delete them. -/

namespace SimpleSrv.Nebula

/-- The fields of a `Connection` that dispatching and deletion use. -/
structure ServerConn where
  channel : Channel
  deleteCallback : Bool := false
  onConnectCallback : Bool := false
  deriving DecidableEq, Repr

/-- Tell the channel of a connection about events. -/
def ServerConn.report (c : ServerConn) (events : Nat) : ServerConn :=
  { c with channel := c.channel.report events }

/-- Where the main reactor is in `Server::NewConnection`. -/
inductive MainPc where
  | idle
  /-- Behind the constructor. -/
  | constructed (conn : Nat)
  /-- Behind `SetDeleteConnectionCallback`. -/
  | deletable (conn : Nat)
  /-- Behind `SetOnConnectCallback`. -/
  | callable (conn : Nat)
  deriving DecidableEq, Repr

/-- The connection that the main reactor is setting up. -/
def MainPc.building : MainPc → Option Nat
  | .idle => none
  | .constructed conn | .deletable conn | .callable conn => some conn

/-- Where a sub-reactor is in `EventLoop::Loop` and in what it calls. -/
inductive LoopPc where
  | poll
  /-- At the head of the loop over the batch. -/
  | loop
  /-- In `HandleEvent`, before its first condition. -/
  | check (ch : Nat)
  /-- In the handler, which the read callback has called. -/
  | handler (ch : Nat)
  /-- In `DeleteConnection`, behind a look-up that has found this descriptor. -/
  | erase (ch : Nat) (fd : Fd)
  /-- In `DeleteConnection`, before `delete conn`. -/
  | destroy (ch : Nat) (conn : Option Nat)
  /-- In `~Connection`, before `delete sock_`. -/
  | shut (ch conn : Nat)
  /-- In the handler, behind a `Close` that has deleted a connection. -/
  | closed (ch : Nat)
  /-- In `HandleEvent`, before its second condition. -/
  | again (ch : Nat)
  deriving DecidableEq, Repr

/-- A sub-reactor: its poller, the rest of its batch, and its thread. -/
structure Reactor where
  epoll : Epoll
  batch : List Nat
  pc : LoopPc

/-- A use of a channel, with whether it was live then. -/
structure Use where
  channel : Nat
  live : Bool
  deriving DecidableEq, Repr

/-- What is known about a server before it accepts anything. -/
structure Setting where
  /-- The number of sub-reactors. -/
  size : Nat
  positive : 0 < size
  /-- The descriptors that other parts of the process hold. -/
  inUse : List Fd
  /-- Whether `Server::OnConnect` has been given a function. -/
  onConnect : Bool

/-- The server with its threads, the kernel's descriptors and the objects of the heap. -/
structure Server where
  /-- The connections in the order of their construction, each with its channel. -/
  conns : Nat → ServerConn
  created : Nat
  /-- The channels that exist. -/
  live : List Nat
  connections : Fd → Option Nat
  /-- The connection whose socket holds a descriptor. -/
  owner : Fd → Option Nat
  main : MainPc
  reactors : Nat → Reactor
  /-- The uses of channels by the loops, oldest first. -/
  uses : List Use

/-- The steps of the main reactor. -/
inductive MainOp where
  /-- `accept` has returned a descriptor, for which the connection is constructed. -/
  | construct (fd : Fd)
  | setDeleteConnectionCallback
  | setOnConnectCallback
  | record
  deriving DecidableEq, Repr

/-- The steps of a sub-reactor. -/
inductive LoopOp where
  /-- `epoll_wait` reports these events for these descriptors. -/
  | poll (report : List (Fd × Nat))
  | next
  | check
  /-- The handler calls `Connection::Close`, up to the look-up in `DeleteConnection`. -/
  | close
  | erase
  | destroy
  | shut
  /-- The handler returns. -/
  | ret
  /-- The second condition, which reads this value where the channel has been freed. -/
  | again (stale : Nat)
  deriving DecidableEq, Repr

/-- One step of one thread. -/
inductive Label where
  | main (op : MainOp)
  | sub (i : Nat) (op : LoopOp)
  deriving DecidableEq, Repr

/-- The server before the first connection. -/
def Setting.server (_ : Setting) : Server where
  conns _ := { channel := { loop := 0, fd := -1 } }
  created := 0
  live := []
  connections _ := none
  owner _ := none
  main := .idle
  reactors _ := ⟨fun _ => none, [], .poll⟩
  uses := []

namespace Server

/-- The descriptor of a connection's socket. -/
def fd (s : Server) (conn : Nat) : Fd := (s.conns conn).channel.fd

/-- The sub-reactor of a connection. -/
def loop (s : Server) (conn : Nat) : Nat := (s.conns conn).channel.loop

/-- Write to a connection. -/
def setConn (s : Server) (conn : Nat) (c : ServerConn) : Server :=
  { s with conns := Function.update s.conns conn c }

/-- Write to a sub-reactor. -/
def setReactor (s : Server) (i : Nat) (r : Reactor) : Server :=
  { s with reactors := Function.update s.reactors i r }

/-- A sub-reactor goes on to another place. -/
def goOn (s : Server) (i : Nat) (pc : LoopPc) : Server :=
  s.setReactor i { s.reactors i with pc := pc }

/-- Use a channel. -/
def use (s : Server) (ch : Nat) : Server := { s with uses := s.uses ++ [⟨ch, ch ∈ s.live⟩] }

/-- The constructor of `Connection`, which registers the channel with the poller of its loop. -/
def construct (setting : Setting) (s : Server) (fd : Fd) : Option Server :=
  let id := s.created
  let i := fd.toNat % setting.size
  let ch : Channel := { loop := i, fd := fd }
  (ch.enableRead (s.reactors i).epoll id).bind fun (epoll, ch) =>
    (ch.useEt epoll id).map fun (epoll, ch) =>
      { (s.setConn id { channel := ch }).setReactor i { s.reactors i with epoll := epoll } with
        created := id + 1
        live := s.live ++ [id]
        owner := Function.update s.owner fd (some id)
        main := .constructed id }

/-- A step of `Server::NewConnection`. -/
def mainStep (setting : Setting) (s : Server) : MainOp → Option Server
  | .construct fd =>
    -- The kernel returns a descriptor that is not in use.
    if s.main = .idle ∧ 0 ≤ fd ∧ s.owner fd = none ∧ fd ∉ setting.inUse then s.construct setting fd
    else none
  | .setDeleteConnectionCallback =>
    match s.main with
    | .constructed conn =>
      some
        { s.setConn conn { s.conns conn with deleteCallback := true } with main := .deletable conn }
    | _ => none
  | .setOnConnectCallback =>
    match s.main with
    | .deletable conn =>
      let c := s.conns conn
      let c :=
        { c with
          onConnectCallback := setting.onConnect
          channel := { c.channel with readCallback := true } }
      some { s.setConn conn c with main := .callable conn }
    | _ => none
  | .record =>
    match s.main with
    | .callable conn =>
      some
        { s with
          connections := Function.update s.connections (s.fd conn) (some conn)
          main := .idle }
    | _ => none

/-- A report that `epoll_wait` may return. -/
def MayReport (epoll : Epoll) (report : List (Fd × Nat)) : Prop :=
  (report.map Prod.fst).Nodup ∧ report.length ≤ maxEvents ∧
    ∀ event ∈ report, ∃ entry ∈ epoll event.1, entry.MayReport event.2

instance (epoll : Epoll) (report : List (Fd × Nat)) : Decidable (MayReport epoll report) := by
  unfold MayReport
  infer_instance

/-- The loop of `Poller::Poll` over the events, with the vector that it returns. -/
def poll (s : Server) (epoll : Epoll) : List (Fd × Nat) → Server × List Nat
  | [] => (s, [])
  | (fd, events) :: rest =>
    match epoll fd with
    | none => s.poll epoll rest
    | some entry =>
      let told := (s.conns entry.channel).report events
      let s := (s.use entry.channel).setConn entry.channel told
      ((s.poll epoll rest).1, entry.channel :: (s.poll epoll rest).2)

/-- `~Connection`, up to `delete sock_`, with what `Poller::DeleteChannel` has left. -/
def destroyed (s : Server) (i ch conn : Nat) (epoll : Epoll) (channel : Channel) : Server :=
  let j := s.loop conn
  let s := s.setConn conn { s.conns conn with channel := channel }
  let s := s.setReactor j { s.reactors j with epoll := epoll }
  { s with live := s.live.filter (· ≠ conn) }.goOn i (.shut ch conn)

/-- A step of `EventLoop::Loop`, where `none` says that the loop cannot go on like this. -/
def loopStep (s : Server) (i : Nat) (op : LoopOp) : Option Server :=
  match op, (s.reactors i).pc with
  | .poll report, .poll =>
    if MayReport (s.reactors i).epoll report then
      let (polled, channels) := s.poll (s.reactors i).epoll report
      some (polled.setReactor i ⟨(s.reactors i).epoll, channels, .loop⟩)
    else none
  | .next, .loop =>
    match (s.reactors i).batch with
    | [] => some (s.goOn i .poll)
    | ch :: rest => some ((s.use ch).setReactor i ⟨(s.reactors i).epoll, rest, .check ch⟩)
  | .check, .check ch =>
    let c := s.conns ch
    if hasBit c.channel.readyEvents readEvent then
      -- An empty function throws out of the loop, whose thread ends: the `packaged_task` around it
      -- keeps the exception, and the other threads go on.
      if c.channel.readCallback && c.onConnectCallback then some ((s.use ch).goOn i (.handler ch))
      else none
    else some ((s.use ch).goOn i (.again ch))
  | .close, .handler ch =>
    if (s.conns ch).deleteCallback then
      if (s.connections (s.fd ch)).isSome then some (s.goOn i (.erase ch (s.fd ch))) else some s
    else none
  | .erase, .erase ch fd =>
    some
      ({ s with connections := Function.update s.connections fd none }.goOn i
        (.destroy ch (s.connections fd)))
  | .destroy, .destroy ch none => some (s.goOn i (.closed ch))
  | .destroy, .destroy ch (some conn) =>
    (deleteChannel (s.reactors (s.loop conn)).epoll (s.conns conn).channel).map
      fun (epoll, channel) => s.destroyed i ch conn epoll channel
  | .shut, .shut ch conn =>
    some ({ s with owner := Function.update s.owner (s.fd conn) none }.goOn i (.closed ch))
  | .ret, .handler ch | .ret, .closed ch => some (s.goOn i (.again ch))
  | .again stale, .again ch =>
    let c := s.conns ch
    let ready := if ch ∈ s.live then c.channel.readyEvents else stale
    if hasBit ready writeEvent then
      if c.channel.writeCallback then some ((s.use ch).goOn i .loop) else none
    else some ((s.use ch).goOn i .loop)
  | _, _ => none

/-- One step of one thread. -/
def step (setting : Setting) (s : Server) : Label → Option Server
  | .main op => s.mainStep setting op
  | .sub i op => if i < setting.size then s.loopStep i op else none

end Server

/-- Nothing is asked of anybody. -/
def Anything (_ : Server) (_ : Label) : Prop := True

instance (s : Server) (label : Label) : Decidable (Anything s label) :=
  inferInstanceAs (Decidable True)

end SimpleSrv.Nebula
