import Mathlib.Logic.Function.Basic

/-! Channels and the Linux poller: what a loop listens for, and what it has been told. -/

namespace SimpleSrv.Nebula

/-- A file descriptor. -/
abbrev Fd := Int

/-- `EPOLLIN`. -/
def epollIn : Nat := 0x1

/-- `EPOLLPRI`. -/
def epollPri : Nat := 0x2

/-- `EPOLLOUT`. -/
def epollOut : Nat := 0x4

/-- `EPOLLERR`, which is reported without being asked for. -/
def epollErr : Nat := 0x8

/-- `EPOLLHUP`, which is reported without being asked for. -/
def epollHup : Nat := 0x10

/-- `EPOLLET`. -/
def epollEt : Nat := 0x80000000

/-- `MAX_EVENTS`. -/
def maxEvents : Nat := 1000

/-- `Channel`, where a callback is either empty or has a target. -/
structure Channel where
  /-- The number of the event loop that the channel belongs to. -/
  loop : Nat
  /-- The descriptor of its socket. -/
  fd : Fd
  listenEvents : Nat := 0
  readyEvents : Nat := 0
  exist : Bool := false
  readCallback : Bool := false
  writeCallback : Bool := false
  deriving DecidableEq, Repr

/-- `Channel::READ_EVENT`. -/
def readEvent : Nat := 1

/-- `Channel::WRITE_EVENT`. -/
def writeEvent : Nat := 2

/-- `Channel::ET`. -/
def edgeTriggered : Nat := 4

/-- Whether any of these bits is set. -/
def hasBit (events bit : Nat) : Bool := events &&& bit ≠ 0

/-- `Channel::SetReadyEvents`. -/
def Channel.setReadyEvents (ch : Channel) (ev : Nat) : Channel :=
  let ready := if hasBit ev readEvent then ch.readyEvents ||| readEvent else ch.readyEvents
  let ready := if hasBit ev writeEvent then ready ||| writeEvent else ready
  let ready := if hasBit ev edgeTriggered then ready ||| edgeTriggered else ready
  { ch with readyEvents := ready }

/-- What `Poller::Poll` makes of the events that the kernel reports for a channel. -/
def Channel.report (ch : Channel) (events : Nat) : Channel :=
  let ch := if hasBit events epollIn then ch.setReadyEvents readEvent else ch
  let ch := if hasBit events epollOut then ch.setReadyEvents writeEvent else ch
  if hasBit events epollEt then ch.setReadyEvents edgeTriggered else ch

/-- An entry of an epoll instance. -/
structure Interest where
  /-- The number of the channel behind `data.ptr`. -/
  channel : Nat
  events : Nat
  deriving DecidableEq, Repr

/-- The interest list of an epoll instance. -/
abbrev Epoll := Fd → Option Interest

/-- The mask that `Poller::UpdateChannel` computes. -/
def eventMask (listenEvents : Nat) : Nat :=
  let events := if hasBit listenEvents readEvent then epollIn ||| epollPri else 0
  let events := if hasBit listenEvents writeEvent then events ||| epollOut else events
  if hasBit listenEvents edgeTriggered then events ||| epollEt else events

/-- `Poller::UpdateChannel`, where `none` says that the process has ended. -/
def updateChannel (epoll : Epoll) (id : Nat) (ch : Channel) : Option (Epoll × Channel) :=
  let entry : Interest := ⟨id, eventMask ch.listenEvents⟩
  if ch.exist then
    -- `EPOLL_CTL_MOD` fails for a descriptor that is not in the list.
    if (epoll ch.fd).isSome then some (Function.update epoll ch.fd (some entry), ch) else none
  else
    -- `EPOLL_CTL_ADD` fails for a descriptor that is in the list.
    if (epoll ch.fd).isSome then none
    else some (Function.update epoll ch.fd (some entry), { ch with exist := true })

/-- `Poller::DeleteChannel`, where `none` says that the process has ended. -/
def deleteChannel (epoll : Epoll) (ch : Channel) : Option (Epoll × Channel) :=
  if (epoll ch.fd).isSome then
    some (Function.update epoll ch.fd none, { ch with exist := false })
  else none

/-- `Channel::EnableRead`. -/
def Channel.enableRead (ch : Channel) (epoll : Epoll) (id : Nat) : Option (Epoll × Channel) :=
  updateChannel epoll id { ch with listenEvents := ch.listenEvents ||| readEvent }

/-- `Channel::EnableWrite`. -/
def Channel.enableWrite (ch : Channel) (epoll : Epoll) (id : Nat) : Option (Epoll × Channel) :=
  updateChannel epoll id { ch with listenEvents := ch.listenEvents ||| writeEvent }

/-- `Channel::UseET`. -/
def Channel.useEt (ch : Channel) (epoll : Epoll) (id : Nat) : Option (Epoll × Channel) :=
  updateChannel epoll id { ch with listenEvents := ch.listenEvents ||| edgeTriggered }

/-- The kernel reports some of what was asked for, and hang-ups and errors always. -/
def Interest.MayReport (entry : Interest) (events : Nat) : Prop :=
  events ≠ 0 ∧ events ||| (entry.events ||| epollErr ||| epollHup) =
    entry.events ||| epollErr ||| epollHup

instance (entry : Interest) (events : Nat) : Decidable (entry.MayReport events) :=
  inferInstanceAs (Decidable (_ ∧ _))

end SimpleSrv.Nebula
