import SimpleSrv.Lib.CInt
import SimpleSrv.Ef.Epoll

/-! The calls by which a coroutine does I/O, each up to its yield and from there to its end. -/

namespace SimpleSrv.Ef

/-- How the first or the next part of a call ends. -/
inductive Outcome where
  /-- In `ef_fiber_yield`, with this value in `retval`. -/
  | waiting (retval : Int)
  /-- With a return, and the `errno` it leaves. -/
  | returned (answer : Answer)
  deriving DecidableEq, Repr

/-- What `ef_routine_read`, `ef_routine_write` and their siblings for sockets differ in. -/
structure RoutineIo where
  /-- The events to associate the descriptor with. -/
  interest : Nat
  /-- The events that make the call fail. -/
  failing : Nat
  /-- The events that make it try again. -/
  ready : Nat
  /-- The events it unsets when the descriptor turns out not to be ready. -/
  unset : Nat
  /-- The conversion to the type of `retval`. -/
  narrow : Int → Int

/-- `ef_routine_read`. -/
def efRoutineRead : RoutineIo where
  interest := efPollIn
  failing := efPollErr
  ready := efPollIn ||| efPollHup
  unset := efPollIn ||| efPollHup
  narrow := id

/-- `ef_routine_write`. -/
def efRoutineWrite : RoutineIo where
  interest := efPollOut
  failing := efPollErr ||| efPollHup
  ready := efPollOut
  unset := efPollOut
  narrow := id

/-- `ef_routine_recv`, whose `retval` is an `int`. -/
def efRoutineRecv : RoutineIo where
  interest := efPollIn
  failing := efPollErr
  ready := efPollIn ||| efPollHup
  unset := efPollIn ||| efPollHup
  narrow := toInt

/-- `ef_routine_send`, whose `retval` is an `int`. -/
def efRoutineSend : RoutineIo where
  interest := efPollOut
  failing := efPollErr ||| efPollHup
  ready := efPollOut
  unset := efPollOut
  narrow := toInt

namespace RoutineIo

/-- The end of a call behind its last event: dissociate, set `errno`, return. -/
def finish (k : Kernel) (fd : Fd) (retval error : Int) : Kernel × Outcome :=
  ((efEpollDissociate k fd true false).1, .returned ⟨retval, error⟩)

/-- The code from the label `ready` on, with the answer of the transfer it makes. -/
def transfer (io : RoutineIo) (k : Kernel) (fd : Fd) (answer : Answer) : Kernel × Outcome :=
  let retval := io.narrow answer.value
  if retval < 0 ∧ answer.errno = eagain then ((efEpollUnset k fd io.unset).1, .waiting retval)
  else if retval < 0 then finish k fd retval answer.errno
  else finish k fd retval 0

/-- A call from its start on. -/
def start (io : RoutineIo) (k : Kernel) (er : Ptr) (fd : Fd) (ticket : Nat)
    (refusal : Option Int) (answer : Answer) : Kernel × Outcome :=
  let (k, added) := efEpollAssociate k fd io.interest (.routine er) false ticket refusal
  if added.value < 0 then (k, .returned added)
  else if added.value > 0 then io.transfer k fd answer
  else (k, .waiting added.value)

/-- A call from its yield on, which has returned these events. -/
def woken (io : RoutineIo) (k : Kernel) (fd : Fd) (retval : Int) (events : Nat) (answer : Answer) :
    Kernel × Outcome :=
  if events &&& io.failing ≠ 0 then finish k fd (-1) ebadf
  else if events &&& io.ready ≠ 0 then io.transfer k fd answer
  else finish k fd retval 0

end RoutineIo

/-- What the system calls of `ef_routine_connect` answer before its yield. -/
structure ConnectAnswers where
  /-- The flag `O_NONBLOCK` is set already. -/
  nonblock : Bool
  setfl : Answer
  connect : Answer
  refusal : Option Int
  deriving DecidableEq, Repr

/-- `ef_routine_connect` from its start on. -/
def efRoutineConnect (k : Kernel) (er : Ptr) (sockfd : Fd) (ticket : Nat)
    (answers : ConnectAnswers) : Kernel × Outcome :=
  if !answers.nonblock ∧ answers.setfl.value < 0 then (k, .returned answers.setfl)
  else if answers.connect.value < 0 then
    if answers.connect.errno ≠ einprogress then (k, .returned answers.connect)
    else
      let (k, added) :=
        efEpollAssociate k sockfd efPollOut (.routine er) false ticket answers.refusal
      if added.value < 0 then (k, .returned added) else (k, .waiting added.value)
  else (k, .returned answers.connect)

/-- `ef_routine_connect` from its yield on, with the socket's pending error. -/
def efRoutineConnected (k : Kernel) (sockfd : Fd) (retval : Int) (events : Nat) (pending : Int) :
    Kernel × Outcome :=
  if events &&& (efPollErr ||| efPollHup) ≠ 0 then RoutineIo.finish k sockfd (-1) ebadf
  else if events &&& efPollOut ≠ 0 then RoutineIo.finish k sockfd retval pending
  else RoutineIo.finish k sockfd retval 0

/-- The four transfers. -/
inductive Transfer where
  | read | write | recv | send
  deriving DecidableEq, Repr

/-- The function that makes a transfer. -/
def Transfer.io : Transfer → RoutineIo
  | .read => efRoutineRead
  | .write => efRoutineWrite
  | .recv => efRoutineRecv
  | .send => efRoutineSend

/-- A call of a coroutine that may have to wait for a descriptor. -/
inductive RoutineCall where
  | transfer (kind : Transfer) (fd : Fd)
  | connect (sockfd : Fd)
  deriving DecidableEq, Repr

/-- The descriptor that a call waits for. -/
def RoutineCall.fd : RoutineCall → Fd
  | .transfer _ fd | .connect fd => fd

/-- A call from its yield on, with what its next system call answers. -/
def RoutineCall.woken (call : RoutineCall) (k : Kernel) (retval : Int) (events : Nat)
    (answer : Answer) : Kernel × Outcome :=
  match call with
  | .transfer kind fd => kind.io.woken k fd retval events answer
  | .connect sockfd => efRoutineConnected k sockfd retval events answer.errno

/-- What the first part of a call can do to the interest set. -/
inductive Started (k : Kernel) (er : Ptr) (fd : Fd) (ticket : Nat) : Kernel × Outcome → Prop
  | waiting (retval : Int) (events : Nat) : k.owner fd ≠ none → k.interest fd = none →
      Started k er fd ticket (k.register fd ⟨events, .routine er, ticket⟩, .waiting retval)
  | returned (answer : Answer) : Started k er fd ticket (k, .returned answer)

/-- What the code behind a yield can do to the interest set. -/
inductive Woken (k : Kernel) (fd : Fd) : Kernel × Outcome → Prop
  | waiting (retval : Int) : Woken k fd (k, .waiting retval)
  | returned (answer : Answer) : Woken k fd ((k.delete fd).1, .returned answer)

/-- A transfer registers its descriptor and waits, or returns at once. -/
theorem RoutineIo.start_started (io : RoutineIo) (k : Kernel) (er : Ptr) (fd : Fd) (ticket : Nat)
    (refusal : Option Int) (answer : Answer) :
    Started k er fd ticket (io.start k er fd ticket refusal answer) := by
  -- With epoll an association never succeeds with a positive value.
  rcases k.add_cases fd ⟨io.interest, .routine er, ticket⟩ refusal with
    ⟨opened, absent, added⟩ | ⟨errno, refused⟩
  · simpa [start, efEpollAssociate, added] using Started.waiting 0 io.interest opened absent
  · simpa [start, efEpollAssociate, refused] using Started.returned ⟨-1, errno⟩

/-- A connection attempt registers its descriptor and waits, or returns at once. -/
theorem efRoutineConnect_started (k : Kernel) (er : Ptr) (sockfd : Fd) (ticket : Nat)
    (answers : ConnectAnswers) :
    Started k er sockfd ticket (efRoutineConnect k er sockfd ticket answers) := by
  unfold efRoutineConnect
  split
  · exact .returned _
  · split
    · split
      · exact .returned _
      · rcases k.add_cases sockfd ⟨efPollOut, .routine er, ticket⟩ answers.refusal with
          ⟨opened, absent, added⟩ | ⟨errno, refused⟩
        · simpa [efEpollAssociate, added] using Started.waiting 0 efPollOut opened absent
        · simpa [efEpollAssociate, refused] using Started.returned ⟨-1, errno⟩
    · exact .returned _

/-- A call that goes on behind its yield waits again, or dissociates its descriptor and returns. -/
theorem RoutineCall.woken_woken (call : RoutineCall) (k : Kernel) (retval : Int) (events : Nat)
    (answer : Answer) : Woken k call.fd (call.woken k retval events answer) := by
  cases call with
  | transfer kind fd =>
    simp only [RoutineCall.woken, RoutineIo.woken]
    split
    · exact .returned _
    · split
      · simp only [RoutineIo.transfer]
        split
        · exact .waiting _
        · split <;> exact .returned _
      · exact .returned _
  | connect sockfd =>
    simp only [RoutineCall.woken, efRoutineConnected]
    split
    · exact .returned _
    · split <;> exact .returned _

end SimpleSrv.Ef
