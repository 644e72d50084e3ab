import Mathlib.Data.List.Forall2
import SimpleSrv.Nebula.Channel

/-! The iterations of an event loop over a poller, and the callbacks that they call. -/

namespace SimpleSrv.Nebula

/-- The two directions of a channel, each of which has a callback. -/
inductive Direction where
  | read | write
  deriving DecidableEq, Repr

/-- The bit of `listen_events_` and of `ready_events_` that stands for a direction. -/
def Direction.event : Direction → Nat
  | .read => readEvent
  | .write => writeEvent

/-- The bit of an epoll event that reports it. -/
def Direction.epollEvent : Direction → Nat
  | .read => epollIn
  | .write => epollOut

/-- The callbacks that `Channel::HandleEvent` calls, which are taken to return. -/
def Channel.handleEvent (ch : Channel) : List Direction :=
  (if hasBit ch.readyEvents readEvent then [.read] else []) ++
    (if hasBit ch.readyEvents writeEvent then [.write] else [])

/-- Two sets of events have a bit in common with a third one if either of them has. -/
@[simp] theorem hasBit_or (first second bit : Nat) :
    hasBit (first ||| second) bit = (hasBit first bit || hasBit second bit) := by
  simp only [hasBit, Nat.and_or_distrib_right, ne_eq, Nat.or_eq_zero_iff, decide_not,
    Bool.decide_and, Bool.not_and]

/-- A bit that is added to a mask on a condition counts on that condition. -/
theorem hasBit_added (set : Bool) (mask flag bit : Nat) :
    hasBit (if set then mask ||| flag else mask) bit =
      (hasBit mask bit || (set && hasBit flag bit)) := by
  cases set with
  | true => simp
  | false => simp

/-- Of the three bits of a channel a direction has its own. -/
theorem Direction.own_bit (direction : Direction) :
    hasBit readEvent direction.event = decide (direction = .read) ∧
      hasBit writeEvent direction.event = decide (direction = .write) ∧
      hasBit edgeTriggered direction.event = false := by
  cases direction with
  | read => exact ⟨rfl, rfl, rfl⟩
  | write => exact ⟨rfl, rfl, rfl⟩

/-- `Channel::SetReadyEvents` adds the bits that it is given to those that have been set. -/
theorem Channel.setReadyEvents_ready (ch : Channel) (ev : Nat) (direction : Direction) :
    hasBit (ch.setReadyEvents ev).readyEvents direction.event =
      (hasBit ch.readyEvents direction.event || hasBit ev direction.event) := by
  -- Each bit that is set is one of three, and the other two do not count.
  obtain ⟨read, write, edge⟩ := direction.own_bit
  simp only [setReadyEvents, hasBit_added, read, write, edge]
  cases direction with
  | read => simp [Direction.event]
  | write => simp [Direction.event]

/-- A report that is made on a condition counts on that condition. -/
theorem Channel.setReadyEvents_added (ch : Channel) (set : Bool) (ev : Nat)
    (direction : Direction) :
    hasBit (if set then ch.setReadyEvents ev else ch).readyEvents direction.event =
      (hasBit ch.readyEvents direction.event || (set && hasBit ev direction.event)) := by
  cases set with
  | true => simp [setReadyEvents_ready]
  | false => simp

/-- A report sets the bits of the directions that it is about, and leaves the others. -/
theorem Channel.report_ready (ch : Channel) (events : Nat) (direction : Direction) :
    hasBit (ch.report events).readyEvents direction.event =
      (hasBit ch.readyEvents direction.event || hasBit events direction.epollEvent) := by
  -- The bits are set one after the other, and only one of them is that of the direction.
  obtain ⟨read, write, edge⟩ := direction.own_bit
  simp only [report, setReadyEvents_added, read, write, edge]
  cases direction with
  | read => simp [Direction.epollEvent]
  | write => simp [Direction.epollEvent]

/-- `Channel::HandleEvent` calls the callbacks whose bits have been set. -/
theorem Channel.mem_handleEvent (ch : Channel) (direction : Direction) :
    direction ∈ ch.handleEvent ↔ hasBit ch.readyEvents direction.event = true := by
  -- Each direction has a test of its own.
  cases direction with
  | read =>
    show _ ↔ hasBit ch.readyEvents readEvent = true
    simp [handleEvent]
  | write =>
    show _ ↔ hasBit ch.readyEvents writeEvent = true
    simp [handleEvent]

/-- The channels of the heap, by number. -/
abbrev Channels := Nat → Channel

/-- How `Poller::Poll` treats the events of a kernel. -/
structure Poller (Event : Type) where
  /-- The number of the channel that the event points to. -/
  channel : Event → Nat
  /-- The directions in which the event reports the channel as ready. -/
  reports : Event → Direction → Bool
  /-- What is done to the channel, by calls of `SetReadyEvents`. -/
  tell : Event → Channel → Channel
  tell_ready : ∀ event ch direction, hasBit (tell event ch).readyEvents direction.event =
    (hasBit ch.readyEvents direction.event || reports event direction)

/-- The loop of `EventLoop::Loop` over a vector, with the callbacks in the order of their calls. -/
def handleEvents (chs : Channels) (active : List Nat) : List (Nat × Direction) :=
  active.flatMap fun id => (chs id).handleEvent.map fun direction => (id, direction)

/-- An iteration calls what has been set for the channels of its events. -/
theorem mem_handleEvents {chs : Channels} {active : List Nat} {id : Nat} {direction : Direction} :
    (id, direction) ∈ handleEvents chs active ↔
      id ∈ active ∧ hasBit (chs id).readyEvents direction.event = true := by
  -- A callback is called for a channel of the vector.
  rw [← Channel.mem_handleEvent]
  simp only [handleEvents, List.mem_flatMap, List.mem_map, Prod.mk.injEq]
  constructor
  · rintro ⟨other, present, called, known, rfl, rfl⟩
    exact ⟨present, known⟩
  · intro here
    exact ⟨id, here.1, direction, here.2, rfl, rfl⟩

namespace Poller

variable {Event : Type} (poller : Poller Event)

/-- The loop of `Poller::Poll` over the events, with the vector that it returns. -/
def poll (chs : Channels) : List Event → Channels × List Nat
  | [] => (chs, [])
  | event :: rest =>
    let id := poller.channel event
    let (chs, active) := poll (Function.update chs id (poller.tell event (chs id))) rest
    (chs, id :: active)

/-- An iteration of `EventLoop::Loop`, for which the kernel returns these events. -/
def round (chs : Channels) (events : List Event) : Channels × List (Nat × Direction) :=
  let (chs, active) := poller.poll chs events
  (chs, handleEvents chs active)

/-- `EventLoop::Loop`, with the callbacks of each iteration. -/
def loop (chs : Channels) : List (List Event) → List (List (Nat × Direction))
  | [] => []
  | events :: rest =>
    let (chs, calls) := poller.round chs events
    calls :: loop chs rest

/-- Some of these events are for the channel. -/
def Concerns (id : Nat) (events : List Event) : Prop :=
  ∃ event ∈ events, poller.channel event = id

/-- Some of these events report the channel as ready in a direction. -/
def Reports (id : Nat) (events : List Event) (direction : Direction) : Prop :=
  ∃ event ∈ events, poller.channel event = id ∧ poller.reports event direction = true

/-- An iteration calls those callbacks of the channel that its own events are about. -/
def CallsMatch (id : Nat) (events : List Event) (calls : List (Nat × Direction)) : Prop :=
  ∀ direction, (id, direction) ∈ calls ↔ poller.Reports id events direction

/-- If there are later events for the channel, they report again what the earlier ones have. -/
def ReportsAgain (id : Nat) (earlier later : List Event) : Prop :=
  poller.Concerns id later → ∀ direction,
    poller.Reports id earlier direction → poller.Reports id later direction

/-- The first of the events reports what it is about, and the others report the rest. -/
theorem reports_cons {event : Event} {rest : List Event} {id : Nat} {direction : Direction} :
    poller.Reports id (event :: rest) direction ↔
      (poller.channel event = id ∧ poller.reports event direction = true) ∨
        poller.Reports id rest direction := by
  simp [Reports]

/-- The vector has the channel of each event. -/
theorem poll_active (chs : Channels) (events : List Event) :
    (poller.poll chs events).2 = events.map poller.channel := by
  -- The channels that have been told so far make no difference to the vector.
  induction events generalizing chs with
  | nil => rfl
  | cons event rest ih => simp only [poll, ih, List.map_cons]

/-- A poll sets the bits that its events report, and clears none. -/
theorem poll_ready (chs : Channels) (events : List Event) (id : Nat) (direction : Direction) :
    hasBit ((poller.poll chs events).1 id).readyEvents direction.event = true ↔
      hasBit (chs id).readyEvents direction.event = true ∨
        poller.Reports id events direction := by
  -- The events are taken one by one, as the loop of the poller takes them.
  induction events generalizing chs with
  | nil => simp [poll, Reports]
  | cons event rest ih =>
    show hasBit ((poller.poll (Function.update chs (poller.channel event) _) rest).1 id).readyEvents
      _ = true ↔ _
    rw [ih, reports_cons, ← or_assoc]
    apply or_congr_left
    by_cases same : poller.channel event = id
    · rw [same, Function.update_self, poller.tell_ready, Bool.or_eq_true]
      simp
    · rw [Function.update_of_ne (Ne.symm same)]
      simp [same]

/-- An iteration calls what its events ask for, and what earlier ones have left behind. -/
theorem mem_round (chs : Channels) (events : List Event) (id : Nat) (direction : Direction) :
    (id, direction) ∈ (poller.round chs events).2 ↔
      poller.Concerns id events ∧ (hasBit (chs id).readyEvents direction.event = true ∨
        poller.Reports id events direction) := by
  show (id, direction) ∈ handleEvents (poller.poll chs events).1 (poller.poll chs events).2 ↔ _
  rw [mem_handleEvents, poll_active, poll_ready]
  simp only [List.mem_map, Concerns]

/-- The calls of an iteration match if its events ask for all that has been left behind. -/
theorem callsMatch_iff (chs : Channels) (events : List Event) (id : Nat) :
    poller.CallsMatch id events (poller.round chs events).2 ↔
      (poller.Concerns id events → ∀ direction : Direction,
        hasBit (chs id).readyEvents direction.event = true →
          poller.Reports id events direction) := by
  -- A call without an event for it comes from a bit that has been left behind.
  have asked : ∀ direction, poller.Reports id events direction → poller.Concerns id events :=
    fun direction ⟨event, present, same, _⟩ => ⟨event, present, same⟩
  simp only [CallsMatch, mem_round]
  constructor
  · intro same concerns direction left
    exact (same direction).mp ⟨concerns, .inl left⟩
  · intro again direction
    constructor
    · rintro ⟨concerns, left | reports⟩
      · exact again concerns direction left
      · exact reports
    · intro reports
      exact ⟨asked direction reports, .inr reports⟩

/-- The iterations match if each asks for all that has been left behind until then. -/
theorem loop_match_iff (chs : Channels) (rounds : List (List Event)) (id : Nat) :
    List.Forall₂ (poller.CallsMatch id) rounds (poller.loop chs rounds) ↔
      (∀ events ∈ rounds, poller.Concerns id events → ∀ direction : Direction,
        hasBit (chs id).readyEvents direction.event = true → poller.Reports id events direction) ∧
      rounds.Pairwise (poller.ReportsAgain id) := by
  -- What the first iteration leaves behind is what the others start with.
  induction rounds generalizing chs with
  | nil => simp [loop]
  | cons events rest ih =>
    have after : ∀ direction : Direction,
        hasBit ((poller.round chs events).1 id).readyEvents direction.event = true ↔
          hasBit (chs id).readyEvents direction.event = true ∨ poller.Reports id events direction :=
      poller.poll_ready chs events id
    show List.Forall₂ (poller.CallsMatch id) (events :: rest)
      ((poller.round chs events).2 :: poller.loop (poller.round chs events).1 rest) ↔ _
    rw [List.forall₂_cons, callsMatch_iff, ih, List.pairwise_cons, List.forall_mem_cons]
    simp only [after]
    constructor
    · rintro ⟨first, later, again⟩
      refine ⟨⟨first, ?_⟩, ?_, again⟩
      · exact fun r mem concerns direction left => later r mem concerns direction (.inl left)
      · exact fun r mem concerns direction told => later r mem concerns direction (.inr told)
    · rintro ⟨⟨first, later⟩, told, again⟩
      refine ⟨first, ?_, again⟩
      rintro r mem concerns direction (left | reported)
      · exact later r mem concerns direction left
      · exact told r mem concerns direction reported

end Poller

/-- What `epoll_wait` writes for a channel. -/
structure EpollEvent where
  /-- The number of the channel behind `data.ptr`. -/
  channel : Nat
  events : Nat
  deriving DecidableEq, Repr

/-- The poller of Linux. -/
def linuxPoller : Poller EpollEvent where
  channel := EpollEvent.channel
  reports event direction := hasBit event.events direction.epollEvent
  tell event ch := ch.report event.events
  tell_ready event ch := ch.report_ready event.events

/--
The calls of every iteration match its events exactly if no direction of the channel is left out
by later events for it, once it has been reported.
-/
theorem callbacks_match_iff {chs : Channels} {id : Nat} (fresh : (chs id).readyEvents = 0)
    (rounds : List (List EpollEvent)) :
    List.Forall₂ (linuxPoller.CallsMatch id) rounds (linuxPoller.loop chs rounds) ↔
      rounds.Pairwise (linuxPoller.ReportsAgain id) := by
  rw [linuxPoller.loop_match_iff]
  -- Nothing has been set before the first iteration.
  have unset : ∀ direction : Direction, hasBit (chs id).readyEvents direction.event = false := by
    intro direction
    rw [fresh, hasBit, Nat.zero_and]
    rfl
  simp [unset]

/-- A channel that listens in both directions, on its own. -/
def bothWays : Channels := fun _ =>
  { loop := 0, fd := 5, listenEvents := readEvent ||| writeEvent, exist := true,
    readCallback := true, writeCallback := true }

/-- A channel that is readable again and again has its read callback called in each round. -/
theorem callbacks_match_readable :
    List.Forall₂ (linuxPoller.CallsMatch 0) [[⟨0, epollIn⟩], [], [⟨0, epollIn⟩]]
      (linuxPoller.loop bothWays [[⟨0, epollIn⟩], [], [⟨0, epollIn⟩]]) := by
  apply (callbacks_match_iff rfl _).mpr
  have again : linuxPoller.ReportsAgain 0 [⟨0, epollIn⟩] [⟨0, epollIn⟩] := fun _ _ told => told
  -- A round without events owes nothing, and nobody owes it anything.
  have idle : linuxPoller.ReportsAgain 0 [⟨0, epollIn⟩] [] := fun ⟨_, absent, _⟩ => nomatch absent
  have silent : linuxPoller.ReportsAgain 0 [] [⟨0, epollIn⟩] :=
    fun _ _ ⟨_, absent, _⟩ => nomatch absent
  simp [again, idle, silent]

/-- A channel that was writable once has its write callback called when it is readable. -/
theorem callbacks_differ :
    linuxPoller.loop bothWays [[⟨0, epollOut⟩], [⟨0, epollIn⟩]] =
        [[(0, .write)], [(0, .read), (0, .write)]] ∧
      ¬ List.Forall₂ (linuxPoller.CallsMatch 0) [[⟨0, epollOut⟩], [⟨0, epollIn⟩]]
        (linuxPoller.loop bothWays [[⟨0, epollOut⟩], [⟨0, epollIn⟩]]) := by
  -- The bit of the first round has not been taken back.
  have calls : linuxPoller.loop bothWays [[⟨0, epollOut⟩], [⟨0, epollIn⟩]] =
      [[(0, .write)], [(0, .read), (0, .write)]] := rfl
  refine ⟨calls, fun all => ?_⟩
  rw [calls, List.forall₂_cons, List.forall₂_cons] at all
  obtain ⟨_, second, _⟩ := all
  -- The only event of the second round does not have the bit.
  have reported := (second .write).mp (by simp)
  simp [Poller.Reports, linuxPoller, hasBit, Direction.epollEvent, epollIn, epollOut] at reported

end SimpleSrv.Nebula
