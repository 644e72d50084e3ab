import SimpleSrv.Lib.Batch
import SimpleSrv.Nebula.EventLoop

/-! The pollers of Linux and macOS side by side, over the same channels and the same readiness. -/

namespace SimpleSrv.Nebula

/-- An entry of a kqueue. -/
structure Knote where
  /-- The number of the channel behind `udata`. -/
  channel : Nat
  /-- `EV_CLEAR`. -/
  clear : Bool
  deriving DecidableEq, Repr

/-- A kqueue, whose filters `EVFILT_READ` and `EVFILT_WRITE` are the two directions. -/
abbrev Kqueue := Fd → Direction → Option Knote

/-- `EV_SET` of a filter, with `EV_ADD`. -/
def Kqueue.add (kq : Kqueue) (fd : Fd) (direction : Direction) (note : Knote) : Kqueue :=
  Function.update kq fd (Function.update (kq fd) direction (some note))

/-- `Poller::UpdateChannel` of macOS, for a descriptor that is open. -/
def updateChannelMac (kq : Kqueue) (id : Nat) (ch : Channel) : Option (Kqueue × Channel) :=
  let note : Knote := ⟨id, hasBit ch.listenEvents edgeTriggered⟩
  let kq := if hasBit ch.listenEvents readEvent then kq.add ch.fd .read note else kq
  let kq := if hasBit ch.listenEvents writeEvent then kq.add ch.fd .write note else kq
  -- The channel is not marked, since `EV_ADD` makes no difference between old and new entries.
  some (kq, ch)

/-- What `kevent` writes for a filter. -/
structure KqueueEvent where
  /-- The number of the channel behind `udata`. -/
  channel : Nat
  filter : Direction
  deriving DecidableEq, Repr

/-- What `Poller::Poll` of macOS makes of a filter that the kernel reports for a channel. -/
def Channel.reportFilter (ch : Channel) : Direction → Channel
  | .read => ch.setReadyEvents (readEvent ||| edgeTriggered)
  | .write => ch.setReadyEvents (writeEvent ||| edgeTriggered)

/-- A filter sets the bit of its own direction, and leaves the other. -/
theorem Channel.reportFilter_ready (ch : Channel) (filter direction : Direction) :
    hasBit (ch.reportFilter filter).readyEvents direction.event =
      (hasBit ch.readyEvents direction.event || decide (filter = direction)) := by
  -- A filter is for one direction, and its bits are known.
  cases filter with
  | read =>
    rw [reportFilter, setReadyEvents_ready]
    cases direction with
    | read => rfl
    | write => rfl
  | write =>
    rw [reportFilter, setReadyEvents_ready]
    cases direction with
    | read => rfl
    | write => rfl

/-- The poller of macOS. -/
def macPoller : Poller KqueueEvent where
  channel := KqueueEvent.channel
  reports event direction := decide (event.filter = direction)
  tell event ch := ch.reportFilter event.filter
  tell_ready event ch := ch.reportFilter_ready event.filter

/-- Register channels one after the other. -/
def registerAll {Table : Type} (update : Table → Nat → Channel → Option (Table × Channel))
    (table : Table) (chs : Channels) : List Nat → Option (Table × Channels)
  | [] => some (table, chs)
  | id :: rest =>
    (update table id (chs id)).bind fun (table, ch) =>
      registerAll update table (Function.update chs id ch) rest

/-- Which descriptors may be read or written without blocking. -/
abbrev Readiness := Fd → Direction → Bool

/-- The bits of epoll for what is ready. -/
def readyMask (ready : Direction → Bool) : Nat :=
  (if ready .read then epollIn else 0) ||| (if ready .write then epollOut else 0)

/-- A descriptor for which `epoll_wait` has something to report. -/
def EpollPending (epoll : Epoll) (ready : Readiness) (fd : Fd) : Prop :=
  ∃ entry, epoll fd = some entry ∧ entry.events &&& readyMask (ready fd) ≠ 0

/-- What `epoll_wait` writes for these descriptors. -/
def epollEvents (epoll : Epoll) (ready : Readiness) (fds : List Fd) : List EpollEvent :=
  fds.filterMap fun fd => (epoll fd).map fun entry =>
    ⟨entry.channel, entry.events &&& readyMask (ready fd)⟩

/-- A filter that `kevent` has to report. -/
def KqueuePending (kq : Kqueue) (ready : Readiness) (item : Fd × Direction) : Prop :=
  (∃ note, kq item.1 item.2 = some note) ∧ ready item.1 item.2 = true

/-- What `kevent` writes for these filters. -/
def kqueueEvents (kq : Kqueue) (items : List (Fd × Direction)) : List KqueueEvent :=
  items.filterMap fun item => (kq item.1 item.2).map fun note => ⟨note.channel, item.2⟩

/--
An iteration over either poller calls the same callbacks as often as one over the other.

No channel is more than once in a vector. Both kernels report what is ready in an order of their
own, and as much of it as there is room for.
-/
def DispatchAlike (epoll : Epoll) (linuxChs : Channels) (kq : Kqueue) (macChs : Channels)
    (ready : Readiness) : Prop :=
  ∀ fds items, Batch maxEvents (EpollPending epoll ready) fds →
    Batch maxEvents (KqueuePending kq ready) items →
    ((linuxPoller.round linuxChs (epollEvents epoll ready fds)).2.Perm
        (macPoller.round macChs (kqueueEvents kq items)).2) ∧
      (linuxPoller.poll linuxChs (epollEvents epoll ready fds)).2.Nodup ∧
      (macPoller.poll macChs (kqueueEvents kq items)).2.Nodup

/-- The directions in which a channel listens and is ready. -/
def Channel.wants (ch : Channel) (ready : Readiness) : List Direction :=
  [.read, .write].filter fun direction =>
    hasBit ch.listenEvents direction.event && ready ch.fd direction

/-- A channel that has been constructed, with whatever it listens for. -/
def Channel.Fresh (ch : Channel) : Prop := ch.readyEvents = 0 ∧ ch.exist = false

/-- What both registrations have made of some channels. -/
structure Registered (chs : Channels) (ids : List Nat) (epoll : Epoll) (kq : Kqueue) : Prop where
  apart : ∀ id ∈ ids, ∀ other ∈ ids, (chs id).fd = (chs other).fd → id = other
  epoll_iff : ∀ fd entry, epoll fd = some entry ↔
    ∃ id ∈ ids, (chs id).fd = fd ∧ entry = ⟨id, eventMask (chs id).listenEvents⟩
  kqueue_iff : ∀ fd direction note, kq fd direction = some note ↔
    ∃ id ∈ ids, (chs id).fd = fd ∧ hasBit (chs id).listenEvents direction.event = true ∧
      note = ⟨id, hasBit (chs id).listenEvents edgeTriggered⟩

/-- A new entry is added only where there is none, and marks its channel. -/
theorem updateChannel_new {epoll after : Epoll} {id : Nat} {ch told : Channel}
    (new : ch.exist = false) (updated : updateChannel epoll id ch = some (after, told)) :
    epoll ch.fd = none ∧
      after = Function.update epoll ch.fd (some ⟨id, eventMask ch.listenEvents⟩) ∧
      told = { ch with exist := true } := by
  -- A channel that is not in use goes the way of the addition.
  simp only [updateChannel, new, Bool.false_eq_true, if_false] at updated
  split at updated
  · cases updated
  · rename_i free
    simp only [Option.some.injEq, Prod.mk.injEq] at updated
    exact ⟨by simpa using free, updated.1.symm, updated.2.symm⟩

/-- A change with `EV_ADD` shows at its own filter only. -/
theorem Kqueue.add_apply (kq : Kqueue) (fd other : Fd) (direction filter : Direction)
    (note : Knote) : kq.add fd direction note other filter =
      if other = fd ∧ filter = direction then some note else kq other filter := by
  -- The two tables, that of the descriptors and that of the filters, are written in one place.
  rw [add, Function.update_apply]
  by_cases here : other = fd
  · rw [if_pos here, Function.update_apply, here]
    simp
  · simp [here]

/-- A registration on macOS writes the filters that the channel listens for. -/
theorem updateChannelMac_eq (kq : Kqueue) (id : Nat) (ch : Channel) :
    ∃ after, updateChannelMac kq id ch = some (after, ch) ∧ ∀ fd direction,
      after fd direction =
        if fd = ch.fd ∧ hasBit ch.listenEvents direction.event = true then
          some ⟨id, hasBit ch.listenEvents edgeTriggered⟩
        else kq fd direction := by
  -- Either filter is written if its bit has been asked for.
  refine ⟨_, rfl, fun fd direction => ?_⟩
  cases direction with
  | read =>
    show _ = if fd = ch.fd ∧ hasBit ch.listenEvents readEvent = true then _ else _
    split_ifs
    all_goals simp_all [Kqueue.add_apply]
  | write =>
    show _ = if fd = ch.fd ∧ hasBit ch.listenEvents writeEvent = true then _ else _
    split_ifs
    all_goals simp_all [Kqueue.add_apply]

/-- A registration with Linux succeeds only for descriptors that are not known yet. -/
theorem registerAll_linux {epoll after : Epoll} {chs told : Channels} {ids : List Nat}
    (nodup : ids.Nodup) (new : ∀ id ∈ ids, (chs id).exist = false)
    (registered : registerAll updateChannel epoll chs ids = some (after, told)) :
    (∀ id ∈ ids, epoll (chs id).fd = none) ∧
      (ids.map fun id => (chs id).fd).Nodup ∧
      (∀ fd entry, after fd = some entry ↔ epoll fd = some entry ∨
        ∃ id ∈ ids, (chs id).fd = fd ∧ entry = ⟨id, eventMask (chs id).listenEvents⟩) ∧
      ∀ id, (told id).readyEvents = (chs id).readyEvents := by
  -- The channels behind the first one have not been touched when their turn comes.
  induction ids generalizing epoll chs with
  | nil =>
    obtain ⟨same, unchanged⟩ := Prod.mk.inj (Option.some.inj registered)
    rw [← same, ← unchanged]
    simp
  | cons id rest ih =>
    rw [List.nodup_cons] at nodup
    obtain ⟨⟨middle, marked⟩, updated, others⟩ := Option.bind_eq_some_iff.mp registered
    obtain ⟨free, written, same⟩ := updateChannel_new (new id List.mem_cons_self) updated
    have kept : ∀ other ∈ rest, Function.update chs id marked other = chs other := by
      intro other mem
      apply Function.update_of_ne
      intro same
      exact nodup.1 (same ▸ mem)
    have untouched : ∀ other ∈ rest, (Function.update chs id marked other).exist = false := by
      intro other mem
      rw [kept other mem]
      exact new other (List.mem_cons_of_mem _ mem)
    obtain ⟨unknown, apart, entries, ready⟩ := ih nodup.2 untouched others
    have away : ∀ other ∈ rest, (chs other).fd ≠ (chs id).fd := by
      intro other mem here
      have absent := unknown other mem
      rw [kept other mem, here, written, Function.update_self] at absent
      cases absent
    refine ⟨?_, ?_, ?_, ?_⟩
    · intro other mem
      rcases List.mem_cons.mp mem with here | behind
      · rw [here]
        exact free
      · have absent := unknown other behind
        rw [kept other behind, written, Function.update_of_ne (away other behind)] at absent
        exact absent
    · have same : (rest.map fun other => (Function.update chs id marked other).fd) =
          rest.map fun other => (chs other).fd :=
        List.map_congr_left fun other mem => by rw [kept other mem]
      rw [same] at apart
      rw [List.map_cons, List.nodup_cons]
      constructor
      · intro mem
        obtain ⟨other, behind, here⟩ := List.mem_map.mp mem
        exact away other behind here
      · exact apart
    · intro fd entry
      have behind : (∃ other ∈ rest, (Function.update chs id marked other).fd = fd ∧
            entry = ⟨other, eventMask (Function.update chs id marked other).listenEvents⟩) ↔
          ∃ other ∈ rest, (chs other).fd = fd ∧
            entry = ⟨other, eventMask (chs other).listenEvents⟩ := by
        apply exists_congr
        intro other
        apply and_congr_right
        intro mem
        rw [kept other mem]
      rw [entries, behind, written, List.exists_mem_cons_iff, ← or_assoc]
      apply or_congr_left
      by_cases here : fd = (chs id).fd
      · rw [here, Function.update_self, free]
        simp [eq_comm]
      · rw [Function.update_of_ne here]
        simp [Ne.symm here]
    · intro other
      rw [ready other]
      by_cases here : other = id
      · rw [here, Function.update_self, same]
      · rw [Function.update_of_ne here]

/-- A registration with macOS leaves the channels as they are, and writes their filters. -/
theorem registerAll_mac {kq after : Kqueue} {chs told : Channels} {ids : List Nat}
    (apart : (ids.map fun id => (chs id).fd).Nodup)
    (registered : registerAll updateChannelMac kq chs ids = some (after, told)) :
    told = chs ∧
      (∀ fd, (∀ id ∈ ids, (chs id).fd ≠ fd) → after fd = kq fd) ∧
      ∀ id ∈ ids, ∀ direction, after (chs id).fd direction =
        if hasBit (chs id).listenEvents direction.event = true then
          some ⟨id, hasBit (chs id).listenEvents edgeTriggered⟩
        else kq (chs id).fd direction := by
  -- Those behind the first one have other descriptors, and so other filters.
  induction ids generalizing kq with
  | nil =>
    obtain ⟨same, unchanged⟩ := Prod.mk.inj (Option.some.inj registered)
    rw [← same, ← unchanged]
    exact ⟨rfl, fun _ _ => rfl, fun _ absent => nomatch absent⟩
  | cons id rest ih =>
    rw [List.map_cons, List.nodup_cons] at apart
    have away : ∀ other ∈ rest, (chs other).fd ≠ (chs id).fd :=
      fun other mem here => apart.1 (List.mem_map.mpr ⟨other, mem, here⟩)
    obtain ⟨middle, updated, written⟩ := updateChannelMac_eq kq id (chs id)
    rw [registerAll, updated, Option.bind_some] at registered
    simp only [Function.update_eq_self] at registered
    obtain ⟨same, outside, inside⟩ := ih apart.2 registered
    refine ⟨same, ?_, ?_⟩
    · intro fd unknown
      rw [outside fd fun other mem => unknown other (List.mem_cons_of_mem _ mem)]
      funext direction
      rw [written, if_neg]
      exact fun here => unknown id List.mem_cons_self here.1.symm
    · intro other mem direction
      rcases List.mem_cons.mp mem with first | behind
      · rw [first, outside (chs id).fd away, written]
        simp
      · have old : middle (chs other).fd direction = kq (chs other).fd direction := by
          rw [written, if_neg]
          exact fun here => away other behind here.1
        rw [inside other behind, old]

/-- After both registrations, each table has what the channels listen for. -/
theorem registered_of_all {chs linuxChs macChs : Channels} {ids : List Nat} {epoll : Epoll}
    {kq : Kqueue} (nodup : ids.Nodup) (fresh : ∀ id ∈ ids, (chs id).Fresh)
    (linux : registerAll updateChannel (fun _ => none) chs ids = some (epoll, linuxChs))
    (mac : registerAll updateChannelMac (fun _ _ => none) chs ids = some (kq, macChs)) :
    Registered chs ids epoll kq ∧ macChs = chs ∧
      ∀ id, (linuxChs id).readyEvents = (chs id).readyEvents := by
  -- Each descriptor belongs to one channel, so no registration overwrites another one.
  obtain ⟨_, apart, entries, ready⟩ :=
    registerAll_linux nodup (fun id mem => (fresh id mem).2) linux
  obtain ⟨same, outside, inside⟩ := registerAll_mac apart mac
  refine ⟨⟨fun id mem other also => List.inj_on_of_nodup_map apart mem also, ?_, ?_⟩, same, ready⟩
  · intro fd entry
    rw [entries]
    simp
  · intro fd direction note
    by_cases known : ∃ id ∈ ids, (chs id).fd = fd
    · obtain ⟨id, mem, here⟩ := known
      rw [← here, inside id mem]
      constructor
      · intro found
        split at found
        · rename_i listens
          exact ⟨id, mem, rfl, listens, (Option.some.inj found).symm⟩
        · cases found
      · rintro ⟨other, also, shared, listens, same⟩
        have one : other = id := List.inj_on_of_nodup_map apart also mem shared
        rw [one] at listens same
        rw [if_pos listens, same]
    · rw [outside fd fun id mem here => known ⟨id, mem, here⟩]
      constructor
      · exact fun absent => nomatch absent
      · exact fun ⟨id, mem, here, _⟩ => absurd ⟨id, mem, here⟩ known

/-- A direction is wanted if the channel listens in it and is ready. -/
theorem Channel.mem_wants {ch : Channel} {ready : Readiness} {direction : Direction} :
    direction ∈ ch.wants ready ↔
      hasBit ch.listenEvents direction.event = true ∧ ready ch.fd direction = true := by
  cases direction with
  | read => simp [wants]
  | write => simp [wants]

/-- No direction is wanted twice. -/
theorem Channel.wants_nodup (ch : Channel) (ready : Readiness) : (ch.wants ready).Nodup :=
  List.Nodup.filter _ (by decide)

/-- Where not both directions are wanted, there is at most one. -/
theorem Channel.wants_cases (ch : Channel) (ready : Readiness) :
    ch.wants ready = [] ∨ (∃ direction, ch.wants ready = [direction]) ∨
      ch.wants ready = [.read, .write] := by
  simp only [wants, List.filter_cons, List.filter_nil]
  split_ifs
  all_goals simp

/-- A channel that has been told what it wants calls the callbacks of what it wants. -/
theorem Channel.handleEvent_eq {ch base : Channel} {ready : Readiness}
    (told : ∀ direction : Direction, hasBit ch.readyEvents direction.event = true ↔
      direction ∈ base.wants ready) : ch.handleEvent = base.wants ready := by
  -- The callbacks are those of the bits that have been set, in a fixed order.
  have filtered : ch.handleEvent =
      [.read, .write].filter fun direction => hasBit ch.readyEvents direction.event := by
    show (if hasBit ch.readyEvents Direction.read.event then _ else _) ++
      (if hasBit ch.readyEvents Direction.write.event then _ else _) = _
    simp only [List.filter_cons, List.filter_nil]
    split_ifs
    all_goals rfl
  rw [filtered, wants]
  apply List.filter_congr
  intro direction _
  rw [Bool.eq_iff_iff, told, mem_wants, Bool.and_eq_true]

/-- What is ready of what has been asked for, with each condition on its own. -/
theorem mask_and_ready (read write edge readable writable : Bool) :
    let events := if read then epollIn ||| epollPri else 0
    let events := if write then events ||| epollOut else events
    let events := if edge then events ||| epollEt else events
    let ready := (if readable then epollIn else 0) ||| (if writable then epollOut else 0)
    hasBit (events &&& ready) epollIn = (read && readable) ∧
      hasBit (events &&& ready) epollOut = (write && writable) ∧
      (events &&& ready ≠ 0 ↔
        (read = true ∧ readable = true) ∨ (write = true ∧ writable = true)) := by
  revert read write edge readable writable
  decide

/-- The kernel of Linux reports what is ready of what has been asked for. -/
theorem eventMask_ready (listenEvents : Nat) (ready : Direction → Bool) :
    (∀ direction : Direction,
      hasBit (eventMask listenEvents &&& readyMask ready) direction.epollEvent =
        (hasBit listenEvents direction.event && ready direction)) ∧
    (eventMask listenEvents &&& readyMask ready ≠ 0 ↔ ∃ direction : Direction,
      hasBit listenEvents direction.event = true ∧ ready direction = true) := by
  -- The three bits of a request are translated one by one.
  obtain ⟨reads, writes, some_bit⟩ := mask_and_ready (hasBit listenEvents readEvent)
    (hasBit listenEvents writeEvent) (hasBit listenEvents edgeTriggered) (ready .read)
    (ready .write)
  constructor
  · intro direction
    cases direction with
    | read => exact reads
    | write => exact writes
  · refine some_bit.trans ⟨?_, ?_⟩
    · intro wanted
      rcases wanted with read | write
      · exact ⟨.read, read⟩
      · exact ⟨.write, write⟩
    · intro ⟨direction, wanted⟩
      cases direction with
      | read => exact .inl wanted
      | write => exact .inr wanted

/-- What is wanted of a channel is called, and it stands in the vector once. -/
theorem Poller.round_perm {Event : Type} (poller : Poller Event) {chs base : Channels}
    {ready : Readiness} {events : List Event} {active : List Nat} (nodup : active.Nodup)
    (unset : ∀ id ∈ active, (chs id).readyEvents = 0)
    (told : ∀ id ∈ active, ∀ direction,
      poller.Reports id events direction ↔ direction ∈ (base id).wants ready)
    (vector : (events.map poller.channel).Perm active) :
    (poller.round chs events).2.Perm
        (active.flatMap fun id => ((base id).wants ready).map fun direction => (id, direction)) ∧
      (poller.poll chs events).2.Nodup := by
  -- Each channel of the vector calls what it has been told, and that is what it wants.
  constructor
  · show (handleEvents (poller.poll chs events).1 (poller.poll chs events).2).Perm _
    rw [poller.poll_active]
    refine (vector.flatMap_right _).trans (List.Perm.of_eq (List.flatMap_congr fun id mem => ?_))
    congr 1
    apply Channel.handleEvent_eq
    intro direction
    rw [poller.poll_ready, unset id mem, told id mem]
    simp [hasBit]
  · rw [poller.poll_active]
    exact vector.nodup_iff.mpr nodup

/-- The channels that want something. -/
def activeIds (chs : Channels) (ids : List Nat) (ready : Readiness) : List Nat :=
  ids.filter fun id => (chs id).wants ready ≠ []

/-- The filters that they want. -/
def wantedFilters (chs : Channels) (ids : List Nat) (ready : Readiness) : List (Fd × Direction) :=
  ids.flatMap fun id => ((chs id).wants ready).map fun direction => ((chs id).fd, direction)

namespace Registered

variable {chs : Channels} {ids : List Nat} {epoll : Epoll} {kq : Kqueue} {ready : Readiness}

/-- Each channel has its entry in the interest list. -/
theorem entry (table : Registered chs ids epoll kq) {id : Nat} (mem : id ∈ ids) :
    epoll (chs id).fd = some ⟨id, eventMask (chs id).listenEvents⟩ :=
  (table.epoll_iff _ _).mpr ⟨id, mem, rfl, rfl⟩

/-- A channel wants something exactly if its entry has something to report. -/
theorem active_iff {id : Nat} : id ∈ activeIds chs ids ready ↔ id ∈ ids ∧
    eventMask (chs id).listenEvents &&& readyMask (ready (chs id).fd) ≠ 0 := by
  -- A channel is active if it wants some direction.
  rw [(eventMask_ready _ _).2, activeIds, List.mem_filter, decide_eq_true_eq]
  apply and_congr_right
  intro _
  constructor
  · intro wants
    obtain ⟨direction, wanted⟩ := List.exists_mem_of_ne_nil _ wants
    exact ⟨direction, Channel.mem_wants.mp wanted⟩
  · intro ⟨direction, wanted⟩
    exact List.ne_nil_of_mem (Channel.mem_wants.mpr wanted)

/-- Linux has to report the descriptors of the active channels. -/
theorem epollPending_iff (table : Registered chs ids epoll kq) (fd : Fd) :
    EpollPending epoll ready fd ↔ fd ∈ (activeIds chs ids ready).map fun id => (chs id).fd := by
  -- The entries are those of the channels, each under its own descriptor.
  constructor
  · intro ⟨entry, found, pending⟩
    obtain ⟨id, mem, here, same⟩ := (table.epoll_iff fd entry).mp found
    rw [same, ← here] at pending
    exact List.mem_map.mpr ⟨id, active_iff.mpr ⟨mem, pending⟩, here⟩
  · intro listed
    obtain ⟨id, active, here⟩ := List.mem_map.mp listed
    obtain ⟨mem, pending⟩ := active_iff.mp active
    rw [← here]
    exact ⟨_, table.entry mem, pending⟩

/-- A filter of a channel is pending if the channel wants its direction. -/
theorem pending_wants (table : Registered chs ids epoll kq) {id : Nat} (mem : id ∈ ids)
    (direction : Direction) : KqueuePending kq ready ((chs id).fd, direction) ↔
      direction ∈ (chs id).wants ready := by
  -- A filter is in the table exactly if its channel listens for it.
  rw [Channel.mem_wants, KqueuePending]
  apply and_congr_left
  intro _
  constructor
  · intro ⟨note, found⟩
    obtain ⟨other, also, here, listens, _⟩ := (table.kqueue_iff _ _ _).mp found
    have same : other = id := table.apart other also id mem here
    rw [same] at listens
    exact listens
  · intro listens
    exact ⟨_, (table.kqueue_iff _ _ _).mpr ⟨id, mem, rfl, listens, rfl⟩⟩

/-- macOS has to report the filters that the channels want. -/
theorem kqueuePending_iff (table : Registered chs ids epoll kq) (item : Fd × Direction) :
    KqueuePending kq ready item ↔ item ∈ wantedFilters chs ids ready := by
  -- Every entry is for a channel, and pending if that wants it.
  obtain ⟨fd, direction⟩ := item
  simp only [wantedFilters, List.mem_flatMap, List.mem_map, Prod.mk.injEq]
  constructor
  · intro pending
    obtain ⟨note, found⟩ := pending.1
    obtain ⟨id, mem, here, _⟩ := (table.kqueue_iff fd direction note).mp found
    rw [← here] at pending
    exact ⟨id, mem, direction, (table.pending_wants mem direction).mp pending, here, rfl⟩
  · intro ⟨id, mem, other, wanted, here, same⟩
    rw [← here, ← same]
    exact (table.pending_wants mem other).mpr wanted

/-- The active channels have descriptors of their own. -/
theorem active_nodup (table : Registered chs ids epoll kq) (nodup : ids.Nodup) :
    ((activeIds chs ids ready).map fun id => (chs id).fd).Nodup := by
  -- Different channels have different descriptors.
  apply List.Nodup.map_on
  · intro first one second two same
    exact table.apart first (active_iff.mp one).1 second (active_iff.mp two).1 same
  · exact nodup.filter _

/-- No filter is wanted twice. -/
theorem wanted_nodup (table : Registered chs ids epoll kq) (nodup : ids.Nodup) :
    (wantedFilters chs ids ready).Nodup := by
  -- A channel wants no direction twice, and different channels have different descriptors.
  apply List.nodup_flatMap.mpr
  constructor
  · intro id _
    apply (Channel.wants_nodup _ _).map
    exact fun first second same => (Prod.mk.inj same).2
  · apply nodup.imp_of_mem
    intro first second one two differ item here there
    obtain ⟨_, _, same⟩ := List.mem_map.mp here
    obtain ⟨_, _, also⟩ := List.mem_map.mp there
    apply differ
    apply table.apart first one second two
    exact (congrArg Prod.fst same).trans (congrArg Prod.fst also).symm

/-- The events of Linux for some descriptors are those for their channels. -/
theorem mem_epollEvents (table : Registered chs ids epoll kq) {fds : List Fd} {event : EpollEvent} :
    event ∈ epollEvents epoll ready fds ↔ ∃ id ∈ ids, (chs id).fd ∈ fds ∧
      event = ⟨id, eventMask (chs id).listenEvents &&& readyMask (ready (chs id).fd)⟩ := by
  simp only [epollEvents, List.mem_filterMap, Option.map_eq_some_iff]
  constructor
  · intro ⟨fd, reported, entry, found, same⟩
    obtain ⟨id, mem, here, is⟩ := (table.epoll_iff fd entry).mp found
    rw [is, ← here] at same
    exact ⟨id, mem, here ▸ reported, same.symm⟩
  · intro ⟨id, mem, reported, same⟩
    exact ⟨_, reported, _, table.entry mem, same.symm⟩

/-- The events of macOS for some filters are those for their channels. -/
theorem mem_kqueueEvents (table : Registered chs ids epoll kq) {items : List (Fd × Direction)}
    {event : KqueueEvent} : event ∈ kqueueEvents kq items ↔
      ∃ id ∈ ids, ((chs id).fd, event.filter) ∈ items ∧
        hasBit (chs id).listenEvents event.filter.event = true ∧ event.channel = id := by
  simp only [kqueueEvents, List.mem_filterMap, Option.map_eq_some_iff]
  constructor
  · intro ⟨⟨fd, direction⟩, reported, note, found, same⟩
    obtain ⟨id, mem, here, listens, is⟩ := (table.kqueue_iff fd direction note).mp found
    rw [← same, is]
    exact ⟨id, mem, here ▸ reported, listens, rfl⟩
  · intro ⟨id, mem, reported, listens, same⟩
    refine ⟨_, reported, _, (table.kqueue_iff _ _ _).mpr ⟨id, mem, rfl, listens, rfl⟩, ?_⟩
    rw [← same]

/-- A channel is reported by Linux with what it wants, if its descriptor is. -/
theorem linux_reports (table : Registered chs ids epoll kq) {fds : List Fd} {id : Nat}
    (mem : id ∈ ids) {direction : Direction} :
    linuxPoller.Reports id (epollEvents epoll ready fds) direction ↔
      (chs id).fd ∈ fds ∧ direction ∈ (chs id).wants ready := by
  -- The event for the channel is the only one, and has the bits that are wanted.
  have bits : linuxPoller.reports
      ⟨id, eventMask (chs id).listenEvents &&& readyMask (ready (chs id).fd)⟩ direction =
        (hasBit (chs id).listenEvents direction.event && ready (chs id).fd direction) :=
    (eventMask_ready _ _).1 direction
  constructor
  · intro ⟨event, reported, here, told⟩
    obtain ⟨other, _, known, same⟩ := table.mem_epollEvents.mp reported
    rw [same] at here told
    have one : other = id := here
    rw [one] at known told
    rw [bits, Bool.and_eq_true] at told
    exact ⟨known, Channel.mem_wants.mpr told⟩
  · intro ⟨known, wanted⟩
    refine ⟨_, table.mem_epollEvents.mpr ⟨id, mem, known, rfl⟩, rfl, ?_⟩
    rw [bits, Bool.and_eq_true]
    exact Channel.mem_wants.mp wanted

/-- A channel is reported by macOS in the directions of the filters that are. -/
theorem mac_reports (table : Registered chs ids epoll kq) {items : List (Fd × Direction)}
    (pending : ∀ item ∈ items, KqueuePending kq ready item) {id : Nat} (mem : id ∈ ids)
    {direction : Direction} : macPoller.Reports id (kqueueEvents kq items) direction ↔
      ((chs id).fd, direction) ∈ items := by
  -- The event for a filter is for that direction only.
  constructor
  · intro ⟨event, reported, here, told⟩
    obtain ⟨other, _, known, _, same⟩ := table.mem_kqueueEvents.mp reported
    have filter : event.filter = direction := of_decide_eq_true told
    have one : other = id := same.symm.trans here
    rw [filter, one] at known
    exact known
  · intro known
    have listens := (Channel.mem_wants.mp ((table.pending_wants mem direction).mp
      (pending _ known))).1
    exact ⟨⟨id, direction⟩, table.mem_kqueueEvents.mpr ⟨id, mem, known, listens, rfl⟩, rfl,
      decide_eq_true rfl⟩

/-- The vector of Linux for a complete batch has the active channels. -/
theorem linux_vector (table : Registered chs ids epoll kq) {fds : List Fd}
    (all : fds.Perm ((activeIds chs ids ready).map fun id => (chs id).fd)) :
    ((epollEvents epoll ready fds).map linuxPoller.channel).Perm (activeIds chs ids ready) := by
  -- The descriptors are translated back to their channels, one by one.
  have events : ∀ sub : List Nat, (∀ id ∈ sub, id ∈ ids) →
      (epollEvents epoll ready (sub.map fun id => (chs id).fd)).map linuxPoller.channel = sub := by
    intro sub known
    induction sub with
    | nil => rfl
    | cons id rest ih =>
      have entry := table.entry (known id List.mem_cons_self)
      have others := ih fun other mem => known other (List.mem_cons_of_mem _ mem)
      rw [epollEvents] at others ⊢
      rw [List.map_cons, List.filterMap_cons, entry, Option.map_some, List.map_cons, others]
      rfl
  have same := events (activeIds chs ids ready) fun id mem => (active_iff.mp mem).1
  exact ((all.filterMap _).map _).trans (List.Perm.of_eq same)

/-- The vector of macOS for a complete batch has a channel as often as it wants something. -/
theorem mac_vector (table : Registered chs ids epoll kq) {items : List (Fd × Direction)}
    (all : items.Perm (wantedFilters chs ids ready)) :
    ((kqueueEvents kq items).map macPoller.channel).Perm
      (ids.flatMap fun id => ((chs id).wants ready).map fun _ => id) := by
  -- The filters of one channel first, and then those of one channel after the other.
  have one : ∀ id ∈ ids, ∀ directions : List Direction,
      (∀ direction ∈ directions, direction ∈ (chs id).wants ready) →
      (kqueueEvents kq (directions.map fun direction => ((chs id).fd, direction))).map
        macPoller.channel = directions.map fun _ => id := by
    intro id mem directions wanted
    induction directions with
    | nil => rfl
    | cons direction rest ih =>
      have listens := (Channel.mem_wants.mp (wanted direction List.mem_cons_self)).1
      have entry := (table.kqueue_iff _ _ _).mpr ⟨id, mem, rfl, listens, rfl⟩
      have others := ih fun other mem => wanted other (List.mem_cons_of_mem _ mem)
      rw [kqueueEvents] at others ⊢
      rw [List.map_cons, List.filterMap_cons, entry, Option.map_some, List.map_cons, others]
      rfl
  have events : ∀ sub : List Nat, (∀ id ∈ sub, id ∈ ids) →
      (kqueueEvents kq (wantedFilters chs sub ready)).map macPoller.channel =
        sub.flatMap fun id => ((chs id).wants ready).map fun _ => id := by
    intro sub known
    induction sub with
    | nil => rfl
    | cons id rest ih =>
      have first := one id (known id List.mem_cons_self) ((chs id).wants ready) fun _ mem => mem
      have others := ih fun other mem => known other (List.mem_cons_of_mem _ mem)
      rw [wantedFilters, kqueueEvents] at others ⊢
      rw [kqueueEvents] at first
      rw [List.flatMap_cons, List.filterMap_append, List.map_append, first, others,
        List.flatMap_cons]
  exact ((all.filterMap _).map _).trans (List.Perm.of_eq (events ids fun _ mem => mem))

/-- Where nobody wants both directions, that is once for each active channel. -/
theorem flatMap_wants (single : ∀ id ∈ ids, (chs id).wants ready ≠ [.read, .write]) :
    (ids.flatMap fun id => ((chs id).wants ready).map fun _ => id) = activeIds chs ids ready := by
  -- The induction is on the channels, of which each wants nothing or one direction.
  rw [activeIds]
  induction ids with
  | nil => rfl
  | cons id rest ih =>
    have others := ih fun other mem => single other (List.mem_cons_of_mem _ mem)
    rw [List.flatMap_cons, others, List.filter_cons]
    rcases (chs id).wants_cases ready with idle | ⟨direction, one⟩ | both
    · simp [idle]
    · simp [one]
    · exact absurd both (single id List.mem_cons_self)

/-- A complete batch of Linux calls what is wanted. -/
theorem linux_calls (table : Registered chs ids epoll kq) (nodup : ids.Nodup) {told : Channels}
    (unset : ∀ id ∈ ids, (told id).readyEvents = 0) {fds : List Fd}
    (all : fds.Perm ((activeIds chs ids ready).map fun id => (chs id).fd)) :
    (linuxPoller.round told (epollEvents epoll ready fds)).2.Perm ((activeIds chs ids ready).flatMap
        fun id => ((chs id).wants ready).map fun direction => (id, direction)) ∧
      (linuxPoller.poll told (epollEvents epoll ready fds)).2.Nodup := by
  -- Every active channel is told what it wants by its one event.
  apply linuxPoller.round_perm (nodup.filter _)
  · exact fun id active => unset id (active_iff.mp active).1
  · intro id active direction
    rw [table.linux_reports (active_iff.mp active).1]
    exact and_iff_right (all.mem_iff.mpr (List.mem_map.mpr ⟨id, active, rfl⟩))
  · exact table.linux_vector all

/-- So does a complete batch of macOS, if nobody wants both directions. -/
theorem mac_calls (table : Registered chs ids epoll kq) (nodup : ids.Nodup)
    (unset : ∀ id ∈ ids, (chs id).readyEvents = 0)
    (single : ∀ id ∈ ids, (chs id).wants ready ≠ [.read, .write]) {items : List (Fd × Direction)}
    (all : items.Perm (wantedFilters chs ids ready)) :
    (macPoller.round chs (kqueueEvents kq items)).2.Perm ((activeIds chs ids ready).flatMap
        fun id => ((chs id).wants ready).map fun direction => (id, direction)) ∧
      (macPoller.poll chs (kqueueEvents kq items)).2.Nodup := by
  -- Every active channel is told the one direction that it wants.
  apply macPoller.round_perm (nodup.filter _)
  · exact fun id active => unset id (active_iff.mp active).1
  · intro id active direction
    have pending : ∀ item ∈ items, KqueuePending kq ready item :=
      fun item mem => (table.kqueuePending_iff item).mpr (all.mem_iff.mp mem)
    obtain ⟨mem, _⟩ := active_iff.mp active
    rw [table.mac_reports pending mem, all.mem_iff, ← table.kqueuePending_iff]
    exact table.pending_wants mem direction
  · have vector := table.mac_vector all
    rw [flatMap_wants single] at vector
    exact vector

/-- A channel that wants both directions may stand in the vector of macOS twice. -/
theorem twice_in_vector (table : Registered chs ids epoll kq) {id : Nat} (mem : id ∈ ids)
    {items : List (Fd × Direction)}
    (pending : ∀ item ∈ items, KqueuePending kq ready item)
    (reads : ((chs id).fd, .read) ∈ items) (writes : ((chs id).fd, .write) ∈ items) :
    ¬ ((kqueueEvents kq items).map macPoller.channel).Nodup := by
  -- The two filters may be brought to the front.
  obtain ⟨rest, front⟩ :
      ∃ rest, items.Perm (((chs id).fd, .read) :: ((chs id).fd, .write) :: rest) := by
    have first := List.perm_cons_erase reads
    have behind : ((chs id).fd, Direction.write) ∈ items.erase ((chs id).fd, .read) :=
      (List.mem_erase_of_ne (by simp)).mpr writes
    exact ⟨_, first.trans ((List.perm_cons_erase behind).cons _)⟩
  have entries : ∀ direction, ((chs id).fd, direction) ∈ items → kq (chs id).fd direction =
      some ⟨id, hasBit (chs id).listenEvents edgeTriggered⟩ := by
    intro direction known
    have wanted := (table.pending_wants mem direction).mp (pending _ known)
    exact (table.kqueue_iff _ _ _).mpr ⟨id, mem, rfl, (Channel.mem_wants.mp wanted).1, rfl⟩
  have vector := (front.filterMap fun item => (kq item.1 item.2).map fun note =>
    (⟨note.channel, item.2⟩ : KqueueEvent)).map macPoller.channel
  rw [List.filterMap_cons, List.filterMap_cons, entries .read reads, entries .write writes]
    at vector
  intro once
  have twice : (id :: id :: (rest.filterMap _).map macPoller.channel).Nodup :=
    vector.nodup_iff.mp once
  simp at twice

/-- Linux has some batch to return. -/
theorem exists_linuxBatch (table : Registered chs ids epoll kq) (ready : Readiness)
    (nodup : ids.Nodup) : ∃ fds, Batch maxEvents (EpollPending epoll ready) fds := by
  have lists : ∃ fds, Batch maxEvents (EpollPending epoll ready) fds ∧
      ∀ fd ∈ ([] : List Fd), fd ∈ fds :=
    Batch.exists_containing (table.active_nodup nodup) table.epollPending_iff List.nodup_nil
      (fun _ absent => nomatch absent) (Nat.zero_le _)
  obtain ⟨fds, batch, _⟩ := lists
  exact ⟨fds, batch⟩

/-- The pollers differ if a channel wants both directions. -/
theorem not_alike_of_both (table : Registered chs ids epoll kq) (nodup : ids.Nodup)
    {told : Channels} {id : Nat} (mem : id ∈ ids) (both : (chs id).wants ready = [.read, .write]) :
    ¬ DispatchAlike epoll told kq chs ready := by
  -- Linux returns the channel once, and so must macOS.
  intro alike
  obtain ⟨fds, linuxBatch⟩ := table.exists_linuxBatch ready nodup
  -- Both filters of such a channel may be in one batch.
  have chosen : ∀ item ∈ [((chs id).fd, Direction.read), ((chs id).fd, .write)],
      KqueuePending kq ready item := by
    intro item listed
    rcases List.mem_cons.mp listed with first | others
    · rw [first]
      exact (table.pending_wants mem .read).mpr (both ▸ List.mem_cons_self)
    · rw [List.mem_singleton.mp others]
      exact (table.pending_wants mem .write).mpr (both ▸ by simp)
  obtain ⟨items, macBatch, has⟩ := Batch.exists_containing (table.wanted_nodup nodup)
    table.kqueuePending_iff (by simp) chosen (show 2 ≤ maxEvents by decide)
  obtain ⟨_, _, once⟩ := alike fds items linuxBatch macBatch
  rw [Poller.poll_active] at once
  exact table.twice_in_vector mem macBatch.sound (has _ (by simp)) (has _ (by simp)) once

/-- The pollers differ if more channels are active than fit into the array of events. -/
theorem not_alike_of_many (table : Registered chs ids epoll kq) (nodup : ids.Nodup)
    {told : Channels} (many : maxEvents < (activeIds chs ids ready).length) :
    ¬ DispatchAlike epoll told kq chs ready := by
  intro alike
  obtain ⟨fds, linuxBatch⟩ := table.exists_linuxBatch ready nodup
  -- Linux leaves somebody out whom macOS need not leave out.
  obtain ⟨fd, active, missing⟩ := linuxBatch.exists_missing (table.active_nodup nodup)
    (by simpa using many)
  obtain ⟨id, wants, here⟩ := List.mem_map.mp active
  obtain ⟨mem, wants_some⟩ := List.mem_filter.mp wants
  obtain ⟨direction, wanted⟩ := List.exists_mem_of_ne_nil _ (of_decide_eq_true wants_some)
  have chosen : ∀ item ∈ [((chs id).fd, direction)], KqueuePending kq ready item := by
    intro item one
    rw [List.mem_singleton.mp one]
    exact (table.pending_wants mem direction).mpr wanted
  obtain ⟨items, macBatch, has⟩ := Batch.exists_containing (table.wanted_nodup nodup)
    table.kqueuePending_iff (List.nodup_singleton _) chosen (show 1 ≤ maxEvents by decide)
  have called : (id, direction) ∈ (macPoller.round chs (kqueueEvents kq items)).2 := by
    have reports := (table.mac_reports macBatch.sound mem).mpr (has _ (List.mem_singleton_self _))
    obtain ⟨event, listed, concerned, told⟩ := reports
    exact (Poller.mem_round _ _ _ _ _).mpr
      ⟨⟨event, listed, concerned⟩, .inr ⟨event, listed, concerned, told⟩⟩
  obtain ⟨same, _⟩ := alike fds items linuxBatch macBatch
  rw [← same.mem_iff, Poller.mem_round] at called
  obtain ⟨⟨event, reported, concerned⟩, _⟩ := called
  obtain ⟨other, _, listed, is⟩ := table.mem_epollEvents.mp reported
  rw [is] at concerned
  have one : other = id := concerned
  rw [one, here] at listed
  exact missing listed

/-- Otherwise they call what is wanted, each callback once. -/
theorem alike_of_single (table : Registered chs ids epoll kq) (nodup : ids.Nodup)
    {told : Channels} (unset : ∀ id ∈ ids, (chs id).readyEvents = 0)
    (untold : ∀ id ∈ ids, (told id).readyEvents = 0)
    (single : ∀ id ∈ ids, (chs id).wants ready ≠ [.read, .write])
    (few : (activeIds chs ids ready).length ≤ maxEvents) :
    DispatchAlike epoll told kq chs ready := by
  -- All that is pending fits into one batch, on either side.
  intro fds items linuxBatch macBatch
  have few_filters : (wantedFilters chs ids ready).length ≤ maxEvents := by
    rw [← flatMap_wants single] at few
    simpa [wantedFilters, List.length_flatMap] using few
  have all := linuxBatch.perm (table.active_nodup nodup) table.epollPending_iff (by simpa using few)
  have also := macBatch.perm (table.wanted_nodup nodup) table.kqueuePending_iff few_filters
  obtain ⟨calls, once⟩ := table.linux_calls nodup untold all
  obtain ⟨others, too⟩ := table.mac_calls nodup unset single also
  exact ⟨calls.trans others.symm, once, too⟩

end Registered

/--
The pollers dispatch alike exactly if no channel wants both directions, and all that are active fit
into the array of events.
-/
theorem pollers_alike_iff {chs linuxChs macChs : Channels} {ids : List Nat} {epoll : Epoll}
    {kq : Kqueue} (nodup : ids.Nodup) (fresh : ∀ id ∈ ids, (chs id).Fresh)
    (linux : registerAll updateChannel (fun _ => none) chs ids = some (epoll, linuxChs))
    (mac : registerAll updateChannelMac (fun _ _ => none) chs ids = some (kq, macChs))
    (ready : Readiness) : DispatchAlike epoll linuxChs kq macChs ready ↔
      (∀ id ∈ ids, (chs id).wants ready ≠ [.read, .write]) ∧
        (activeIds chs ids ready).length ≤ maxEvents := by
  -- The two ways in which the pollers can differ are excluded one by one.
  obtain ⟨table, same, kept⟩ := registered_of_all nodup fresh linux mac
  rw [same]
  constructor
  · intro alike
    constructor
    · exact fun id mem both => table.not_alike_of_both nodup mem both alike
    · by_contra many
      exact table.not_alike_of_many nodup (Nat.lt_of_not_le many) alike
  · intro ⟨single, few⟩
    have unset : ∀ id ∈ ids, (chs id).readyEvents = 0 := fun id mem => (fresh id mem).1
    have untold : ∀ id ∈ ids, (linuxChs id).readyEvents = 0 :=
      fun id mem => (kept id).trans (unset id mem)
    exact table.alike_of_single nodup unset untold single few

/-- Two new channels, of which the first listens in both directions and the second one writes. -/
def twoChannels : Channels
  | 0 => { loop := 0, fd := 5, listenEvents := readEvent ||| writeEvent ||| edgeTriggered }
  | _ => { loop := 0, fd := 6, listenEvents := writeEvent }

/-- Nothing has been told to either. -/
theorem twoChannels_fresh : ∀ id ∈ [0, 1], (twoChannels id).Fresh := by
  intro id mem
  rcases List.mem_cons.mp mem with first | second
  · rw [first]
    exact ⟨rfl, rfl⟩
  · rw [List.mem_singleton.mp second]
    exact ⟨rfl, rfl⟩

/-- As long as the first channel cannot be written to, the pollers dispatch alike. -/
theorem pollers_alike_two : ∃ epoll linuxChs kq macChs,
    registerAll updateChannel (fun _ => none) twoChannels [0, 1] = some (epoll, linuxChs) ∧
    registerAll updateChannelMac (fun _ _ => none) twoChannels [0, 1] = some (kq, macChs) ∧
    DispatchAlike epoll linuxChs kq macChs
      (fun fd direction => decide (fd = 5 ↔ direction = .read)) := by
  refine ⟨_, _, _, _, rfl, rfl, ?_⟩
  apply (pollers_alike_iff (by decide) twoChannels_fresh rfl rfl _).mpr
  exact ⟨by decide, by decide⟩

/-- Where the first channel is ready in both directions, macOS calls its callbacks twice. -/
theorem pollers_differ : ∃ epoll linuxChs kq macChs,
    registerAll updateChannel (fun _ => none) twoChannels [0] = some (epoll, linuxChs) ∧
    registerAll updateChannelMac (fun _ _ => none) twoChannels [0] = some (kq, macChs) ∧
    (linuxPoller.round linuxChs (epollEvents epoll (fun _ _ => true) [5])).2 =
      [(0, .read), (0, .write)] ∧
    (macPoller.round macChs (kqueueEvents kq [(5, .read), (5, .write)])).2 =
      [(0, .read), (0, .write), (0, .read), (0, .write)] ∧
    ¬ DispatchAlike epoll linuxChs kq macChs fun _ _ => true := by
  -- Both filters of the channel are reported at once.
  have fresh : ∀ id ∈ [0], (twoChannels id).Fresh :=
    fun id mem => twoChannels_fresh id (List.mem_cons.mpr (.inl (List.mem_singleton.mp mem)))
  refine ⟨_, _, _, _, rfl, rfl, rfl, rfl, ?_⟩
  obtain ⟨table, same, _⟩ := registered_of_all (by decide) fresh rfl rfl
  rw [same]
  have mem : 0 ∈ [0] := List.mem_singleton_self 0
  exact table.not_alike_of_both (by decide) mem (by decide)

end SimpleSrv.Nebula
