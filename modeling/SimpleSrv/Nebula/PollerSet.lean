import SimpleSrv.Lib.Run
import SimpleSrv.Nebula.Channel

/-! What the channels of a poller and the kernel's interest list know of each other. -/

namespace SimpleSrv.Nebula

/-- What a program does with the channels of one event loop. -/
inductive ChannelOp where
  | construct (id : Nat) (fd : Fd)
  | enableRead (id : Nat)
  | enableWrite (id : Nat)
  | useEt (id : Nat)
  | destroy (id : Nat)
  deriving DecidableEq, Repr

/-- A Linux poller, with the channels of its event loop. -/
structure PollerSet where
  /-- The number of the event loop. -/
  loop : Nat
  /-- The channels between their construction and their destruction, by number. -/
  channels : Nat → Option Channel
  epoll : Epoll
  /-- Whether an `epoll_ctl` has failed, so that `ErrorIf` has ended the process. -/
  exited : Bool

namespace PollerSet

/-- A new poller, which no channel uses. -/
def new (loop : Nat) : PollerSet := ⟨loop, fun _ => none, fun _ => none, false⟩

/-- What the constructor of a channel leaves behind, which does not go to the poller. -/
def constructed (s : PollerSet) (id : Nat) (fd : Fd) : PollerSet :=
  { s with channels := Function.update s.channels id (some { loop := s.loop, fd := fd }) }

/-- What `Poller::UpdateChannel` leaves behind for a channel. -/
def updated (s : PollerSet) (id : Nat) : Option (Epoll × Channel) → PollerSet
  | none => { s with exited := true }
  | some (epoll, ch) =>
    { s with epoll := epoll, channels := Function.update s.channels id (some ch) }

/-- What the destructor of a channel leaves behind, after its `Poller::DeleteChannel`. -/
def destroyed (s : PollerSet) (id : Nat) : Option (Epoll × Channel) → PollerSet
  | none => { s with exited := true }
  | some (epoll, _) =>
    { s with epoll := epoll, channels := Function.update s.channels id none }

/-- One operation on a channel, in a process that has not ended. -/
def step (s : PollerSet) (op : ChannelOp) : Option PollerSet :=
  if s.exited then none
  else
    match op with
    | .construct id fd => if (s.channels id).isSome then none else some (s.constructed id fd)
    | .enableRead id => (s.channels id).map fun ch => s.updated id (ch.enableRead s.epoll id)
    | .enableWrite id => (s.channels id).map fun ch => s.updated id (ch.enableWrite s.epoll id)
    | .useEt id => (s.channels id).map fun ch => s.updated id (ch.useEt s.epoll id)
    | .destroy id => (s.channels id).map fun ch => s.destroyed id (deleteChannel s.epoll ch)

/-- A new channel gets a descriptor that no other channel has. -/
def DistinctFds (s : PollerSet) : ChannelOp → Prop
  | .construct _ fd => ∀ id ch, s.channels id = some ch → ch.fd ≠ fd
  | _ => True

/-- A channel that is destroyed has been enabled for something. -/
def DestroysEnabled (s : PollerSet) : ChannelOp → Prop
  | .destroy id => ∀ ch, s.channels id = some ch → ch.listenEvents ≠ 0
  | _ => True

/-- The flag and the events of each channel are what the kernel has for its descriptor. -/
structure Tracks (s : PollerSet) : Prop where
  exist : ∀ id ch, s.channels id = some ch → (ch.exist = true ↔ (s.epoll ch.fd).isSome = true)
  mask : ∀ id ch, s.channels id = some ch → ch.exist = true →
    s.epoll ch.fd = some ⟨id, eventMask ch.listenEvents⟩

/-- The channels are tracked, and no `epoll_ctl` has failed. -/
def Sound (s : PollerSet) : Prop := s.Tracks ∧ s.exited = false

/-- What is always true of the channels of a poller, however they are used. -/
structure Inv (s : PollerSet) : Prop where
  tracks : s.Tracks
  /-- Two channels never have the same descriptor. -/
  apart : ∀ a b x y, s.channels a = some x → s.channels b = some y → x.fd = y.fd → a = b
  /-- The kernel has no descriptor but those of channels. -/
  owned : ∀ fd, (s.epoll fd).isSome = true → ∃ id ch, s.channels id = some ch ∧ ch.fd = fd
  /-- A channel is in the list as soon as it listens for something. -/
  listening : ∀ id ch, s.channels id = some ch → (ch.exist = true ↔ ch.listenEvents ≠ 0)

end PollerSet

/-- An update of a channel whose flag is right puts its events into the list. -/
theorem updateChannel_eq {epoll : Epoll} {ch : Channel} (id : Nat)
    (flag : ch.exist = true ↔ (epoll ch.fd).isSome = true) :
    updateChannel epoll id ch =
      some (Function.update epoll ch.fd (some ⟨id, eventMask ch.listenEvents⟩),
        { ch with exist := true }) := by
  -- The flag chooses between the two calls, and each of them finds what it needs.
  unfold updateChannel
  cases exist : ch.exist with
  | true =>
    have present : (epoll ch.fd).isSome = true := flag.mp exist
    rw [if_pos rfl, if_pos present, ← exist]
  | false =>
    have absent : ¬ (epoll ch.fd).isSome = true := fun present => by
      simp [flag.mpr present] at exist
    rw [if_neg Bool.false_ne_true, if_neg absent]

namespace PollerSet.Inv

variable {s t : PollerSet} {op : ChannelOp} {id : Nat} {ch : Channel}

/-- A new poller has no channels to track. -/
theorem new (loop : Nat) : (PollerSet.new loop).Inv where
  tracks := ⟨fun _ _ present => (by cases present), fun _ _ present => (by cases present)⟩
  apart := fun _ _ _ _ present => by cases present
  owned := fun _ present => by cases present
  listening := fun _ _ present => by cases present

/-- The flags stay right when another event is listened for. -/
theorem enabled (inv : s.Inv) (live : s.channels id = some ch) (bit : Nat) (some_bit : bit ≠ 0) :
    let ch' := { ch with listenEvents := ch.listenEvents ||| bit }
    (s.updated id (updateChannel s.epoll id ch')).Inv ∧
      (s.updated id (updateChannel s.epoll id ch')).exited = s.exited := by
  -- The call is the addition or the modification that the flag selects.
  intro ch'
  have added : updateChannel s.epoll id ch' = _ :=
    updateChannel_eq id (inv.tracks.exist id ch live)
  rw [added]
  refine ⟨?_, rfl⟩
  -- The channels afterwards are the old ones but for this one, which keeps its descriptor.
  have channels : ∀ other x, Function.update s.channels id (some { ch' with exist := true }) other =
      some x → (other = id ∧ x = { ch' with exist := true }) ∨
        (other ≠ id ∧ s.channels other = some x ∧ x.fd ≠ ch.fd) := by
    intro other x present
    by_cases same : other = id
    · subst same
      rw [Function.update_self] at present
      exact .inl ⟨rfl, (Option.some.inj present).symm⟩
    · rw [Function.update_of_ne same] at present
      exact .inr ⟨same, present, fun fds => same (inv.apart _ _ _ _ present live fds)⟩
  have listens : ch.listenEvents ||| bit ≠ 0 := fun zero =>
    some_bit (Nat.or_eq_zero_iff.mp zero).2
  constructor
  · constructor
    · intro other x present
      rcases channels other x present with ⟨rfl, rfl⟩ | ⟨_, older, apart⟩
      · simp [updated, ch']
      · simpa [updated, ch', Function.update_of_ne apart] using inv.tracks.exist other x older
    · intro other x present exist
      rcases channels other x present with ⟨rfl, rfl⟩ | ⟨_, older, apart⟩
      · simp [updated, ch']
      · simpa [updated, ch', Function.update_of_ne apart] using inv.tracks.mask other x older exist
  · intro a b x y first second fds
    rcases channels a x first with ⟨rfl, rfl⟩ | ⟨_, olderA, apartA⟩
    · rcases channels b y second with ⟨rfl, rfl⟩ | ⟨_, _, apartB⟩
      · rfl
      · exact absurd fds.symm apartB
    · rcases channels b y second with ⟨rfl, rfl⟩ | ⟨_, olderB, _⟩
      · exact absurd fds apartA
      · exact inv.apart a b x y olderA olderB fds
  · intro fd present
    by_cases own : fd = ch.fd
    · exact ⟨id, { ch' with exist := true }, by simp [updated], own.symm⟩
    · have before : (s.epoll fd).isSome = true := by
        simpa [updated, ch', Function.update_of_ne own] using present
      obtain ⟨other, x, older, fds⟩ := inv.owned fd before
      have elsewhere : other ≠ id := by
        rintro rfl
        rw [older] at live
        exact own (Option.some.inj live ▸ fds.symm)
      exact ⟨other, x, by simpa [updated, Function.update_of_ne elsewhere] using older, fds⟩
  · intro other x present
    rcases channels other x present with ⟨rfl, rfl⟩ | ⟨_, older, _⟩
    · simpa [ch'] using listens
    · exact inv.listening other x older

/-- A new channel is not in the list, since its descriptor is nobody else's. -/
theorem constructed (inv : s.Inv) {fd : Fd} (fresh : s.channels id = none)
    (distinct : ∀ other x, s.channels other = some x → x.fd ≠ fd) :
    (s.constructed id fd).Inv := by
  have absent : s.epoll fd = none := by
    rw [← Option.not_isSome_iff_eq_none]
    intro present
    obtain ⟨other, x, live, fds⟩ := inv.owned fd present
    exact distinct other x live fds
  -- Each channel afterwards is the new one, or an old one with another number.
  have channels : ∀ other x, Function.update s.channels id (some { loop := s.loop, fd := fd })
      other = some x → (other = id ∧ x = { loop := s.loop, fd := fd }) ∨
        s.channels other = some x := by
    intro other x present
    by_cases same : other = id
    · subst same
      rw [Function.update_self] at present
      exact .inl ⟨rfl, (Option.some.inj present).symm⟩
    · rw [Function.update_of_ne same] at present
      exact .inr present
  constructor
  · constructor
    · intro other x present
      rcases channels other x present with ⟨rfl, rfl⟩ | older
      · simp [PollerSet.constructed, absent]
      · exact inv.tracks.exist other x older
    · intro other x present exist
      rcases channels other x present with ⟨rfl, rfl⟩ | older
      · cases exist
      · exact inv.tracks.mask other x older exist
  · intro a b x y first second fds
    rcases channels a x first with ⟨rfl, rfl⟩ | olderA
    · rcases channels b y second with ⟨rfl, rfl⟩ | olderB
      · rfl
      · exact absurd fds.symm (distinct b y olderB)
    · rcases channels b y second with ⟨rfl, rfl⟩ | olderB
      · exact absurd fds (distinct a x olderA)
      · exact inv.apart a b x y olderA olderB fds
  · intro other present
    obtain ⟨number, x, older, fds⟩ := inv.owned other present
    have elsewhere : number ≠ id := by
      rintro rfl
      rw [fresh] at older
      cases older
    have present : (s.constructed id fd).channels number = some x := by
      simpa [PollerSet.constructed, Function.update_of_ne elsewhere] using older
    exact ⟨number, x, present, fds⟩
  · intro other x present
    rcases channels other x present with ⟨rfl, rfl⟩ | older
    · simp
    · exact inv.listening other x older

/-- A channel that goes takes its descriptor out of the list. -/
theorem removed (inv : s.Inv) (live : s.channels id = some ch) (last : Channel) :
    (s.destroyed id (some (Function.update s.epoll ch.fd none, last))).Inv := by
  -- Each channel that stays has another descriptor, whose entry is not touched.
  have channels : ∀ other x, Function.update s.channels id none other = some x →
      other ≠ id ∧ s.channels other = some x ∧ x.fd ≠ ch.fd := by
    intro other x present
    by_cases same : other = id
    · subst same
      rw [Function.update_self] at present
      cases present
    · rw [Function.update_of_ne same] at present
      exact ⟨same, present, fun fds => same (inv.apart _ _ _ _ present live fds)⟩
  constructor
  · constructor
    · intro other x present
      obtain ⟨_, older, apart⟩ := channels other x present
      simpa [destroyed, Function.update_of_ne apart] using inv.tracks.exist other x older
    · intro other x present exist
      obtain ⟨_, older, apart⟩ := channels other x present
      simpa [destroyed, Function.update_of_ne apart] using inv.tracks.mask other x older exist
  · intro a b x y first second fds
    exact inv.apart a b x y (channels a x first).2.1 (channels b y second).2.1 fds
  · intro fd present
    have other : fd ≠ ch.fd := by
      rintro rfl
      simp [destroyed] at present
    have before : (s.epoll fd).isSome = true := by
      simpa [destroyed, Function.update_of_ne other] using present
    obtain ⟨number, x, older, fds⟩ := inv.owned fd before
    have elsewhere : number ≠ id := by
      rintro rfl
      rw [older] at live
      exact other (Option.some.inj live ▸ fds.symm)
    exact ⟨number, x, by simpa [destroyed, Function.update_of_ne elsewhere] using older, fds⟩
  · intro other x present
    exact inv.listening other x (channels other x present).2.1

/-- A process that ends leaves everything as it is. -/
theorem ended (inv : s.Inv) : ({ s with exited := true } : PollerSet).Inv where
  tracks := ⟨inv.tracks.exist, inv.tracks.mask⟩
  apart := inv.apart
  owned := inv.owned
  listening := inv.listening

/-- Every operation on a channel with a descriptor of its own keeps the invariant. -/
theorem step (inv : s.Inv) (distinct : s.DistinctFds op) (stepped : s.step op = some t) :
    t.Inv := by
  -- By the operation, where the three ways to enable a channel differ in one bit only.
  unfold PollerSet.step at stepped
  split at stepped
  · cases stepped
  · cases op with
    | construct id fd =>
      obtain ⟨fresh, stepped⟩ := Option.ite_none_left_eq_some.mp stepped
      obtain rfl := Option.some.inj stepped
      exact inv.constructed (Option.not_isSome_iff_eq_none.mp fresh) distinct
    | enableRead id =>
      obtain ⟨ch, live, rfl⟩ := Option.map_eq_some_iff.mp stepped
      exact (inv.enabled live readEvent (by decide)).1
    | enableWrite id =>
      obtain ⟨ch, live, rfl⟩ := Option.map_eq_some_iff.mp stepped
      exact (inv.enabled live writeEvent (by decide)).1
    | useEt id =>
      obtain ⟨ch, live, rfl⟩ := Option.map_eq_some_iff.mp stepped
      exact (inv.enabled live edgeTriggered (by decide)).1
    | destroy id =>
      obtain ⟨ch, live, rfl⟩ := Option.map_eq_some_iff.mp stepped
      unfold deleteChannel
      split
      · exact inv.removed live _
      · exact inv.ended

/-- Only the destruction of a channel that was never enabled ends the process. -/
theorem exited_iff (inv : s.Inv) (stepped : s.step op = some t) :
    t.exited = false ↔ s.DestroysEnabled op := by
  -- An operation is only made in a process that has not ended.
  unfold PollerSet.step at stepped
  split at stepped
  · cases stepped
  · rename_i going
    have before : s.exited = false := by simpa using going
    cases op with
    | construct id fd =>
      obtain ⟨_, stepped⟩ := Option.ite_none_left_eq_some.mp stepped
      obtain rfl := Option.some.inj stepped
      exact iff_of_true before trivial
    | enableRead id =>
      obtain ⟨ch, live, rfl⟩ := Option.map_eq_some_iff.mp stepped
      exact iff_of_true ((inv.enabled live readEvent (by decide)).2.trans before) trivial
    | enableWrite id =>
      obtain ⟨ch, live, rfl⟩ := Option.map_eq_some_iff.mp stepped
      exact iff_of_true ((inv.enabled live writeEvent (by decide)).2.trans before) trivial
    | useEt id =>
      obtain ⟨ch, live, rfl⟩ := Option.map_eq_some_iff.mp stepped
      exact iff_of_true ((inv.enabled live edgeTriggered (by decide)).2.trans before)
        trivial
    | destroy id =>
      obtain ⟨ch, live, rfl⟩ := Option.map_eq_some_iff.mp stepped
      have listens : s.DestroysEnabled (.destroy id) ↔ (s.epoll ch.fd).isSome = true := by
        rw [← inv.tracks.exist id ch live, inv.listening id ch live]
        constructor
        · exact fun enabled => enabled ch live
        · intro listens x present
          rw [live] at present
          exact Option.some.inj present ▸ listens
      rw [listens]
      -- The call finds the descriptor exactly if the flag of the channel is set.
      unfold deleteChannel
      split
      · rename_i present
        exact iff_of_true before present
      · rename_i absent
        exact iff_of_false (by simp [destroyed]) absent

end PollerSet.Inv

open PollerSet

/-- Along every run, the flag and the events of each channel are what the kernel has. -/
theorem tracks_of_run {loop : Nat} {ops : List ChannelOp} {s : PollerSet}
    (run : Run PollerSet.step DistinctFds (.new loop) ops s) : s.Tracks :=
  -- The invariant holds from the new poller on, and says so among other things.
  (run.invariant (PollerSet.Inv.new loop) fun _ _ _ inv => inv.step).tracks

/--
Every operation leaves the channels tracked, and the process running, exactly if each channel that
is destroyed was enabled before.
-/
theorem exist_tracks_iff (loop : Nat) (ops : List ChannelOp) (s : PollerSet) :
    Run PollerSet.step (fun r op => r.DistinctFds op ∧ ∀ t, r.step op = some t → t.Sound)
        (.new loop) ops s ↔
      Run PollerSet.step (fun r op => r.DistinctFds op ∧ r.DestroysEnabled op)
        (.new loop) ops s := by
  -- The runs are compared step by step, under the invariant.
  constructor
  · intro run
    apply run.strengthen (PollerSet.Inv.new loop) fun r op t inv ok => inv.step ok.1
    intro r op t inv ok stepped
    exact ⟨ok.1, (inv.exited_iff stepped).mp (ok.2 t stepped).2⟩
  · intro run
    apply run.strengthen (PollerSet.Inv.new loop) fun r op t inv ok => inv.step ok.1
    intro r op t inv ok _
    refine ⟨ok.1, fun u stepped => ?_⟩
    exact ⟨(inv.step ok.1 stepped).tracks, (inv.exited_iff stepped).mpr ok.2⟩

/-- A channel that is constructed and destroyed without having been enabled ends the process. -/
theorem destroy_unlisted_exits : ∃ s : PollerSet,
    Run PollerSet.step DistinctFds (.new 0) [.construct 0 7, .destroy 0] s ∧ ¬ s.Sound := by
  have distinct : (PollerSet.new 0).DistinctFds (.construct 0 7) := fun _ _ live => by cases live
  have built : (PollerSet.new 0).step (.construct 0 7) = some ((PollerSet.new 0).constructed 0 7) :=
    rfl
  refine ⟨_, .cons distinct built (.cons trivial rfl (.start _)), fun sound => ?_⟩
  exact absurd sound.2 (by decide)

end SimpleSrv.Nebula
