import SimpleSrv.Nebula.ServerInvariant

/-! Each step of each thread keeps the server in order. -/

namespace SimpleSrv.Nebula

/-- An update of a registration writes the channel's own entry and nothing else of interest. -/
theorem updateChannel_spec {epoll after : Epoll} {id : Nat} {ch registered : Channel}
    (updated : updateChannel epoll id ch = some (after, registered)) :
    (∃ mask, after = Function.update epoll ch.fd (some ⟨id, mask⟩)) ∧ registered.fd = ch.fd ∧
      registered.loop = ch.loop ∧ registered.readCallback = ch.readCallback := by
  -- Both branches write one entry, and each may be refused by the kernel.
  simp only [updateChannel] at updated
  split at updated
  · split at updated
    · obtain ⟨rfl, rfl⟩ := Prod.mk.inj (Option.some.inj updated)
      exact ⟨⟨_, rfl⟩, rfl, rfl, rfl⟩
    · cases updated
  · split at updated
    · cases updated
    · obtain ⟨rfl, rfl⟩ := Prod.mk.inj (Option.some.inj updated)
      exact ⟨⟨_, rfl⟩, rfl, rfl, rfl⟩

/-- A deletion takes the channel's own entry away. -/
theorem deleteChannel_spec {epoll after : Epoll} {ch deleted : Channel}
    (removed : deleteChannel epoll ch = some (after, deleted)) :
    after = Function.update epoll ch.fd none ∧ deleted = { ch with exist := false } := by
  obtain ⟨_, same⟩ := Option.ite_none_right_eq_some.mp removed
  obtain ⟨rfl, rfl⟩ := Prod.mk.inj (Option.some.inj same)
  exact ⟨rfl, rfl⟩

/-- What a construction changes: the next number, its descriptor and the poller of its loop. -/
structure Server.Constructed (s t : Server) (fd : Fd) : Prop where
  created : t.created = s.created + 1
  live : ∀ conn, conn ∈ t.live ↔ conn ∈ s.live ∨ conn = s.created
  conns : ∀ conn < s.created, t.conns conn = s.conns conn
  number : t.fd s.created = fd
  read : (t.conns s.created).channel.readCallback = false
  owned : t.owner fd = some s.created
  owner : ∀ d ≠ fd, t.owner d = s.owner d
  table : t.connections = s.connections
  main : t.main = .constructed s.created
  uses : t.uses = s.uses
  places : ∀ j, (t.reactors j).pc = (s.reactors j).pc ∧
    (t.reactors j).batch = (s.reactors j).batch
  interest : ∀ j d entry, (t.reactors j).epoll d = some entry →
    (s.reactors j).epoll d = some entry ∨
      entry.channel = s.created ∧ d = fd ∧ t.loop s.created = j

/-- A construction changes nothing else. -/
theorem Server.construct_changes {setting : Setting} {s t : Server} {fd : Fd}
    (constructed : s.construct setting fd = some t) : s.Constructed t fd := by
  -- The channel is registered once with each of its two masks, under the same descriptor.
  simp only [construct] at constructed
  obtain ⟨⟨epoll, ch⟩, enabled, constructed⟩ := Option.bind_eq_some_iff.mp constructed
  obtain ⟨⟨after, registered⟩, used, rfl⟩ := Option.map_eq_some_iff.mp constructed
  obtain ⟨⟨_, rfl⟩, fd', loop', read'⟩ := updateChannel_spec enabled
  obtain ⟨⟨mask, rfl⟩, fd'', loop'', read''⟩ := updateChannel_spec used
  simp only at fd' loop' read' fd'' loop'' read''
  rw [fd'] at fd''
  rw [loop'] at loop''
  rw [read'] at read''
  have older : ∀ conn < s.created, conn ≠ s.created := fun _ made => Nat.ne_of_lt made
  constructor
  case created | table | main | uses => rfl
  case live => simp
  case conns => exact fun conn made => Function.update_of_ne (older conn made) _ _
  case number => simpa [Server.fd, setReactor, setConn] using fd''
  case read => simpa [setReactor, setConn] using read''
  case owned => exact Function.update_self _ _ _
  case owner => exact fun d apart => Function.update_of_ne apart _ _
  case places =>
    intro j
    by_cases here : j = fd.toNat % setting.size
    · subst here
      simp [setReactor, setConn]
    · simp [setReactor, setConn, here]
  case interest =>
    intro j d entry found
    by_cases here : j = fd.toNat % setting.size
    · subst here
      simp only [setReactor, setConn, Function.update_self, fd', Function.update_idem] at found
      by_cases equal : d = fd
      · subst equal
        simp only [Function.update_self, Option.some.injEq] at found
        subst found
        exact .inr ⟨rfl, rfl, by simpa [Server.loop, setReactor, setConn] using loop''⟩
      · rw [Function.update_of_ne equal] at found
        exact .inl found
    · simp only [setReactor, setConn, Function.update_of_ne here] at found
      exact .inl found

namespace Server.Constructed

variable {s t : Server} {fd d : Fd} {conn : Nat}

/-- An older connection keeps its number. -/
theorem fd_old (changes : s.Constructed t fd) (made : conn < s.created) :
    t.fd conn = s.fd conn := by
  simp only [Server.fd, changes.conns conn made]

/-- It keeps its loop, too. -/
theorem loop_old (changes : s.Constructed t fd) (made : conn < s.created) :
    t.loop conn = s.loop conn := by
  simp only [Server.loop, changes.conns conn made]

/-- Whatever is held already is not the new descriptor, and stays where it is. -/
theorem owner_old (changes : s.Constructed t fd) (unused : s.owner fd = none)
    (owner : s.owner d = some conn) : t.owner d = some conn := by
  -- A descriptor that is held is not the unused one.
  have apart : d ≠ fd := by
    rintro rfl
    rw [unused] at owner
    cases owner
  exact (changes.owner d apart).trans owner

/-- The new connection is the one that the main reactor sets up. -/
theorem building (changes : s.Constructed t fd) : t.main.building = some s.created := by
  rw [changes.main]
  rfl

/-- Every other one has been there before. -/
theorem old (changes : s.Constructed t fd) (member : conn ∈ t.live)
    (finished : t.main.building ≠ some conn) : conn ∈ s.live := by
  rcases (changes.live conn).mp member with member | rfl
  · exact member
  · exact absurd changes.building finished

end Server.Constructed

/-- What a destruction changes: the channel, its registration and the place of the sub-reactor. -/
structure Server.Destroyed (s t : Server) (i conn : Nat) : Prop where
  shapes : ∀ c, ServerConn.SameShape (t.conns c) (s.conns c)
  created : t.created = s.created
  live : ∀ c, c ∈ t.live ↔ c ∈ s.live ∧ c ≠ conn
  owner : t.owner = s.owner
  table : t.connections = s.connections
  main : t.main = s.main
  place : (t.reactors i).pc = .shut conn conn
  others : ∀ j, j ≠ i → t.reactors j = s.reactors j
  batch : ∀ j, (t.reactors j).batch = (s.reactors j).batch
  interest : ∀ d entry, (t.reactors i).epoll d = some entry →
    d ≠ s.fd conn ∧ (s.reactors i).epoll d = some entry

/-- The destruction of a connection by its own loop changes nothing else. -/
theorem Server.destroyed_changes {s : Server} {i conn : Nat} {epoll : Epoll} {channel : Channel}
    (own : s.loop conn = i)
    (deleted : deleteChannel (s.reactors (s.loop conn)).epoll (s.conns conn).channel =
      some (epoll, channel)) : s.Destroyed (s.destroyed i conn conn epoll channel) i conn := by
  -- The server is written in a few places, and all the others stay.
  obtain ⟨rfl, rfl⟩ := deleteChannel_spec deleted
  constructor
  case created | owner | table | main => rfl
  case shapes =>
    intro c
    by_cases here : c = conn
    · subst here
      simp [destroyed, goOn, setReactor, setConn, ServerConn.SameShape]
    · simp [destroyed, goOn, setReactor, setConn, ServerConn.SameShape, here]
  case live => simp [destroyed, goOn, setReactor, setConn]
  case place => simp [destroyed, goOn, setReactor]
  case others =>
    intro j apart
    simp [destroyed, goOn, setReactor, setConn, own, apart]
  case batch =>
    intro j
    by_cases here : j = i
    · subst here
      simp [destroyed, goOn, setReactor, setConn, own]
    · simp [destroyed, goOn, setReactor, setConn, own, here]
  case interest =>
    -- The entry under the channel's descriptor is the one that has been deleted.
    intro d entry found
    simp only [destroyed, goOn, setReactor, setConn, own, Function.update_self] at found
    by_cases equal : d = s.fd conn
    · subst equal
      simp [Server.fd] at found
    · exact ⟨equal, (Function.update_of_ne equal _ _).symm.trans found⟩

/-- The connections of another loop are other ones. -/
theorem Server.served_apart {s : Server} {i j conn c : Nat} (own : s.loop conn = i)
    (apart : j ≠ i) (serving : s.loop c = j) : c ≠ conn := by
  rintro rfl
  exact apart (serving.symm.trans own)

namespace Server.Destroyed

variable {s t : Server} {i conn : Nat}

/-- Every connection keeps its number. -/
theorem fd (changes : s.Destroyed t i conn) (c : Nat) : t.fd c = s.fd c := (changes.shapes c).1

/-- Every connection keeps its loop. -/
theorem loop (changes : s.Destroyed t i conn) (c : Nat) : t.loop c = s.loop c :=
  (changes.shapes c).2.1

end Server.Destroyed

/-- Everything that a step of a sub-reactor can do. -/
inductive LoopMove (s : Server) (i : Nat) : LoopOp → Server → Prop
  | poll (report : List (Fd × Nat)) : (s.reactors i).pc = .poll →
      Server.MayReport (s.reactors i).epoll report →
      LoopMove s i (.poll report) ((s.poll (s.reactors i).epoll report).1.setReactor i
        ⟨(s.reactors i).epoll, (s.poll (s.reactors i).epoll report).2, .loop⟩)
  | rest : (s.reactors i).pc = .loop → (s.reactors i).batch = [] →
      LoopMove s i .next (s.goOn i .poll)
  | start (ch : Nat) (rest : List Nat) : (s.reactors i).pc = .loop →
      (s.reactors i).batch = ch :: rest →
      LoopMove s i .next ((s.use ch).setReactor i ⟨(s.reactors i).epoll, rest, .check ch⟩)
  | call (ch : Nat) : (s.reactors i).pc = .check ch →
      LoopMove s i .check ((s.use ch).goOn i (.handler ch))
  | skip (ch : Nat) : (s.reactors i).pc = .check ch →
      LoopMove s i .check ((s.use ch).goOn i (.again ch))
  | found (ch conn : Nat) : (s.reactors i).pc = .handler ch → (s.conns ch).deleteCallback = true →
      s.connections (s.fd ch) = some conn → LoopMove s i .close (s.goOn i (.erase ch (s.fd ch)))
  | missed (ch : Nat) : (s.reactors i).pc = .handler ch → s.connections (s.fd ch) = none →
      LoopMove s i .close s
  | erase (ch : Nat) (fd : Fd) : (s.reactors i).pc = .erase ch fd →
      LoopMove s i .erase
        (Server.goOn { s with connections := Function.update s.connections fd none } i
          (.destroy ch (s.connections fd)))
  | nothing (ch : Nat) : (s.reactors i).pc = .destroy ch none →
      LoopMove s i .destroy (s.goOn i (.closed ch))
  | destroy (ch conn : Nat) (epoll : Epoll) (channel : Channel) :
      (s.reactors i).pc = .destroy ch (some conn) →
      deleteChannel (s.reactors (s.loop conn)).epoll (s.conns conn).channel =
        some (epoll, channel) →
      LoopMove s i .destroy (s.destroyed i ch conn epoll channel)
  | shut (ch conn : Nat) : (s.reactors i).pc = .shut ch conn →
      LoopMove s i .shut
        (Server.goOn { s with owner := Function.update s.owner (s.fd conn) none } i (.closed ch))
  | ret (ch : Nat) : (s.reactors i).pc = .handler ch → LoopMove s i .ret (s.goOn i (.again ch))
  | back (ch : Nat) : (s.reactors i).pc = .closed ch → LoopMove s i .ret (s.goOn i (.again ch))
  | again (stale ch : Nat) : (s.reactors i).pc = .again ch →
      LoopMove s i (.again stale) ((s.use ch).goOn i .loop)

/-- A step of a sub-reactor is one of those. -/
theorem LoopMove.of_step {s t : Server} {i : Nat} {op : LoopOp}
    (stepped : s.loopStep i op = some t) : LoopMove s i op t := by
  -- The cases are those of the step, in its order.
  simp only [Server.loopStep] at stepped
  split at stepped
  · rename_i report at_
    obtain ⟨reports, same⟩ := Option.ite_none_right_eq_some.mp stepped
    obtain rfl := Option.some.inj same
    exact .poll report at_ reports
  · rename_i at_
    split at stepped
    · rename_i empty
      obtain rfl := Option.some.inj stepped
      exact .rest at_ empty
    · rename_i ch rest filled
      obtain rfl := Option.some.inj stepped
      exact .start ch rest at_ filled
  · rename_i ch at_
    split at stepped
    · obtain rfl := Option.some.inj (Option.ite_none_right_eq_some.mp stepped).2
      exact .call ch at_
    · obtain rfl := Option.some.inj stepped
      exact .skip ch at_
  · rename_i ch at_
    obtain ⟨set, stepped⟩ := Option.ite_none_right_eq_some.mp stepped
    split at stepped
    · rename_i found
      obtain rfl := Option.some.inj stepped
      obtain ⟨conn, entry⟩ := Option.isSome_iff_exists.mp found
      exact .found ch conn at_ set entry
    · rename_i missed
      obtain rfl := Option.some.inj stepped
      exact .missed ch at_ (Option.not_isSome_iff_eq_none.mp missed)
  · rename_i ch fd at_
    obtain rfl := Option.some.inj stepped
    exact .erase ch fd at_
  · rename_i ch at_
    obtain rfl := Option.some.inj stepped
    exact .nothing ch at_
  · rename_i ch conn at_
    obtain ⟨⟨epoll, channel⟩, deleted, rfl⟩ := Option.map_eq_some_iff.mp stepped
    exact .destroy ch conn epoll channel at_ deleted
  · rename_i ch conn at_
    obtain rfl := Option.some.inj stepped
    exact .shut ch conn at_
  · rename_i ch at_
    obtain rfl := Option.some.inj stepped
    exact .ret ch at_
  · rename_i ch at_
    obtain rfl := Option.some.inj stepped
    exact .back ch at_
  · rename_i stale ch at_
    -- Whatever the second condition reads, the loop goes on if it goes on at all.
    generalize hasBit _ _ = writes at stepped
    cases writes with
    | false =>
      obtain rfl := Option.some.inj stepped
      exact .again stale ch at_
    | true =>
      obtain rfl := Option.some.inj (Option.ite_none_right_eq_some.mp stepped).2
      exact .again stale ch at_
  · cases stepped

namespace LoopMove

variable {s t : Server} {i j : Nat} {op : LoopOp}

/-- A poll changes only what channels have been told. -/
theorem poll_other (s : Server) (epoll : Epoll) (report : List (Fd × Nat)) :
    (s.poll epoll report).1.main = s.main ∧ (s.poll epoll report).1.live = s.live ∧
      (s.poll epoll report).1.reactors = s.reactors ∧
      (s.poll epoll report).1.uses =
        s.uses ++ (Server.reported epoll report).map fun ch => ⟨ch, ch ∈ s.live⟩ := by
  obtain ⟨_, _, same⟩ := s.poll_eq epoll report
  rw [same]
  exact ⟨rfl, rfl, rfl, rfl⟩

/-- The main reactor stays where it is. -/
theorem main (move : LoopMove s i op t) : t.main = s.main := by
  -- Only a poll is more than an update.
  cases move with
  | poll report => exact (poll_other s _ report).1
  | rest | start | call | skip | found | missed | erase | nothing | destroy | shut | ret | back
  | again => rfl

/-- The other sub-reactors stay where they are. -/
theorem other (move : LoopMove s i op t) (apart : j ≠ i) :
    (t.reactors j).pc = (s.reactors j).pc := by
  -- The poll writes its own reactor, and the destruction the one of its loop, which keeps its
  -- place.
  cases move with
  | poll report =>
    rw [Server.setReactor, (poll_other s _ report).2.2.1]
    exact congrArg Reactor.pc (Function.update_of_ne apart _ _)
  | destroy ch conn =>
    rw [Server.destroyed, Server.goOn_other apart]
    simp only [Server.setReactor, Server.setConn]
    by_cases here : j = s.loop conn
    · subst here
      rw [Function.update_self]
    · rw [Function.update_of_ne here]
  | missed => rfl
  | rest | start | call | skip | found | erase | nothing | shut | ret | back | again =>
    exact congrArg Reactor.pc (Function.update_of_ne apart _ _)

/-- Nothing comes into existence. -/
theorem live (move : LoopMove s i op t) : ∀ c ∈ t.live, c ∈ s.live := by
  -- Only the destruction changes who is there.
  cases move with
  | poll report =>
    intro c member
    rw [← (poll_other s (s.reactors i).epoll report).2.1]
    exact member
  | destroy => exact fun c member => (List.mem_filter.mp member).1
  | rest | start | call | skip | found | missed | erase | nothing | shut | ret | back | again =>
    exact fun _ member => member

/-- No use is forgotten. -/
theorem uses (move : LoopMove s i op t) : ∀ use ∈ s.uses, use ∈ t.uses := by
  -- Uses are added at the end.
  cases move with
  | poll report =>
    intro use member
    show use ∈ (s.poll (s.reactors i).epoll report).1.uses
    rw [(poll_other s _ report).2.2.2]
    exact List.mem_append_left _ member
  | start | call | skip | again => exact fun use member => List.mem_append_left _ member
  | rest | found | missed | erase | nothing | destroy | shut | ret | back =>
    exact fun use member => member

end LoopMove

namespace ServerInv

variable {setting : Setting} {s t : Server} {i : Nat}

section Construct

variable {fd : Fd}

/-- A connection that is there already keeps its number and its loop. -/
theorem constructed_old (inv : ServerInv s) (changes : s.Constructed t fd) {conn : Nat}
    (member : conn ∈ s.live) :
    conn ∈ t.live ∧ t.fd conn = s.fd conn ∧ t.loop conn = s.loop conn :=
  have made := inv.known conn member
  ⟨(changes.live conn).mpr (.inl member), changes.fd_old made, changes.loop_old made⟩

/-- It is not the one that is being set up. -/
theorem constructed_younger (inv : ServerInv s) (changes : s.Constructed t fd) {conn : Nat}
    (member : conn ∈ s.live) : t.main.building ≠ some conn := by
  intro equal
  rw [changes.building] at equal
  exact Nat.ne_of_lt (inv.known conn member) (Option.some.inj equal).symm

/-- Each connection owns its descriptor, the new one the new descriptor. -/
theorem constructed_owned (inv : ServerInv s) (changes : s.Constructed t fd)
    (unused : s.owner fd = none) : ∀ conn ∈ t.live, t.owner (t.fd conn) = some conn := by
  -- The old ones by what is known of them, the new one by its construction.
  intro conn member
  rcases (changes.live conn).mp member with member | rfl
  · rw [(inv.constructed_old changes member).2.1]
    exact changes.owner_old unused (inv.owned conn member)
  · rw [changes.number]
    exact changes.owned

/-- Each descriptor in use is that of its owner. -/
theorem constructed_owners (inv : ServerInv s) (changes : s.Constructed t fd) :
    ∀ d conn, t.owner d = some conn → t.fd conn = d ∧ conn < t.created := by
  -- Only the new descriptor has got an owner.
  intro d conn owner
  rw [changes.created]
  by_cases here : d = fd
  · subst here
    obtain rfl := Option.some.inj (owner.symm.trans changes.owned)
    exact ⟨changes.number, Nat.lt_succ_self _⟩
  · rw [changes.owner d here] at owner
    obtain ⟨holds, made⟩ := inv.owners d conn owner
    exact ⟨(changes.fd_old made).trans holds, Nat.lt_succ_of_lt made⟩

/-- The table has the old connections only. -/
theorem constructed_table (inv : ServerInv s) (changes : s.Constructed t fd) :
    ∀ d conn, t.connections d = some conn →
      conn ∈ t.live ∧ t.fd conn = d ∧ t.main.building ≠ some conn := by
  -- The construction writes nothing to the table.
  intro d conn found
  rw [changes.table] at found
  obtain ⟨member, holds, _⟩ := inv.table d conn found
  obtain ⟨kept, number, _⟩ := inv.constructed_old changes member
  exact ⟨kept, number.trans holds, inv.constructed_younger changes member⟩

/-- It has all of them that are not being closed. -/
theorem constructed_listed (inv : ServerInv s) (changes : s.Constructed t fd)
    (unbuilt : ∀ conn, s.main.building ≠ some conn) :
    ∀ conn ∈ t.live, t.main.building ≠ some conn → ¬ t.Dying conn →
      t.connections (t.fd conn) = some conn := by
  -- What is not being closed now was not being closed before.
  intro conn member finished kept
  have member := changes.old member finished
  rw [changes.table, (inv.constructed_old changes member).2.1]
  refine inv.listed conn member (unbuilt conn) ?_
  rintro ⟨j, c, at_⟩
  exact kept ⟨j, c, (changes.places j).1.trans at_⟩

/-- Those that are being closed have left the table before. -/
theorem constructed_dying (inv : ServerInv s) (changes : s.Constructed t fd) :
    ∀ conn, t.Dying conn →
      t.main.building ≠ some conn ∧ t.connections (t.fd conn) ≠ some conn := by
  -- No place of a sub-reactor has changed.
  rintro conn ⟨j, c, at_⟩
  rw [(changes.places j).1] at at_
  have member := (inv.dying_own at_).2.1
  rw [changes.table, (inv.constructed_old changes member).2.1]
  exact ⟨inv.constructed_younger changes member, (inv.dying conn ⟨j, c, at_⟩).2⟩

/-- The pollers know the live connections only, each under its own descriptor. -/
theorem constructed_interest (inv : ServerInv s) (changes : s.Constructed t fd) :
    ∀ j d entry, (t.reactors j).epoll d = some entry →
      entry.channel ∈ t.live ∧ t.fd entry.channel = d ∧ t.loop entry.channel = j := by
  -- The one new entry is that of the new connection.
  intro j d entry found
  rcases changes.interest j d entry found with found | ⟨new, rfl, own⟩
  · obtain ⟨member, holds, own⟩ := inv.interest j d entry found
    obtain ⟨kept, number, loop⟩ := inv.constructed_old changes member
    exact ⟨kept, number.trans holds, loop.trans own⟩
  · rw [new]
    exact ⟨(changes.live _).mpr (.inr rfl), changes.number, own⟩

/-- No sub-reactor sees anything of the new connection at its place. -/
theorem constructed_places (inv : ServerInv s) (changes : s.Constructed t fd)
    (unused : s.owner fd = none) (j : Nat) :
    t.PlaceOk j (t.reactors j).batch (t.reactors j).pc := by
  -- A place names older connections only, which are as they were.
  rw [(changes.places j).1, (changes.places j).2]
  refine inv.place_kept (inv.places j) ?_ (fun _ => changes.fd_old) (fun _ => changes.loop_old)
    (fun c made _ => ?_) (fun c _ owner => changes.owner_old unused owner)
    fun c _ found => changes.table ▸ found
  · rw [changes.created]
    exact Nat.le_succ _
  · rw [changes.live]
    exact or_iff_left (Nat.ne_of_lt made)

/-- A new connection joins the others. -/
theorem construct (inv : ServerInv s) (idle : s.main = .idle) (unused : s.owner fd = none)
    (constructed : s.construct setting fd = some t) : ServerInv t := by
  -- What is known of the older connections says nothing about the new descriptor.
  have changes := Server.construct_changes constructed
  have unbuilt : ∀ conn, s.main.building ≠ some conn := by
    intro conn equal
    rw [idle] at equal
    cases equal
  constructor
  case known =>
    intro conn member
    rw [changes.created]
    rcases (changes.live conn).mp member with member | rfl
    · exact Nat.lt_succ_of_lt (inv.known conn member)
    · exact Nat.lt_succ_self _
  case owned => exact inv.constructed_owned changes unused
  case owners => exact inv.constructed_owners changes
  case table => exact inv.constructed_table changes
  case wired =>
    intro conn member finished
    have member := changes.old member finished
    have wired := inv.wired conn member (unbuilt conn)
    simp only [Server.WiredUp, changes.conns conn (inv.known conn member)]
    exact wired
  case listed => exact inv.constructed_listed changes unbuilt
  case dying => exact inv.constructed_dying changes
  case settingUp =>
    simp only [Server.SettingUp, changes.main]
    exact ⟨(changes.live _).mpr (.inr rfl), changes.read⟩
  case interest => exact inv.constructed_interest changes
  case batches =>
    intro j
    rw [(changes.places j).2]
    refine ⟨(inv.batches j).1, fun c member => ?_⟩
    obtain ⟨member, own⟩ := (inv.batches j).2 c member
    obtain ⟨kept, _, loop⟩ := inv.constructed_old changes member
    exact ⟨kept, loop.trans own⟩
  case places => exact inv.constructed_places changes unused

end Construct

/-- Writing to the connection that is set up, without moving it, changes no other one. -/
theorem setBuilding (inv : ServerInv s) {conn : Nat} (building : s.main.building = some conn)
    {c : ServerConn} {main : MainPc} (same : main.building = some conn)
    (fd : c.channel.fd = s.fd conn) (loop : c.channel.loop = s.loop conn)
    (stage : Server.SettingUp { s.setConn conn c with main := main }) :
    ServerInv { s.setConn conn c with main := main } := by
  -- Nothing is said of a connection that is being set up but its stage.
  have others : ∀ other, other ≠ conn → (s.setConn conn c).conns other = s.conns other :=
    fun other apart => Function.update_of_ne apart _ _
  have own : (s.setConn conn c).conns conn = c := Function.update_self _ _ _
  refine inv.setUp (same.trans building.symm) (fun other => ?_) (fun other => ?_)
    (fun other finished wired => ?_) stage
  · by_cases here : other = conn
    · subst here
      exact (congrArg (·.channel.fd) own).trans fd
    · exact congrArg (·.channel.fd) (others other here)
  · by_cases here : other = conn
    · subst here
      exact (congrArg (·.channel.loop) own).trans loop
    · exact congrArg (·.channel.loop) (others other here)
  · have apart : other ≠ conn := fun equal => finished (equal ▸ building)
    have unchanged := others other apart
    simp only [Server.setConn] at unchanged
    simp only [Server.WiredUp, Server.setConn, unchanged]
    exact wired

/-- A connection that has been set up is recorded under its descriptor. -/
theorem record (inv : ServerInv s) {conn : Nat} (at_ : s.main = .callable conn) :
    ServerInv
      { s with
        connections := Function.update s.connections (s.fd conn) (some conn)
        main := .idle } := by
  -- The connection was known to nobody, so no other entry is touched.
  have stage := inv.settingUp
  simp only [Server.SettingUp, at_] at stage
  have unbuilt : ∀ other, MainPc.idle.building ≠ some other :=
    fun _ equal => by cases equal
  have older : ∀ other, other ≠ conn → s.main.building ≠ some other := by
    intro other apart equal
    rw [at_] at equal
    exact apart (Option.some.inj equal).symm
  refine ⟨inv.known, inv.owned, inv.owners, ?_, ?_, ?_, ?_, trivial, inv.interest, inv.batches, ?_⟩
  · intro d other found
    by_cases here : d = s.fd conn
    · subst here
      simp only [Function.update_self, Option.some.injEq] at found
      subst found
      exact ⟨stage.1, rfl, unbuilt _⟩
    · simp only [Function.update_of_ne here] at found
      exact ⟨(inv.table d other found).1, (inv.table d other found).2.1, unbuilt _⟩
  · intro other live _
    by_cases here : other = conn
    · subst here
      exact stage.2
    · exact inv.wired other live (older other here)
  · intro other live _ kept
    by_cases here : other = conn
    · subst here
      exact Function.update_self _ _ _
    · have apart : s.fd other ≠ s.fd conn := fun equal => here (inv.fd_inj live stage.1 equal)
      exact (Function.update_of_ne apart _ _).trans (inv.listed other live (older other here) kept)
  · intro other dies
    obtain ⟨j, ch, at_'⟩ := dies
    have unset := inv.dying other ⟨j, ch, at_'⟩
    have apart : s.fd other ≠ s.fd conn := by
      intro equal
      obtain rfl := inv.fd_inj (inv.dying_own at_').2.1 stage.1 equal
      exact unset.1 (by rw [at_]; rfl)
    refine ⟨unbuilt other, ?_⟩
    have kept := Function.update_of_ne apart (some conn) s.connections
    exact fun found => unset.2 (kept.symm.trans found)
  · intro j
    refine inv.place_kept (inv.places j) (Nat.le_refl _) (fun _ _ => rfl) (fun _ _ => rfl)
      (fun _ _ _ => Iff.rfl) (fun _ _ holds => holds) fun ch _ found => ?_
    -- Only the connection itself can have stood under its descriptor.
    by_cases here : s.fd ch = s.fd conn
    · have equal := inv.fd_inj (inv.table _ _ found).1 stage.1 here
      rw [here, equal]
      exact Function.update_self _ _ _
    · exact (Function.update_of_ne here _ _).trans found

/-- Every step of the main reactor keeps the server in order. -/
theorem mainStep (inv : ServerInv s) {op : MainOp} (stepped : s.mainStep setting op = some t) :
    ServerInv t := by
  -- The operations are taken one by one, in the order of the set-up.
  cases op with
  | construct fd =>
    obtain ⟨⟨idle, _, unused, _⟩, constructed⟩ := Option.ite_none_right_eq_some.mp stepped
    exact inv.construct idle unused constructed
  | setDeleteConnectionCallback =>
    simp only [Server.mainStep] at stepped
    split at stepped
    · rename_i conn at_
      obtain rfl := Option.some.inj stepped
      have stage := inv.settingUp
      simp only [Server.SettingUp, at_] at stage
      refine inv.setBuilding (by rw [at_]; rfl) rfl rfl rfl ⟨stage.1, ?_, ?_⟩
      · simpa [Server.setConn] using stage.2
      · simp [Server.setConn]
    · cases stepped
  | setOnConnectCallback =>
    simp only [Server.mainStep] at stepped
    split at stepped
    · rename_i conn at_
      obtain rfl := Option.some.inj stepped
      have stage := inv.settingUp
      simp only [Server.SettingUp, at_] at stage
      refine inv.setBuilding (by rw [at_]; rfl) rfl rfl rfl ⟨stage.1, ?_, ?_⟩
      · simp [Server.setConn]
      · simpa [Server.setConn] using stage.2.2
    · cases stepped
  | record =>
    simp only [Server.mainStep] at stepped
    split at stepped
    · rename_i conn at_
      obtain rfl := Option.some.inj stepped
      exact inv.record at_
    · cases stepped

/-- No place but that of the destruction itself is one where a connection is dying. -/
theorem not_destroying {pc : LoopPc} (at_ : (s.reactors i).pc = pc)
    (apart : ∀ c conn, pc ≠ .destroy c conn) : ∀ c conn, (s.reactors i).pc ≠ .destroy c conn :=
  at_ ▸ apart

/-- A report names channels of this loop, each of them once. -/
theorem reported (inv : ServerInv s) {report : List (Fd × Nat)}
    (reports : Server.MayReport (s.reactors i).epoll report) :
    (Server.reported (s.reactors i).epoll report).Nodup ∧
      ∀ ch ∈ Server.reported (s.reactors i).epoll report, ch ∈ s.live ∧ s.loop ch = i := by
  -- Each descriptor has one entry, which is that of its channel.
  constructor
  · -- Two entries of one channel would be for one descriptor, which is reported only once.
    rw [Server.reported, List.Nodup, List.pairwise_filterMap]
    refine (List.pairwise_map.mp reports.1).imp ?_
    intro first second apart a sameA b sameB equal
    obtain ⟨entryA, foundA, rfl⟩ := Option.map_eq_some_iff.mp sameA
    obtain ⟨entryB, foundB, rfl⟩ := Option.map_eq_some_iff.mp sameB
    have numberA := (inv.interest i _ entryA foundA).2.1
    have numberB := (inv.interest i _ entryB foundB).2.1
    exact apart (numberA.symm.trans ((congrArg s.fd equal).trans numberB))
  · intro ch member
    obtain ⟨event, _, same⟩ := List.mem_filterMap.mp member
    obtain ⟨entry, found, rfl⟩ := Option.map_eq_some_iff.mp same
    exact ⟨(inv.interest i _ entry found).1, (inv.interest i _ entry found).2.2⟩

/-- A poll fills the batch with channels of its loop. -/
theorem poll (inv : ServerInv s) (at_ : (s.reactors i).pc = .poll) {report : List (Fd × Nat)}
    (reports : Server.MayReport (s.reactors i).epoll report) :
    ServerInv ((s.poll (s.reactors i).epoll report).1.setReactor i
      ⟨(s.reactors i).epoll, (s.poll (s.reactors i).epoll report).2, .loop⟩) := by
  -- The report tells the channels about their events, and fills the batch.
  obtain ⟨conns, shapes, same⟩ := s.poll_eq (s.reactors i).epoll report
  rw [same]
  have before := not_destroying at_ fun _ _ => nofun
  refine (inv.told shapes).setReactor rfl ?_ trivial before fun _ _ => nofun
  · refine ⟨(inv.reported reports).1, fun ch member => ?_⟩
    obtain ⟨live, own⟩ := (inv.reported reports).2 ch member
    exact ⟨live, (shapes ch).2.1.trans own⟩

/-- A look-up that finds anything finds the connection of the handler. -/
theorem lookup (inv : ServerInv s) {ch conn : Nat} (live : ch ∈ s.live)
    (found : s.connections (s.fd ch) = some conn) : conn = ch := by
  obtain ⟨exists_, number, _⟩ := inv.table _ _ found
  exact inv.fd_inj exists_ live number

/-- The connection leaves the table before it is destroyed. -/
theorem erase (inv : ServerInv s) {ch : Nat} {fd : Fd}
    (at_ : (s.reactors i).pc = .erase ch fd) :
    ServerInv (Server.goOn { s with connections := Function.update s.connections fd none } i
      (.destroy ch (s.connections fd))) := by
  -- The entry is that of the channel itself, as its descriptor is its own.
  have place := inv.places i
  rw [at_] at place
  obtain ⟨live, own, absent, rfl, found⟩ := place
  rw [found]
  -- An entry of the new table is one of the old table for another descriptor.
  have older : ∀ d conn, Function.update s.connections (s.fd ch) none d = some conn →
      d ≠ s.fd ch ∧ s.connections d = some conn := by
    intro d conn entry
    by_cases here : d = s.fd ch
    · subst here
      simp at entry
    · rw [Function.update_of_ne here] at entry
      exact ⟨here, entry⟩
  have before := not_destroying at_ fun _ _ => nofun
  refine ⟨inv.known, inv.owned, inv.owners, ?_, inv.wired, ?_, ?_, inv.settingUp, ?_, ?_, ?_⟩
  · exact fun d conn entry => inv.table d conn (older d conn entry).2
  · intro conn exists_ finished kept
    have apart : conn ≠ ch := by
      rintro rfl
      exact kept ⟨i, conn, Server.goOn_pc⟩
    have numbers : s.fd conn ≠ s.fd ch := fun equal => apart (inv.fd_inj exists_ live equal)
    refine (Function.update_of_ne numbers _ _).trans (inv.listed conn exists_ finished ?_)
    rintro ⟨j, c, dies⟩
    have other : j ≠ i := by
      rintro rfl
      exact before _ _ dies
    exact kept ⟨j, c, (congrArg Reactor.pc (Server.goOn_other other)).trans dies⟩
  · rintro conn ⟨j, c, dies⟩
    by_cases here : j = i
    · subst here
      have same := Server.goOn_pc.symm.trans dies
      simp only [LoopPc.destroy.injEq, Option.some.injEq] at same
      obtain ⟨rfl, rfl⟩ := same
      exact ⟨(inv.table _ _ found).2.2, fun entry => (older _ _ entry).1 rfl⟩
    · rw [Server.goOn_other here] at dies
      exact ⟨(inv.dying conn ⟨j, c, dies⟩).1,
        fun entry => (inv.dying conn ⟨j, c, dies⟩).2 (older _ _ entry).2⟩
  · intro j d entry registered
    rw [Server.goOn_epoll] at registered
    exact inv.interest j d entry registered
  · intro j
    rw [Server.goOn_batch]
    exact inv.batches j
  · intro j
    rw [Server.goOn_batch]
    by_cases here : j = i
    · subst here
      rw [Server.goOn_pc]
      exact ⟨rfl, live, own, absent⟩
    · rw [Server.goOn_other here]
      refine inv.place_kept (inv.places j) (Nat.le_refl _) (fun _ _ => rfl) (fun _ _ => rfl)
        (fun _ _ _ => Iff.rfl) (fun _ _ holds => holds) fun c serves entry => ?_
      -- A connection of another loop stands under another descriptor.
      have apart : s.fd c ≠ s.fd ch := by
        intro equal
        obtain rfl := inv.fd_inj (inv.table _ _ entry).1 live equal
        exact here (serves.symm.trans own)
      exact (Function.update_of_ne apart _ _).trans entry

section Destroy

variable {ch conn : Nat}

/-- What remains of the table does not name the connection, which has left it before. -/
theorem destroyed_table (inv : ServerInv s) (changes : s.Destroyed t i conn)
    (dies : s.Dying conn) :
    ∀ d c, t.connections d = some c → c ∈ t.live ∧ t.fd c = d ∧ t.main.building ≠ some c := by
  -- An entry for the connection would contradict that it is being closed.
  intro d c found
  rw [changes.table] at found
  obtain ⟨member, number, finished⟩ := inv.table d c found
  rw [changes.fd, changes.main]
  refine ⟨(changes.live c).mpr ⟨member, ?_⟩, number, finished⟩
  rintro rfl
  exact (inv.dying c dies).2 (number.symm ▸ found)

/-- The connections that are left stand in the table unless they are being closed as well. -/
theorem destroyed_listed (inv : ServerInv s) (changes : s.Destroyed t i conn)
    (at_ : (s.reactors i).pc = .destroy ch (some conn)) :
    ∀ c ∈ t.live, t.main.building ≠ some c → ¬ t.Dying c → t.connections (t.fd c) = some c := by
  intro c member finished kept
  rw [changes.main] at finished
  rw [changes.table, changes.fd]
  refine inv.listed c ((changes.live c).mp member).1 finished ?_
  rintro ⟨j, c', dies⟩
  -- This sub-reactor destroys the connection that is gone, and the others are where they were.
  by_cases equal : j = i
  · subst equal
    rw [at_] at dies
    simp only [LoopPc.destroy.injEq, Option.some.injEq] at dies
    exact ((changes.live c).mp member).2 dies.2.symm
  · exact kept ⟨j, c', (congrArg Reactor.pc (changes.others j equal)).trans dies⟩

/-- Whoever is still being closed is closed by another sub-reactor. -/
theorem destroyed_dying (inv : ServerInv s) (changes : s.Destroyed t i conn) :
    ∀ c, t.Dying c → t.main.building ≠ some c ∧ t.connections (t.fd c) ≠ some c := by
  -- The place of this sub-reactor is behind the destruction.
  rintro c ⟨j, c', dies⟩
  have equal : j ≠ i := by
    rintro rfl
    rw [changes.place] at dies
    cases dies
  rw [changes.others j equal] at dies
  rw [changes.main, changes.table, changes.fd]
  exact inv.dying c ⟨j, c', dies⟩

/-- The connection that the main reactor sets up is another one. -/
theorem destroyed_settingUp (inv : ServerInv s) (changes : s.Destroyed t i conn)
    (apart : s.main.building ≠ some conn) : t.SettingUp := by
  -- Nothing that this stage says concerns the destroyed connection.
  have stage := inv.settingUp
  simp only [Server.SettingUp, changes.main, Server.WiredUp, (changes.shapes _).2.2.1,
    (changes.shapes _).2.2.2, changes.live] at stage ⊢
  cases at_ : s.main with
  | idle => trivial
  | constructed c | deletable c | callable c =>
    rw [at_] at stage apart
    exact ⟨⟨stage.1, fun equal => apart (congrArg some equal)⟩, stage.2⟩

/-- The pollers have forgotten the connection. -/
theorem destroyed_interest (inv : ServerInv s) (changes : s.Destroyed t i conn)
    (own : s.loop conn = i) :
    ∀ j d entry, (t.reactors j).epoll d = some entry →
      entry.channel ∈ t.live ∧ t.fd entry.channel = d ∧ t.loop entry.channel = j := by
  intro j d entry found
  rw [changes.fd, changes.loop]
  by_cases equal : j = i
  · -- The entry that is gone was the only one under its descriptor.
    subst equal
    obtain ⟨number, found⟩ := changes.interest d entry found
    obtain ⟨member, numbered, serving⟩ := inv.interest j d entry found
    refine ⟨(changes.live _).mpr ⟨member, ?_⟩, numbered, serving⟩
    exact fun same => number (numbered.symm.trans (congrArg s.fd same))
  · rw [changes.others j equal] at found
    obtain ⟨member, numbered, serving⟩ := inv.interest j d entry found
    exact ⟨(changes.live _).mpr ⟨member, Server.served_apart own equal serving⟩, numbered, serving⟩

/-- No batch names the connection. -/
theorem destroyed_batches (inv : ServerInv s) (changes : s.Destroyed t i conn)
    (own : s.loop conn = i) (absent : conn ∉ (s.reactors i).batch) (j : Nat) :
    (t.reactors j).batch.Nodup ∧ ∀ c ∈ (t.reactors j).batch, c ∈ t.live ∧ t.loop c = j := by
  -- The own batch does not name it, and those of others cannot.
  rw [changes.batch]
  refine ⟨(inv.batches j).1, fun c member => ?_⟩
  obtain ⟨live, serving⟩ := (inv.batches j).2 c member
  rw [changes.loop, changes.live]
  refine ⟨⟨live, ?_⟩, serving⟩
  by_cases equal : j = i
  · subst equal
    rintro rfl
    exact absent member
  · exact Server.served_apart own equal serving

/-- The sub-reactor goes on to the socket, and the others have nothing to do with it. -/
theorem destroyed_places (inv : ServerInv s) (changes : s.Destroyed t i conn)
    (live : conn ∈ s.live) (own : s.loop conn = i) (absent : conn ∉ (s.reactors i).batch)
    (j : Nat) : t.PlaceOk j (t.reactors j).batch (t.reactors j).pc := by
  -- Only this sub-reactor has moved.
  rw [changes.batch]
  by_cases equal : j = i
  · subst equal
    rw [changes.place]
    refine ⟨rfl, fun member => ((changes.live conn).mp member).2 rfl, (changes.loop conn).trans own,
      absent, ?_⟩
    rw [changes.owner, changes.fd]
    exact inv.owned conn live
  · rw [changes.others j equal]
    refine inv.place_kept (inv.places j) (Nat.le_of_eq changes.created.symm)
      (fun c _ => changes.fd c) (fun c _ => changes.loop c) (fun c _ serving => ?_)
      (fun c _ holds => changes.owner ▸ holds) fun c _ found => changes.table ▸ found
    rw [changes.live]
    exact and_iff_left (Server.served_apart own equal serving)

/-- The destruction of a connection takes its channel out of the poller and out of existence. -/
theorem destroy (inv : ServerInv s) {epoll : Epoll} {channel : Channel}
    (at_ : (s.reactors i).pc = .destroy ch (some conn))
    (deleted : deleteChannel (s.reactors (s.loop conn)).epoll (s.conns conn).channel =
      some (epoll, channel)) : ServerInv (s.destroyed i ch conn epoll channel) := by
  -- The connection is the one that is being closed, and stands in no batch.
  have place := inv.places i
  rw [at_] at place
  obtain ⟨same, live, own, absent⟩ := place
  obtain rfl := Option.some.inj same
  have changes := Server.destroyed_changes own deleted
  generalize s.destroyed i conn conn epoll channel = t at changes
  have dies : s.Dying conn := ⟨i, conn, at_⟩
  -- Each part of the invariant is that of before, for the connections that are left.
  constructor
  case known => exact fun c member => changes.created ▸ inv.known c ((changes.live c).mp member).1
  case owned =>
    intro c member
    rw [changes.owner, changes.fd]
    exact inv.owned c ((changes.live c).mp member).1
  case owners =>
    intro d c holds
    rw [changes.owner] at holds
    rw [changes.fd, changes.created]
    exact inv.owners d c holds
  case table => exact inv.destroyed_table changes dies
  case wired =>
    intro c member finished
    rw [changes.main] at finished
    have wired := inv.wired c ((changes.live c).mp member).1 finished
    simpa only [Server.WiredUp, (changes.shapes c).2.2.1, (changes.shapes c).2.2.2] using wired
  case listed => exact inv.destroyed_listed changes at_
  case dying => exact inv.destroyed_dying changes
  case settingUp => exact inv.destroyed_settingUp changes (inv.dying conn dies).1
  case interest => exact inv.destroyed_interest changes own
  case batches => exact inv.destroyed_batches changes own absent
  case places => exact inv.destroyed_places changes live own absent

end Destroy

/-- The socket is closed behind the channel. -/
theorem shut (inv : ServerInv s) {ch conn : Nat} (at_ : (s.reactors i).pc = .shut ch conn) :
    ServerInv (Server.goOn { s with owner := Function.update s.owner (s.fd conn) none } i
      (.closed ch)) := by
  -- The number is still held by the connection, of which nothing else is left.
  have place := inv.places i
  rw [at_] at place
  obtain ⟨rfl, gone, own, absent, holds⟩ := place
  have made := (inv.owners _ _ holds).2
  have before := not_destroying at_ fun _ _ => nofun
  -- The descriptor that becomes free belongs to no other connection.
  have others : ∀ c, c ≠ conn → s.owner (s.fd c) = some c →
      Function.update s.owner (s.fd conn) none (s.fd c) = some c := by
    intro c apart owner
    have numbers : s.fd c ≠ s.fd conn := by
      intro equal
      rw [equal, holds] at owner
      exact apart (Option.some.inj owner).symm
    exact (Function.update_of_ne numbers _ _).trans owner
  have closed : s.PlaceOk i (s.reactors i).batch (.closed conn) := ⟨made, absent⟩
  have went := inv.goOn closed before fun _ _ => nofun
  refine ⟨went.known, ?_, ?_, went.table, went.wired, went.listed, went.dying, went.settingUp,
    went.interest, went.batches, ?_⟩
  · exact fun c member => others c (fun equal => gone (equal ▸ member)) (inv.owned c member)
  · intro d c owner
    have number : d ≠ s.fd conn := by
      rintro rfl
      simp [Server.goOn, Server.setReactor] at owner
    exact inv.owners d c ((Function.update_of_ne number _ _).symm.trans owner)
  · intro j
    by_cases equal : j = i
    · subst equal
      rw [Server.goOn_pc, Server.goOn_batch]
      exact closed
    · rw [Server.goOn_other equal]
      refine inv.place_kept (inv.places j) (Nat.le_refl _) (fun _ _ => rfl) (fun _ _ => rfl)
        (fun _ _ _ => Iff.rfl) (fun c serving owner => others c ?_ owner) fun _ _ found => found
      rintro rfl
      exact equal (serving.symm.trans own)

/-- Every step of a sub-reactor keeps the server in order. -/
theorem loopMove (inv : ServerInv s) {op : LoopOp} (move : LoopMove s i op t) : ServerInv t := by
  have place := inv.places i
  -- Polls and the three steps of a deletion have lemmas of their own, the others only go on.
  cases move with
  | poll report at_ reports => exact inv.poll at_ reports
  | rest at_ empty => exact inv.goOn empty (not_destroying at_ fun _ _ => nofun) fun _ _ => nofun
  | start ch rest at_ filled =>
    obtain ⟨nodup, serves⟩ := inv.batches i
    rw [filled, List.nodup_cons] at nodup
    rw [filled] at serves
    obtain ⟨live, own⟩ := serves ch List.mem_cons_self
    exact (inv.use ch).setReactor rfl
      ⟨nodup.2, fun c member => serves c (List.mem_cons_of_mem _ member)⟩ ⟨live, own, nodup.1⟩
      (not_destroying at_ fun _ _ => nofun) fun _ _ => nofun
  | call ch at_ =>
    rw [at_] at place
    exact (inv.use ch).goOn place (not_destroying at_ fun _ _ => nofun) fun _ _ => nofun
  | skip ch at_ =>
    rw [at_] at place
    exact (inv.use ch).goOn ⟨inv.known ch place.1, place.2.2⟩
      (not_destroying at_ fun _ _ => nofun) fun _ _ => nofun
  | found ch conn at_ set entry =>
    rw [at_] at place
    obtain ⟨live, own, absent⟩ := place
    obtain rfl := inv.lookup live entry
    exact inv.goOn ⟨live, own, absent, rfl, entry⟩ (not_destroying at_ fun _ _ => nofun)
      fun _ _ => nofun
  | missed => exact inv
  | erase ch fd at_ => exact inv.erase at_
  | nothing ch at_ =>
    rw [at_] at place
    cases place.1
  | destroy ch conn epoll channel at_ deleted => exact inv.destroy at_ deleted
  | shut ch conn at_ => exact inv.shut at_
  | ret ch at_ =>
    rw [at_] at place
    exact inv.goOn ⟨inv.known ch place.1, place.2.2⟩ (not_destroying at_ fun _ _ => nofun)
      fun _ _ => nofun
  | back ch at_ =>
    rw [at_] at place
    exact inv.goOn place (not_destroying at_ fun _ _ => nofun) fun _ _ => nofun
  | again stale ch at_ =>
    exact (inv.use ch).goOn trivial (not_destroying at_ fun _ _ => nofun) fun _ _ => nofun

/-- Every step keeps the server in order. -/
theorem step (inv : ServerInv s) {label : Label} (stepped : s.step setting label = some t) :
    ServerInv t := by
  cases label with
  | main op => exact inv.mainStep stepped
  | sub i op => exact inv.loopMove (.of_step (Option.ite_none_right_eq_some.mp stepped).2)

end ServerInv

/-- A run of the server from the first accept on. -/
abbrev Setting.Runs (setting : Setting) (permitted : Server → Label → Prop) (labels : List Label)
    (s : Server) : Prop :=
  Run (Server.step setting) permitted setting.server labels s

/-- In every run the server is in order. -/
theorem Setting.serverInv {setting : Setting} {permitted : Server → Label → Prop}
    {labels : List Label} {s : Server} (run : setting.Runs permitted labels s) : ServerInv s :=
  run.invariant (ServerInv.initial setting) fun _ _ _ inv _ stepped => inv.step stepped

end SimpleSrv.Nebula
