import SimpleSrv.Nebula.ServerSteps

/-! The table of connections, while descriptors are closed by one thread and re-used by another. -/

namespace SimpleSrv.Nebula

/-- The connection that a sub-reactor is deleting. -/
def LoopPc.victim : LoopPc → Option Nat
  | .erase ch _ | .destroy ch _ | .shut ch _ => some ch
  | _ => none

/-- `Server::NewConnection` without an interruption, for a descriptor from `accept`. -/
def Server.newConnection (setting : Setting) (s : Server) (fd : Fd) : Option Server :=
  (s.mainStep setting (.construct fd)).bind fun s =>
    (s.mainStep setting .setDeleteConnectionCallback).bind fun s =>
      (s.mainStep setting .setOnConnectCallback).bind fun s => s.mainStep setting .record

/-- The server, with the connections whose deletion has been asked for. -/
structure Deletions where
  server : Server
  asked : List Nat

/-- A new connection, or one of the steps of `Server::DeleteConnection` on a sub-reactor. -/
inductive TableOp where
  | newConnection (fd : Fd)
  | lookUp (i conn : Nat)
  | erase (i : Nat)
  /-- `delete channel_` in `~Connection`, with its `EPOLL_CTL_DEL`. -/
  | destroy (i : Nat)
  /-- `delete sock_` in `~Connection`, with its `close`. -/
  | shut (i : Nat)
  deriving DecidableEq, Repr

namespace Deletions

/-- Before the first connection. -/
def initial (setting : Setting) : Deletions := ⟨setting.server, []⟩

/-- One step, where `none` says that it is not possible or has ended the process. -/
def step (setting : Setting) (d : Deletions) : TableOp → Option Deletions
  | .newConnection fd => (d.server.newConnection setting fd).map fun s => { d with server := s }
  | .lookUp i conn =>
    -- Some handler of the sub-reactor calls `Close` for the connection.
    ((d.server.goOn i (.handler conn)).step setting (.sub i .close)).map fun s =>
      ⟨s, d.asked ++ [conn]⟩
  | .erase i => (d.server.step setting (.sub i .erase)).map fun s => { d with server := s }
  | .destroy i => (d.server.step setting (.sub i .destroy)).map fun s => { d with server := s }
  | .shut i => (d.server.step setting (.sub i .shut)).map fun s => { d with server := s }

/-- A connection is deleted once at most, by its own sub-reactor, which does one thing at a time. -/
def AskedOnce (d : Deletions) : TableOp → Prop
  | .lookUp i conn =>
    conn < d.server.created ∧ d.server.loop conn = i ∧ conn ∉ d.asked ∧
      (d.server.reactors i).pc.victim = none
  | _ => True

instance (d : Deletions) : ∀ op, Decidable (d.AskedOnce op)
  | .lookUp _ _ => inferInstanceAs (Decidable (_ ∧ _ ∧ _ ∧ _))
  | .newConnection _ | .erase _ | .destroy _ | .shut _ => inferInstanceAs (Decidable True)

/-- The server is in order between new connections, and knows what has been asked for. -/
structure Ok (d : Deletions) : Prop where
  server : ServerInv d.server
  idle : d.server.main = .idle
  /-- Nothing is polled for. -/
  batches : ∀ i, (d.server.reactors i).batch = []
  /-- Only connections whose deletion was asked for can be gone. -/
  alive : ∀ conn < d.server.created, conn ∉ d.asked → conn ∈ d.server.live
  asked : ∀ i conn, (d.server.reactors i).pc.victim = some conn → conn ∈ d.asked

end Deletions

namespace Server

variable {setting : Setting} {s t : Server} {fd : Fd}

/-- A new connection takes the four steps of the main reactor. -/
theorem newConnection_steps (accepted : s.newConnection setting fd = some t) :
    ∃ a b c, s.mainStep setting (.construct fd) = some a ∧
      a.mainStep setting .setDeleteConnectionCallback = some b ∧
        b.mainStep setting .setOnConnectCallback = some c ∧
          c.mainStep setting .record = some t := by
  -- Each step is possible only after the one before it.
  obtain ⟨a, constructed, accepted⟩ := Option.bind_eq_some_iff.mp accepted
  obtain ⟨b, deletable, accepted⟩ := Option.bind_eq_some_iff.mp accepted
  obtain ⟨c, callable, recorded⟩ := Option.bind_eq_some_iff.mp accepted
  exact ⟨a, b, c, constructed, deletable, callable, recorded⟩

/-- What a new connection changes of the connections and of the places of the sub-reactors. -/
theorem newConnection_changes (accepted : s.newConnection setting fd = some t) :
    s.owner fd = none ∧ t.main = .idle ∧ t.created = s.created + 1 ∧
      (∀ conn, conn ∈ t.live ↔ conn ∈ s.live ∨ conn = s.created) ∧
        ∀ i, (t.reactors i).pc = (s.reactors i).pc ∧
          (t.reactors i).batch = (s.reactors i).batch := by
  -- Only the first of the four steps touches connections and descriptors.
  obtain ⟨a, b, c, constructed, deletable, callable, recorded⟩ := newConnection_steps accepted
  obtain ⟨⟨_, _, unused, _⟩, constructed⟩ := Option.ite_none_right_eq_some.mp constructed
  have changes := construct_changes constructed
  simp only [mainStep, changes.main, Option.some.injEq] at deletable
  subst deletable
  simp only [mainStep, Option.some.injEq] at callable
  subst callable
  simp only [mainStep, Option.some.injEq] at recorded
  subst recorded
  exact ⟨unused, rfl, changes.created, changes.live, changes.places⟩

/-- A new connection leaves the server in order. -/
theorem newConnection_inv (inv : ServerInv s) (accepted : s.newConnection setting fd = some t) :
    ServerInv t := by
  -- Each of the four steps keeps the invariant.
  obtain ⟨a, b, c, constructed, deletable, callable, recorded⟩ := newConnection_steps accepted
  exact (((inv.mainStep constructed).mainStep deletable).mainStep callable).mainStep recorded

/-- Only the last place that a sub-reactor has gone on to counts. -/
theorem goOn_goOn {i : Nat} (first second : LoopPc) :
    (s.goOn i first).goOn i second = s.goOn i second := by
  simp [goOn, setReactor]

/-- What a step of a deletion, from the erasure on, changes of connections and places. -/
structure Deleted (s t : Server) (i : Nat) : Prop where
  main : t.main = s.main
  created : t.created = s.created
  batches : ∀ j, (t.reactors j).batch = (s.reactors j).batch
  live : ∀ conn ∈ s.live, conn ∉ t.live → (s.reactors i).pc.victim = some conn
  victims : ∀ j conn, (t.reactors j).pc.victim = some conn → (s.reactors j).pc.victim = some conn

/-- Going on with a deletion, or leaving it, changes nothing else. -/
theorem Deleted.goOn {i : Nat} {pc : LoopPc} (main : t.main = s.main)
    (created : t.created = s.created) (live : t.live = s.live) (reactors : t.reactors = s.reactors)
    (same : ∀ conn, pc.victim = some conn → (s.reactors i).pc.victim = some conn) :
    Deleted s (t.goOn i pc) i := by
  -- Everything but the place of this sub-reactor is the same.
  refine ⟨main, created, fun j => ?_, fun conn there gone => ?_, fun j conn found => ?_⟩
  · rw [goOn_batch, reactors]
  · exact absurd (live.symm ▸ there) gone
  · -- Only its own place may have got or lost a victim.
    by_cases here : j = i
    · subst here
      rw [goOn_pc] at found
      exact same conn found
    · rw [goOn_other here, reactors] at found
      exact found

/-- The three steps of a deletion that follow the look-up. -/
def DeletionOp : LoopOp → Prop
  | .erase | .destroy | .shut => True
  | _ => False

/-- Each of these steps is one of a deletion. -/
theorem Deleted.of_move (inv : ServerInv s) {i : Nat} {op : LoopOp} (move : LoopMove s i op t)
    (deletion : DeletionOp op) : Deleted s t i := by
  -- Three of the four moves change a place only, and the fourth ends the victim's life.
  cases move with
  | erase ch fd at_ => exact .goOn rfl rfl rfl rfl fun conn found => by rw [at_]; exact found
  | nothing ch at_ => exact .goOn rfl rfl rfl rfl nofun
  | shut ch conn at_ => exact .goOn rfl rfl rfl rfl nofun
  | destroy ch conn epoll channel at_ deleted =>
    obtain ⟨rfl, live, own⟩ := inv.dying_own at_
    have changes := destroyed_changes own deleted
    refine ⟨changes.main, changes.created, changes.batch, fun other there gone => ?_,
      fun j other found => ?_⟩
    · -- Nobody but the victim has gone.
      have same : other = conn := by
        by_contra apart
        exact gone ((changes.live other).mpr ⟨there, apart⟩)
      rw [at_, same]
      rfl
    · -- The victim is known from the look-up until the socket is closed.
      by_cases here : j = i
      · subst here
        rw [changes.place] at found
        rw [at_]
        exact found
      · rw [changes.others j here] at found
        exact found
  | poll | rest | start | call | skip | found | missed | ret | back | again => exact deletion.elim

end Server

namespace Deletions

variable {setting : Setting} {d e : Deletions}

namespace Ok

/-- Nothing has happened yet. -/
theorem initial (setting : Setting) : Ok (.initial setting) :=
  ⟨ServerInv.initial setting, rfl, fun _ => rfl, fun _ absent => (nomatch absent), fun _ _ => nofun⟩

/-- A new connection has not been asked to go. -/
theorem newConnection (ok : d.Ok) {fd : Fd} {t : Server}
    (accepted : d.server.newConnection setting fd = some t) : Ok { d with server := t } := by
  -- The only connection that is new is live, and nobody can have asked for its deletion.
  obtain ⟨_, idle, created, live, places⟩ := Server.newConnection_changes accepted
  refine ⟨Server.newConnection_inv ok.server accepted, idle, fun i => ?_, fun conn made keeps => ?_,
    fun i conn found => ?_⟩
  · exact (places i).2.trans (ok.batches i)
  · -- A connection is an old one, which has been kept, or the new one.
    refine (live conn).mpr ?_
    by_cases old : conn < d.server.created
    · exact .inl (ok.alive conn old keeps)
    · simp only [created] at made
      exact .inr (by omega)
  · simp only [(places i).1] at found
    exact ok.asked i conn found

/-- A look-up finds the connection that it is for. -/
theorem lookUp (ok : d.Ok) {i conn : Nat} (permitted : d.AskedOnce (.lookUp i conn)) {t : Server}
    (stepped : (d.server.goOn i (.handler conn)).step setting (.sub i .close) = some t) :
    Ok ⟨t, d.asked ++ [conn]⟩ := by
  -- Its sub-reactor may enter a handler, since the connection is live and nobody deletes it.
  obtain ⟨made, own, keeps, free⟩ := permitted
  have live := ok.alive conn made keeps
  have before : ∀ ch c, (d.server.reactors i).pc ≠ .destroy ch c := by
    intro ch c at_
    rw [at_] at free
    cases free
  have place : d.server.PlaceOk i (d.server.reactors i).batch (.handler conn) := by
    rw [ok.batches i]
    exact ⟨live, own, List.not_mem_nil⟩
  have inv := ok.server.goOn place before fun _ _ => nofun
  have move := LoopMove.of_step (Option.ite_none_right_eq_some.mp stepped).2
  have inside : conn ∈ d.asked ++ [conn] := List.mem_append_right _ List.mem_cons_self
  -- Whether or not the look-up finds anything, the sub-reactor is at work for this connection.
  obtain ⟨pc, goes, rfl⟩ : ∃ pc : LoopPc, (∀ c, pc.victim = some c → c = conn) ∧
      t = d.server.goOn i pc := by
    cases move with
    | missed => exact ⟨.handler conn, nofun, rfl⟩
    | found ch found at_ =>
      obtain rfl := LoopPc.handler.inj (Server.goOn_pc.symm.trans at_)
      exact ⟨.erase _ _, fun c same => (Option.some.inj same).symm, Server.goOn_goOn _ _⟩
  refine ⟨inv.loopMove move, ok.idle, fun j => Server.goOn_batch.trans (ok.batches j),
    fun other made keeps => ?_, fun j other found => ?_⟩
  · exact ok.alive other made fun member => keeps (List.mem_append_left _ member)
  · -- The victim of this sub-reactor is the one just asked for.
    by_cases here : j = i
    · subst here
      simp only [Server.goOn_pc] at found
      exact goes other found ▸ inside
    · simp only [Server.goOn_other here] at found
      exact List.mem_append_left _ (ok.asked j other found)

/-- The other steps of a deletion concern only its victim. -/
theorem deleted (ok : d.Ok) {i : Nat} {op : LoopOp} {t : Server}
    (stepped : d.server.step setting (.sub i op) = some t) (deletion : Server.DeletionOp op) :
    Ok { d with server := t } := by
  -- A deletion that goes on has been asked for before.
  have move := LoopMove.of_step (Option.ite_none_right_eq_some.mp stepped).2
  have changes := Server.Deleted.of_move ok.server move deletion
  refine ⟨ok.server.loopMove move, changes.main.trans ok.idle,
    fun j => (changes.batches j).trans (ok.batches j), fun conn made keeps => ?_,
    fun j conn found => ok.asked j conn (changes.victims j conn found)⟩
  simp only [changes.created] at made
  by_contra gone
  exact keeps (ok.asked i conn (changes.live conn (ok.alive conn made keeps) gone))

/-- Every step keeps the table and what it stands for in order. -/
theorem step (ok : d.Ok) {op : TableOp} (permitted : d.AskedOnce op)
    (stepped : d.step setting op = some e) : e.Ok := by
  -- The steps of a deletion after its look-up are covered by one lemma.
  cases op with
  | newConnection fd =>
    obtain ⟨t, accepted, rfl⟩ := Option.map_eq_some_iff.mp stepped
    exact ok.newConnection accepted
  | lookUp i conn =>
    obtain ⟨t, looked, rfl⟩ := Option.map_eq_some_iff.mp stepped
    exact ok.lookUp permitted looked
  | erase i | destroy i | shut i =>
    obtain ⟨t, deleted, rfl⟩ := Option.map_eq_some_iff.mp stepped
    exact ok.deleted deleted trivial

end Ok

end Deletions

/--
The table of connections is consistent in every interleaving, with descriptors that are re-used.

An entry is for a live connection and the descriptor that its socket holds.
A live connection has its entry until a deletion has erased it.
A new connection finds no entry under its descriptor.
Before `EPOLL_CTL_DEL` the descriptor still belongs to the connection that is being destroyed.
-/
theorem table_consistent {setting : Setting} {ops : List TableOp} {d : Deletions}
    (run : Run (Deletions.step setting) Deletions.AskedOnce (.initial setting) ops d) :
    (∀ fd conn, d.server.connections fd = some conn →
      conn ∈ d.server.live ∧ d.server.fd conn = fd ∧ d.server.owner fd = some conn) ∧
    (∀ conn ∈ d.server.live, ¬ d.server.Dying conn →
      d.server.connections (d.server.fd conn) = some conn) ∧
    (∀ fd t, d.server.newConnection setting fd = some t → d.server.connections fd = none) ∧
    ∀ i ch victim, (d.server.reactors i).pc = .destroy ch victim →
      victim = some ch ∧ ch ∈ d.server.live ∧ d.server.owner (d.server.fd ch) = some ch := by
  -- Everything is read off the invariant of the states that the run reaches.
  have ok : d.Ok := run.invariant (.initial setting) fun _ _ _ ok permitted stepped =>
    ok.step permitted stepped
  have inv := ok.server
  have entries : ∀ fd conn, d.server.connections fd = some conn →
      conn ∈ d.server.live ∧ d.server.fd conn = fd ∧ d.server.owner fd = some conn := by
    intro fd conn found
    obtain ⟨live, number, _⟩ := inv.table fd conn found
    exact ⟨live, number, number ▸ inv.owned conn live⟩
  refine ⟨entries, fun conn live kept => ?_, fun fd t accepted => ?_, fun i ch victim at_ => ?_⟩
  · refine inv.listed conn live ?_ kept
    rw [ok.idle]
    exact nofun
  · -- The kernel does not return a descriptor that a connection holds.
    have unused := (Server.newConnection_changes accepted).1
    cases found : d.server.connections fd with
    | none => rfl
    | some conn => cases unused.symm.trans (entries fd conn found).2.2
  · -- What is known of a sub-reactor in a destructor says whom it destroys.
    have place := inv.places i
    rw [at_] at place
    obtain ⟨same, live, _⟩ := place
    exact ⟨same, live, inv.owned ch live⟩

/-- Two sub-reactors, as on a machine with two processors. -/
def twoReactors : Setting where
  size := 2
  positive := by decide
  inUse := [0, 1, 2, 3, 4]
  onConnect := true

/-- While one sub-reactor deletes a connection, the other one's descriptor is taken again. -/
def reuse : List TableOp :=
  [.newConnection 5, .newConnection 6, .lookUp 1 0, .erase 1, .lookUp 0 1, .destroy 1, .shut 1,
    .newConnection 5, .erase 0]

/-- The third connection has the descriptor of the first one, and the second one is going. -/
theorem table_consistent_reuse :
    ∃ d, Run (Deletions.step twoReactors) Deletions.AskedOnce (.initial twoReactors) reuse d ∧
      d.server.connections 5 = some 2 ∧ d.server.connections 6 = none ∧
        d.server.owner 5 = some 2 ∧ d.server.owner 6 = some 1 := by
  -- The run is computed as far as the table is concerned, and the rest is known from the theorem.
  have facts : (execute (Deletions.step twoReactors) Deletions.AskedOnce (.initial twoReactors)
      reuse).map (fun d => (d.server.connections 5, d.server.connections 6, d.server.fd 1,
        (d.server.reactors 0).pc)) = some (some 2, none, 6, .destroy 1 (some 1)) := by
    decide
  obtain ⟨d, ran, same⟩ := Option.map_eq_some_iff.mp facts
  simp only [Prod.mk.injEq] at same
  obtain ⟨five, six, number, at_⟩ := same
  obtain ⟨entries, _, _, deletions⟩ := table_consistent (.of_execute ran)
  have owner := (deletions 0 1 (some 1) at_).2.2
  rw [number] at owner
  exact ⟨d, .of_execute ran, five, six, (entries 5 2 five).2.2, owner⟩

end SimpleSrv.Nebula
