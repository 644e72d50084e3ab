import Mathlib.Data.List.Nodup
import SimpleSrv.Nebula.Server

/-! What every interleaving of the reactors keeps: the table, the pollers, and who serves whom. -/

namespace SimpleSrv.Nebula

namespace Server

/-- The callbacks of a connection are in place. -/
def WiredUp (s : Server) (conn : Nat) : Prop :=
  (s.conns conn).channel.readCallback = true ∧ (s.conns conn).deleteCallback = true

instance (s : Server) (conn : Nat) : Decidable (s.WiredUp conn) :=
  inferInstanceAs (Decidable (_ ∧ _))

/-- What the place of a sub-reactor says about the channel that it serves. -/
def PlaceOk (s : Server) (i : Nat) (batch : List Nat) : LoopPc → Prop
  | .poll => batch = []
  | .loop => True
  | .check ch | .handler ch => ch ∈ s.live ∧ s.loop ch = i ∧ ch ∉ batch
  | .erase ch fd =>
    ch ∈ s.live ∧ s.loop ch = i ∧ ch ∉ batch ∧ fd = s.fd ch ∧ s.connections fd = some ch
  | .destroy ch conn => conn = some ch ∧ ch ∈ s.live ∧ s.loop ch = i ∧ ch ∉ batch
  | .shut ch conn =>
    conn = ch ∧ ch ∉ s.live ∧ s.loop ch = i ∧ ch ∉ batch ∧ s.owner (s.fd ch) = some ch
  | .closed ch | .again ch => ch < s.created ∧ ch ∉ batch

/-- The connection that a sub-reactor has taken out of the table and not yet destroyed. -/
def Dying (s : Server) (conn : Nat) : Prop := ∃ i ch, (s.reactors i).pc = .destroy ch (some conn)

/-- What the place of the main reactor says about the connection that it sets up. -/
def SettingUp (s : Server) : Prop :=
  match s.main with
  | .idle => True
  | .constructed conn =>
    conn ∈ s.live ∧ (s.conns conn).channel.readCallback = false
  | .deletable conn =>
    conn ∈ s.live ∧ (s.conns conn).channel.readCallback = false ∧
      (s.conns conn).deleteCallback = true
  | .callable conn => conn ∈ s.live ∧ s.WiredUp conn

/-- The channels behind the descriptors of a report. -/
def reported (epoll : Epoll) (report : List (Fd × Nat)) : List Nat :=
  report.filterMap fun event => (epoll event.1).map Interest.channel

variable {s : Server} {i j : Nat} {pc : LoopPc}

/-- Going on shows in the sub-reactor's own place. -/
theorem goOn_pc : ((s.goOn i pc).reactors i).pc = pc := by
  simp [goOn, setReactor]

/-- Going on changes no other sub-reactor. -/
theorem goOn_other (apart : j ≠ i) : (s.goOn i pc).reactors j = s.reactors j :=
  Function.update_of_ne apart _ _

/-- Going on changes no batch. -/
theorem goOn_batch : ((s.goOn i pc).reactors j).batch = (s.reactors j).batch := by
  -- Only the place of one reactor is written.
  by_cases here : j = i
  · subst here
    simp [goOn, setReactor]
  · rw [goOn_other here]

/-- Going on changes no registration. -/
theorem goOn_epoll : ((s.goOn i pc).reactors j).epoll = (s.reactors j).epoll := by
  -- Only the place of one reactor is written.
  by_cases here : j = i
  · subst here
    simp [goOn, setReactor]
  · rw [goOn_other here]

end Server

/-- Two connections differ at most in what their channels listen for and have been told. -/
def ServerConn.SameShape (c d : ServerConn) : Prop :=
  c.channel.fd = d.channel.fd ∧ c.channel.loop = d.channel.loop ∧
    c.channel.readCallback = d.channel.readCallback ∧ c.deleteCallback = d.deleteCallback

/-- Being told of events changes nothing else about a channel. -/
theorem ServerConn.sameShape_report (c : ServerConn) (events : Nat) :
    SameShape (c.report events) c := by
  -- Each condition either adds a bit or leaves the channel as it is.
  simp only [SameShape, report, Channel.report]
  split <;> split <;> split <;> exact ⟨rfl, rfl, rfl, trivial⟩

/-- A poll returns the reported channels and tells them about their events. -/
theorem Server.poll_eq (s : Server) (epoll : Epoll) (report : List (Fd × Nat)) :
    ∃ conns : Nat → ServerConn, (∀ conn, ServerConn.SameShape (conns conn) (s.conns conn)) ∧
      s.poll epoll report =
        ({ s with
            conns := conns
            uses := s.uses ++ (reported epoll report).map fun ch => (⟨ch, ch ∈ s.live⟩ : Use) },
          reported epoll report) := by
  -- The induction is on the events of the report.
  induction report generalizing s with
  | nil => exact ⟨s.conns, fun _ => ⟨rfl, rfl, rfl, rfl⟩, by simp [poll, reported]⟩
  | cons event rest ih =>
    obtain ⟨fd, events⟩ := event
    simp only [poll]
    cases found : epoll fd with
    | none =>
      obtain ⟨conns, shapes, same⟩ := ih s
      exact ⟨conns, shapes, same.trans (by simp [reported, found])⟩
    | some entry =>
      -- The other events are delivered to a server that has handled this one.
      have shape := (s.conns entry.channel).sameShape_report events
      obtain ⟨conns, shapes, same⟩ := ih
        ((s.use entry.channel).setConn entry.channel ((s.conns entry.channel).report events))
      refine ⟨conns, fun conn => ?_, ?_⟩
      · have others := shapes conn
        by_cases equal : conn = entry.channel
        · subst equal
          simp only [setConn, Function.update_self] at others
          exact ⟨others.1.trans shape.1, others.2.1.trans shape.2.1,
            others.2.2.1.trans shape.2.2.1, others.2.2.2.trans shape.2.2.2⟩
        · simp only [setConn, Function.update_of_ne equal] at others
          exact others
      · have first : reported epoll ((fd, events) :: rest) =
            entry.channel :: reported epoll rest := by simp [reported, found]
        simp only [same]
        rw [first, List.map_cons, List.append_cons]
        rfl

/-- The server is in order. -/
structure ServerInv (s : Server) : Prop where
  known : ∀ conn ∈ s.live, conn < s.created
  owned : ∀ conn ∈ s.live, s.owner (s.fd conn) = some conn
  owners : ∀ fd conn, s.owner fd = some conn → s.fd conn = fd ∧ conn < s.created
  table : ∀ fd conn, s.connections fd = some conn →
    conn ∈ s.live ∧ s.fd conn = fd ∧ s.main.building ≠ some conn
  wired : ∀ conn ∈ s.live, s.main.building ≠ some conn → s.WiredUp conn
  listed : ∀ conn ∈ s.live, s.main.building ≠ some conn → ¬ s.Dying conn →
    s.connections (s.fd conn) = some conn
  dying : ∀ conn, s.Dying conn →
    s.main.building ≠ some conn ∧ s.connections (s.fd conn) ≠ some conn
  settingUp : s.SettingUp
  interest : ∀ i fd entry, (s.reactors i).epoll fd = some entry →
    entry.channel ∈ s.live ∧ s.fd entry.channel = fd ∧ s.loop entry.channel = i
  batches : ∀ i, (s.reactors i).batch.Nodup ∧
    ∀ ch ∈ (s.reactors i).batch, ch ∈ s.live ∧ s.loop ch = i
  places : ∀ i, s.PlaceOk i (s.reactors i).batch (s.reactors i).pc

namespace ServerInv

variable {setting : Setting} {s t : Server} {i : Nat}

/-- Two live connections with one descriptor are the same. -/
theorem fd_inj (inv : ServerInv s) {a b : Nat} (first : a ∈ s.live) (second : b ∈ s.live)
    (same : s.fd a = s.fd b) : a = b := by
  have owner := inv.owned a first
  rw [same, inv.owned b second] at owner
  exact (Option.some.inj owner).symm

/-- A sub-reactor destroys only connections of its own. -/
theorem dying_own (inv : ServerInv s) {ch conn : Nat}
    (at_ : (s.reactors i).pc = .destroy ch (some conn)) :
    conn = ch ∧ conn ∈ s.live ∧ s.loop conn = i := by
  -- Such a place says whose connection it is.
  have place := inv.places i
  rw [at_] at place
  obtain ⟨same, live, loop, _⟩ := place
  obtain rfl := Option.some.inj same
  exact ⟨rfl, live, loop⟩

/-- The beginning is in order. -/
theorem initial (setting : Setting) : ServerInv setting.server where
  known _ absent := nomatch absent
  owned _ absent := nomatch absent
  owners _ _ absent := nomatch absent
  table _ _ absent := nomatch absent
  wired _ absent := nomatch absent
  listed _ absent := nomatch absent
  dying := fun _ ⟨_, _, absent⟩ => nomatch absent
  settingUp := trivial
  interest _ _ _ absent := nomatch absent
  batches _ := ⟨.nil, fun _ absent => nomatch absent⟩
  places _ := rfl

/-- A use changes nothing else. -/
theorem use (inv : ServerInv s) (ch : Nat) : ServerInv (s.use ch) :=
  ⟨inv.known, inv.owned, inv.owners, inv.table, inv.wired, inv.listed, inv.dying, inv.settingUp,
    inv.interest, inv.batches, inv.places⟩

/-- A place stays right as long as nothing happens to the connections of its loop. -/
theorem place_kept (inv : ServerInv s) {batch : List Nat} {pc : LoopPc}
    (place : s.PlaceOk i batch pc) (created : s.created ≤ t.created)
    (fd : ∀ ch < s.created, t.fd ch = s.fd ch) (loop : ∀ ch < s.created, t.loop ch = s.loop ch)
    (live : ∀ ch < s.created, s.loop ch = i → (ch ∈ t.live ↔ ch ∈ s.live))
    (owner : ∀ ch, s.loop ch = i → s.owner (s.fd ch) = some ch → t.owner (s.fd ch) = some ch)
    (connections : ∀ ch, s.loop ch = i → s.connections (s.fd ch) = some ch →
      t.connections (s.fd ch) = some ch) : t.PlaceOk i batch pc := by
  -- Every channel that a place names has been created, so all the facts about it stay.
  have serving : ∀ ch ∈ s.live, s.loop ch = i → ch ∈ t.live ∧ t.loop ch = i := by
    intro ch exists_ own
    have made := inv.known ch exists_
    exact ⟨(live ch made own).mpr exists_, (loop ch made).trans own⟩
  cases pc with
  | poll | loop => exact place
  | check ch | handler ch =>
    obtain ⟨exists_, own, absent⟩ := place
    obtain ⟨exists_, own⟩ := serving ch exists_ own
    exact ⟨exists_, own, absent⟩
  | erase ch d =>
    obtain ⟨exists_, own, absent, rfl, found⟩ := place
    obtain ⟨exists', own'⟩ := serving ch exists_ own
    exact ⟨exists', own', absent, (fd ch (inv.known ch exists_)).symm, connections ch own found⟩
  | destroy ch conn =>
    obtain ⟨same, exists_, own, absent⟩ := place
    obtain ⟨exists_, own⟩ := serving ch exists_ own
    exact ⟨same, exists_, own, absent⟩
  | shut ch conn =>
    obtain ⟨same, gone, own, absent, holds⟩ := place
    have made := (inv.owners _ ch holds).2
    refine ⟨same, fun exists_ => gone ((live ch made own).mp exists_), (loop ch made).trans own,
      absent, ?_⟩
    rw [fd ch made]
    exact owner ch own holds
  | closed ch | again ch => exact ⟨Nat.lt_of_lt_of_le place.1 created, place.2⟩

/-- The main reactor may go on with the connection that it sets up. -/
theorem setUp (inv : ServerInv s) {conns : Nat → ServerConn} {uses : List Use} {main : MainPc}
    (same : main.building = s.main.building) (fd : ∀ conn, (conns conn).channel.fd = s.fd conn)
    (loop : ∀ conn, (conns conn).channel.loop = s.loop conn)
    (wired : ∀ conn, s.main.building ≠ some conn → s.WiredUp conn →
      Server.WiredUp { s with conns := conns, uses := uses, main := main } conn)
    (stage : Server.SettingUp { s with conns := conns, uses := uses, main := main }) :
    ServerInv { s with conns := conns, uses := uses, main := main } := by
  -- Each part follows from the old one, since no number and no loop has changed.
  refine ⟨inv.known, ?_, ?_, ?_, ?_, ?_, ?_, stage, ?_, ?_, ?_⟩
  · intro conn live
    simp only [Server.fd, fd]
    exact inv.owned conn live
  · intro d conn owner
    simp only [Server.fd, fd]
    exact inv.owners d conn owner
  · intro d conn found
    simp only [Server.fd, fd, same]
    exact inv.table d conn found
  · intro conn live finished
    simp only [same] at finished
    exact wired conn finished (inv.wired conn live finished)
  · intro conn live finished kept
    simp only [Server.fd, fd, same] at finished ⊢
    exact inv.listed conn live finished kept
  · intro conn dying
    simp only [Server.fd, fd, same]
    exact inv.dying conn dying
  · intro j d entry found
    simp only [Server.fd, Server.loop, fd, loop]
    exact inv.interest j d entry found
  · intro j
    simp only [Server.loop, loop]
    exact inv.batches j
  · intro j
    exact inv.place_kept (inv.places j) (Nat.le_refl _) (fun ch _ => fd ch) (fun ch _ => loop ch)
      (fun _ _ _ => Iff.rfl) (fun _ _ holds => holds) fun _ _ found => found

/-- Events and registrations of the channels do not matter. -/
theorem told (inv : ServerInv s) {conns : Nat → ServerConn} {uses : List Use}
    (shapes : ∀ conn, ServerConn.SameShape (conns conn) (s.conns conn)) :
    ServerInv { s with conns := conns, uses := uses } := by
  -- What changes is not mentioned by any part of the invariant but the wiring, which is kept.
  have wired : ∀ conn, Server.WiredUp { s with conns := conns, uses := uses } conn ↔
      s.WiredUp conn := by
    intro conn
    obtain ⟨_, _, read, delete⟩ := shapes conn
    simp only [Server.WiredUp, read, delete]
  refine inv.setUp rfl (fun conn => (shapes conn).1) (fun conn => (shapes conn).2.1)
    (fun conn _ => (wired conn).mpr) ?_
  have stage := inv.settingUp
  simp only [Server.SettingUp] at stage ⊢
  cases at_ : s.main with
  | idle => trivial
  | constructed conn =>
    rw [at_] at stage
    exact ⟨stage.1, (shapes conn).2.2.1.trans stage.2⟩
  | deletable conn =>
    rw [at_] at stage
    exact ⟨stage.1, (shapes conn).2.2.1.trans stage.2.1, (shapes conn).2.2.2.trans stage.2.2⟩
  | callable conn =>
    rw [at_] at stage
    exact ⟨stage.1, (wired conn).mpr stage.2⟩

/-- A sub-reactor may get another batch of its channels and go on, between deletions. -/
theorem setReactor (inv : ServerInv s) {r : Reactor} (epoll : r.epoll = (s.reactors i).epoll)
    (batch : r.batch.Nodup ∧ ∀ ch ∈ r.batch, ch ∈ s.live ∧ s.loop ch = i)
    (place : s.PlaceOk i r.batch r.pc) (before : ∀ ch conn, (s.reactors i).pc ≠ .destroy ch conn)
    (behind : ∀ ch conn, r.pc ≠ .destroy ch conn) : ServerInv (s.setReactor i r) := by
  have others : ∀ j, j ≠ i → (s.setReactor i r).reactors j = s.reactors j := fun j apart =>
    Function.update_of_ne apart _ _
  have own : (s.setReactor i r).reactors i = r := Function.update_self _ _ _
  have dying : ∀ conn, (s.setReactor i r).Dying conn ↔ s.Dying conn := by
    intro conn
    constructor
    · rintro ⟨j, ch, at_⟩
      have apart : j ≠ i := by
        rintro rfl
        rw [own] at at_
        exact behind _ _ at_
      exact ⟨j, ch, others j apart ▸ at_⟩
    · rintro ⟨j, ch, at_⟩
      have apart : j ≠ i := by
        rintro rfl
        exact before _ _ at_
      exact ⟨j, ch, (others j apart).symm ▸ at_⟩
  -- Only the parts about places ask which sub-reactor it is.
  refine ⟨inv.known, inv.owned, inv.owners, inv.table, inv.wired, ?_, ?_, inv.settingUp, ?_, ?_, ?_⟩
  · exact fun conn live finished kept =>
      inv.listed conn live finished fun dies => kept ((dying conn).mpr dies)
  · exact fun conn dies => inv.dying conn ((dying conn).mp dies)
  · intro j fd entry found
    refine inv.interest j fd entry ?_
    by_cases here : j = i
    · subst here
      rw [own, epoll] at found
      exact found
    · rw [others j here] at found
      exact found
  · intro j
    by_cases here : j = i
    · subst here
      rw [own]
      exact batch
    · rw [others j here]
      exact inv.batches j
  · intro j
    by_cases here : j = i
    · subst here
      rw [own]
      exact place
    · rw [others j here]
      exact inv.places j

/-- A sub-reactor may go on to another place that suits its channel, between deletions. -/
theorem goOn (inv : ServerInv s) {pc : LoopPc} (place : s.PlaceOk i (s.reactors i).batch pc)
    (before : ∀ ch conn, (s.reactors i).pc ≠ .destroy ch conn)
    (behind : ∀ ch conn, pc ≠ .destroy ch conn) : ServerInv (s.goOn i pc) :=
  inv.setReactor rfl (inv.batches i) place before behind

end ServerInv

end SimpleSrv.Nebula
