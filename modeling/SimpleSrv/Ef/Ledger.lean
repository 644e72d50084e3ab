import SimpleSrv.Ef.OwnedLoop

/-! A record of the accepted connections, and who holds each of them on its way to its close. -/

namespace SimpleSrv.Ef

/-- A world with a record of the connections it has accepted, which are numbered in their order. -/
structure Ledger where
  world : World
  /-- How many there have been. -/
  accepted : Nat
  /-- The one that is open under a descriptor. -/
  conn : Fd → Option Nat
  /-- The one that a node has been filled for. -/
  nodeConn : Ptr → Nat
  /-- The one that a coroutine has been started for. -/
  coConn : Ptr → Nat

/-- A node is on the `fd_list` of a listener. -/
def World.Queued (w : World) (qf : Ptr) : Prop := ∃ li ∈ w.listenList, qf ∈ (w.listens li).fdList

instance (w : World) (qf : Ptr) : Decidable (w.Queued qf) :=
  inferInstanceAs (Decidable (∃ li ∈ w.listenList, _))

/-- The descriptor that `accept` returns in a step. -/
def Label.accepted : Label → Option Fd
  | .loop (.accept (.accepted fd _)) => some fd
  | _ => none

namespace Ledger

/-- The record of a step, which is read off the worlds before and after it. -/
def note (s : Ledger) (label : Label) (after : World) : Ledger where
  world := after
  accepted := if label.accepted = none then s.accepted else s.accepted + 1
  conn fd :=
    -- Under a number that is not open, every connection has been closed.
    if after.machine.kernel.owner fd = none then none
    else if label.accepted = some fd then some s.accepted
    else s.conn fd
  nodeConn qf := if after.Queued qf ∧ ¬ s.world.Queued qf then s.accepted else s.nodeConn qf
  coConn er :=
    if after.machine.pool.Busy er ∧ ¬ s.world.machine.pool.Busy er then
      match s.world.pc with
      | .queueFd _ (some qf) => s.nodeConn qf
      | _ => s.coConn er
    else s.coConn er

/-- Whoever may hold a connection. -/
inductive Holder where
  | queue (li qf : Ptr)
  | routine (er : Ptr)
  deriving DecidableEq, Repr

/-- A connection is on the `fd_list` of a listener, or with a coroutine that has not exited. -/
def Holds (s : Ledger) (g : Nat) : Holder → Prop
  | .queue li qf => li ∈ s.world.listenList ∧ qf ∈ (s.world.listens li).fdList ∧
      s.nodeConn qf = g ∧ s.conn (s.world.queueFds qf) = some g
  | .routine er => s.world.machine.pool.Busy er ∧
      s.coConn er = g ∧ s.conn (s.world.machine.routines er).connFd = some g

/-- Nobody can reach a connection any more. -/
def Closed (s : Ledger) (g : Nat) : Prop := ∀ fd, s.conn fd ≠ some g

/-- Every accepted connection is closed, or has exactly one holder. -/
def NoLeak (s : Ledger) : Prop := ∀ g < s.accepted, s.Closed g ∨ ∃! holder, s.Holds g holder

end Ledger

/-- One step, with its record. -/
def ledgerStep (s : Ledger) (label : Label) : Option Ledger :=
  (step s.world label).map (s.note label)

/-- Before anything is accepted there is nothing to record. -/
def Setting.ledger (setting : Setting) : Ledger where
  world := setting.world
  accepted := 0
  conn _ := none
  nodeConn _ := 0
  coConn _ := 0

/-- Every accepted connection can be set to non-blocking mode, if it is not in it. -/
def Label.SetsNonblock : Label → Prop
  | .loop (.accept (.accepted _ answers)) => answers.nonblock = true ∨ 0 ≤ answers.setfl
  | _ => True

instance : (label : Label) → Decidable label.SetsNonblock
  | .loop (.accept (.accepted _ answers)) =>
    inferInstanceAs (Decidable (answers.nonblock = true ∨ 0 ≤ answers.setfl))
  | .loop (.accept .failed) | .loop (.addListen _ _ _ _) | .loop .run | .loop (.associate _)
  | .loop (.wait _) | .loop (.start _) | .loop .advance | .tick _ | .stop | .handler _ =>
    inferInstanceAs (Decidable True)

namespace Ledger

/-- A connection is still to be started, or has been started and has not come to its end. -/
def Has (s : Ledger) (g : Nat) : Holder → Prop
  | .queue li qf => qf ∈ s.world.pending li ∧ s.nodeConn qf = g
  | .routine er => s.world.machine.pool.Busy er ∧ s.coConn er = g

/-- The descriptor that a holder will use. -/
def number (s : Ledger) : Holder → Fd
  | .queue _ qf => s.world.queueFds qf
  | .routine er => (s.world.machine.routines er).connFd

end Ledger

/-- What is always true of the connections, as long as none has been left to nobody. -/
structure LedgerInv (s : Ledger) : Prop where
  loop : WorldInv s.world
  queues : QueueInv s.world
  opened : ∀ fd g, s.conn fd = some g → s.world.machine.kernel.owner fd ≠ none ∧ g < s.accepted
  once : ∀ fd other g, s.conn fd = some g → s.conn other = some g → fd = other
  earlier : ∀ g holder, s.Has g holder → g < s.accepted
  numbers : ∀ g holder, s.Has g holder → ∀ fd, s.conn fd = some g → fd = s.number holder
  unique : ∀ g holder other, s.Has g holder → s.Has g other → holder = other
  held : ∀ fd g, s.conn fd = some g → ∃ holder, s.Has g holder

variable {s : Ledger}

/-- A node that is still to be started is on the list of its listener. -/
theorem World.queued_of_pending {w : World} {li qf : Ptr} (waits : qf ∈ w.pending li) :
    w.Queued qf := by
  unfold World.pending at waits
  split at waits
  · rename_i listed
    refine ⟨li, listed, ?_⟩
    split at waits
    · split at waits
      · exact List.mem_of_mem_tail waits
      · exact waits
    · exact waits
  · cases waits

/-- A connection that is open behind a step was so before, unless it has just been accepted. -/
theorem Ledger.conn_note {label : Label} {after : World} {fd : Fd} {g : Nat} :
    (s.note label after).conn fd = some g ↔ after.machine.kernel.owner fd ≠ none ∧
      ((label.accepted = some fd ∧ g = s.accepted) ∨
        (label.accepted ≠ some fd ∧ s.conn fd = some g)) := by
  show (if _ then _ else if _ then _ else _) = some g ↔ _
  by_cases shut : after.machine.kernel.owner fd = none
  · simp [shut]
  · by_cases accepts : label.accepted = some fd
    · simp [shut, accepts, eq_comm]
    · simp [shut, accepts]

/-- A queued connection is one more that is still to be started. -/
theorem World.pending_enqueued (w : World) {li : Ptr} {batch : List Event}
    (at_ : w.pc = .accept li batch) (listed : li ∈ w.listenList) (fd : Fd) (qf : Ptr)
    (free nodes : List Ptr) (other node : Ptr) :
    node ∈ ({ w.opened fd with freeFdList := free, nodes := nodes }.enqueue li qf fd).pending other
      ↔ node ∈ w.pending other ∨ (other = li ∧ node = qf) := by
  -- In an accept loop everything on a queue is still to be started.
  have idle : ∀ ent qf' enf, w.pc ≠ .queueRun ent qf' enf := by simp [at_]
  have later : ∀ ent qf' enf,
      ({ w.opened fd with freeFdList := free, nodes := nodes }.enqueue li qf fd).pc ≠
        .queueRun ent qf' enf := idle
  have lists : (({ w.opened fd with freeFdList := free, nodes := nodes }.enqueue li qf fd).listens
      other).fdList =
        if other = li then (w.listens li).fdList ++ [qf] else (w.listens other).fdList := by
    by_cases same : other = li <;>
      simp [World.enqueue, World.modifyListen, World.opened, World.withKernel, same]
  rw [QueueInv.pending_idle idle, QueueInv.pending_idle later, lists]
  show node ∈ (if other ∈ w.listenList then _ else _) ↔ _
  by_cases same : other = li
  · subst same
    simp [listed]
  · by_cases member : other ∈ w.listenList <;> simp [same, member]

/-- All other nodes are still to be started when one of them has been. -/
theorem QueueInv.started_still {w : World} (queues : QueueInv w) {li qf : Ptr}
    (at_ : w.pc = .queueFd li (some qf)) (pool : Pool) (er : Ptr) {other node : Ptr}
    (waits : node ∈ w.pending other) (apart : node ≠ qf) :
    node ∈ (w.started li qf pool er).pending other := by
  -- Only the first node of one queue is taken off.
  have position := queues.position
  simp only [World.Position, at_] at position
  obtain ⟨rest, shape⟩ : ∃ rest, (w.listens li).fdList = qf :: rest :=
    List.head?_eq_some_iff.mp position.2.symm
  rw [pending_idle (by simp [at_])] at waits
  split at waits
  · rename_i listed
    show node ∈ if other ∈ w.listenList then (if li = other then _ else _) else _
    rw [if_pos listed]
    split
    · rename_i same
      rw [← same, shape] at waits
      rw [← same]
      show node ∈ (w.listens li).fdList.tail
      rw [shape]
      exact (List.mem_cons.mp waits).resolve_left apart
    · exact waits
  · cases waits

/-- Another world has the same connections in its queues, and the same ones in its coroutines. -/
structure World.Alike (w after : World) : Prop where
  pending : ∀ li, after.pending li = w.pending li
  queued : ∀ qf, after.Queued qf → w.Queued qf
  queueFds : after.queueFds = w.queueFds
  routines : after.machine.routines = w.machine.routines

namespace World.Alike

variable {w middle after : World}

/-- What two worlds have in common with a third one they have in common. -/
theorem trans (first : w.Alike middle) (second : middle.Alike after) : w.Alike after :=
  ⟨fun li => (second.pending li).trans (first.pending li),
    fun qf queued => first.queued qf (second.queued qf queued),
    second.queueFds.trans first.queueFds, second.routines.trans first.routines⟩

/-- Lists that stay the same, at places where nothing is being started, hold the same. -/
theorem of_lists (before : ∀ ent qf enf, w.pc ≠ .queueRun ent qf enf)
    (later : ∀ ent qf enf, after.pc ≠ .queueRun ent qf enf)
    (lists : ∀ li, (after.listens li).fdList = (w.listens li).fdList)
    (stays : ∀ li, li ∈ after.listenList → li ∈ w.listenList)
    (leaves : ∀ li, li ∈ w.listenList → li ∉ after.listenList → (w.listens li).fdList = [])
    (queueFds : after.queueFds = w.queueFds)
    (routines : after.machine.routines = w.machine.routines) : w.Alike after := by
  -- A listener that has left had nothing in its queue.
  refine ⟨fun li => ?_, ?_, queueFds, routines⟩
  · rw [QueueInv.pending_idle later, QueueInv.pending_idle before, lists]
    by_cases listed : li ∈ after.listenList
    · rw [if_pos listed, if_pos (stays li listed)]
    · rw [if_neg listed]
      split
      · rename_i left
        exact (leaves li left listed).symm
      · rfl
  · rintro qf ⟨li, listed, member⟩
    rw [lists] at member
    exact ⟨li, stays li listed, member⟩

/-- One turn of the loop that closes the listening sockets loses no connection. -/
theorem stopListen (w : World) (at_ : w.pc = .exitQueue) (li : Ptr) :
    w.Alike (w.stopListen li) := by
  -- The listener stays on the list unless its queue is empty.
  obtain ⟨_, pc⟩ := w.stopListen_frame li
  have shrinks := w.stopListen_listenList li
  have records : (w.stopListen li).queueFds = w.queueFds ∧
      (w.stopListen li).machine.routines = w.machine.routines := by
    unfold World.stopListen World.freeListen World.closeListen
    simp only
    split <;> split <;> exact ⟨rfl, rfl⟩
  refine of_lists (by simp [at_]) (by simp [pc, at_]) (w.stopListen_fdList li) ?_ ?_ records.1
    records.2
  · intro other member
    rw [shrinks] at member
    split at member
    · exact List.mem_of_mem_erase member
    · exact member
  · intro other member left
    rw [shrinks] at left
    split at left
    · rename_i empty
      have same : other = li := by
        by_contra apart
        exact left ((List.mem_erase_of_ne apart).mpr member)
      exact same ▸ empty
    · exact absurd member left

/-- The loop that closes the listening sockets loses no connection. -/
theorem stopListens (inv : WorldInv w) (idle : efCoroutineCurrent w.machine.pool = none)
    (at_ : w.pc = .exitQueue) : w.Alike w.stopListens := by
  -- What is the same after each turn is the same at the end.
  have turn : ∀ {v : World} {li : Ptr}, WorldInv v → efCoroutineCurrent v.machine.pool = none →
      v.pc = .exitQueue → li ∈ v.listenList → w.Alike v → w.Alike (v.stopListen li) :=
    fun _ _ at_ _ alike => alike.trans (.stopListen _ at_ _)
  exact (WorldInv.foldl_stopListen turn inv idle at_ inv.nodup (fun _ member => member)
    ⟨fun _ => rfl, fun _ queued => queued, rfl, rfl⟩).2.2.2

end World.Alike

/-- Only the accept loop of a listener accepts connections, and it ends when one is not queued. -/
theorem World.accepting {w after : World} {fd : Fd} {answers : QueueAnswers}
    (stepped : w.loopStep (.accept (.accepted fd answers)) = some after) :
    ∃ li batch, w.pc = .accept li batch ∧ (∀ node ∈ answers.node, node ∉ w.nodes) ∧
      after = if (efQueueFd (w.opened fd) li fd answers).2 < 0 then
        { (efQueueFd (w.opened fd) li fd answers).1 with pc := .dispatch batch }
        else (efQueueFd (w.opened fd) li fd answers).1 := by
  -- At all other places the operation is none.
  cases at_ : w.pc with
  | accept li batch =>
    simp only [World.loopStep, at_] at stepped
    obtain ⟨⟨_, fresh⟩, stepped⟩ := Option.ite_none_right_eq_some.mp stepped
    exact ⟨li, batch, rfl, fresh, (Option.some.inj stepped).symm⟩
  | setUp | wait | dispatch | queue | queueRun | exitQueue | shrink | halted =>
    simp [World.loopStep, at_] at stepped
  | associate ent => cases ent <;> simp [World.loopStep, at_] at stepped
  | queueFd li enf => cases enf <;> simp [World.loopStep, at_] at stepped

/-- `ef_queue_fd` finds a node for a connection that can be made non-blocking, or closes it. -/
theorem QueueInv.queueFd_cases {w : World} (queues : QueueInv w) {answers : QueueAnswers}
    (sets : answers.nonblock = true ∨ 0 ≤ answers.setfl)
    (fresh : ∀ node ∈ answers.node, node ∉ w.nodes) (li : Ptr) (fd : Fd) :
    (0 ≤ (efQueueFd (w.opened fd) li fd answers).2 ∧ ∃ qf free nodes,
      (∀ other ∈ w.listenList, qf ∉ (w.listens other).fdList) ∧
        (efQueueFd (w.opened fd) li fd answers).1 =
          { w.opened fd with freeFdList := free, nodes := nodes }.enqueue li qf fd) ∨
      ((efQueueFd (w.opened fd) li fd answers).2 < 0 ∧
        (efQueueFd (w.opened fd) li fd answers).1 =
          w.withKernel ((w.machine.kernel.give fd .other).close fd).1) := by
  -- The cases are the ways out of the function, of which the first one is not taken.
  have open_ : ¬ ((!answers.nonblock) = true ∧ answers.setfl < 0) := by
    rintro ⟨blocking, failed⟩
    rcases sets with nonblock | set
    · simp [nonblock] at blocking
    · omega
  unfold efQueueFd
  rw [if_neg open_]
  split
  · rename_i qf rest shape
    exact .inl ⟨Int.le_refl 0, qf, rest, w.nodes, unqueued (queues.reused shape) queues.nodup, rfl⟩
  · rename_i empty
    split
    · rename_i qf found
      have nodup := List.nodup_cons.mpr ⟨fresh qf found, queues.nodup⟩
      exact .inl ⟨Int.le_refl 0, qf, w.freeFdList, qf :: w.nodes,
        unqueued (queues.allocated empty qf) nodup, rfl⟩
    · exact .inr ⟨Int.negSucc_lt_zero 0, rfl⟩

/-- Only a step that accepts a connection counts one more. -/
theorem Ledger.accepted_le (s : Ledger) (label : Label) (after : World) :
    s.accepted ≤ (s.note label after).accepted := by
  -- The count goes up by one, or stays.
  show s.accepted ≤ if _ then _ else _
  split
  · exact Nat.le_refl _
  · exact Nat.le_succ _

namespace LedgerInv

/-- A step that leaves no new connection open keeps the connections in order if none is lost. -/
theorem carries (inv : LedgerInv s) {label : Label} {after : World} (loop : WorldInv after)
    (queues : QueueInv after)
    (closed : ∀ fd, label.accepted = some fd → after.machine.kernel.owner fd = none)
    (before : Ledger.Holder → Ledger.Holder)
    (older : ∀ g holder, (s.note label after).Has g holder →
      s.Has g (before holder) ∧ (s.note label after).number holder = s.number (before holder))
    (apart : ∀ g holder other, (s.note label after).Has g holder →
      (s.note label after).Has g other → before holder = before other → holder = other)
    (kept : ∀ fd g holder, s.conn fd = some g → s.Has g holder →
      after.machine.kernel.owner fd ≠ none → ∃ later, (s.note label after).Has g later) :
    LedgerInv (s.note label after) := by
  -- Whoever holds a connection now has got it from a holder before the step.
  have conns : ∀ {fd g}, (s.note label after).conn fd = some g →
      after.machine.kernel.owner fd ≠ none ∧ s.conn fd = some g := by
    intro fd g found
    obtain ⟨opened, new | old⟩ := Ledger.conn_note.mp found
    · exact absurd (closed fd new.1) opened
    · exact ⟨opened, old.2⟩
  have later := s.accepted_le label after
  refine ⟨loop, queues, ?_, ?_, ?_, ?_, ?_, ?_⟩
  · intro fd g found
    obtain ⟨opened, old⟩ := conns found
    exact ⟨opened, Nat.lt_of_lt_of_le (inv.opened fd g old).2 later⟩
  · exact fun fd other g one two => inv.once fd other g (conns one).2 (conns two).2
  · exact fun g holder has => Nat.lt_of_lt_of_le (inv.earlier g _ (older g holder has).1) later
  · intro g holder has fd found
    obtain ⟨had, number⟩ := older g holder has
    rw [number]
    exact inv.numbers g _ had fd (conns found).2
  · intro g holder other one two
    exact apart g holder other one two
      (inv.unique g _ _ (older g holder one).1 (older g other two).1)
  · intro fd g found
    obtain ⟨opened, old⟩ := conns found
    obtain ⟨holder, had⟩ := inv.held fd g old
    exact kept fd g holder old had opened

/-- A step keeps the connections in order if it gives none to a new holder. -/
theorem quiet (inv : LedgerInv s) {label : Label} {after : World} (loop : WorldInv after)
    (queues : QueueInv after) (pending : ∀ li, after.pending li = s.world.pending li)
    (queued : ∀ qf, after.Queued qf → s.world.Queued qf)
    (queueFds : after.queueFds = s.world.queueFds)
    (busy : ∀ er, after.machine.pool.Busy er → s.world.machine.pool.Busy er ∧
      (after.machine.routines er).connFd = (s.world.machine.routines er).connFd)
    (gone : ∀ er, s.world.machine.pool.Busy er → ¬ after.machine.pool.Busy er →
      after.machine.kernel.owner (s.world.machine.routines er).connFd = none)
    (closed : ∀ fd, label.accepted = some fd → after.machine.kernel.owner fd = none) :
    LedgerInv (s.note label after) := by
  -- No record of a node or of a coroutine is written.
  have nodes : ∀ qf, (s.note label after).nodeConn qf = s.nodeConn qf :=
    fun qf => if_neg fun now => now.2 (queued qf now.1)
  have coroutines : ∀ er, (s.note label after).coConn er = s.coConn er :=
    fun er => if_neg fun now => now.2 (busy er now.1).1
  refine inv.carries loop queues closed id ?_ (fun _ _ _ _ _ same => same) ?_
  · intro g holder has
    cases holder with
    | queue li qf =>
      obtain ⟨waits, same⟩ := has
      exact ⟨⟨pending li ▸ waits, nodes qf ▸ same⟩, congrFun queueFds qf⟩
    | routine er =>
      obtain ⟨inUse, same⟩ := has
      exact ⟨⟨(busy er inUse).1, coroutines er ▸ same⟩, (busy er inUse).2⟩
  · intro fd g holder found has opened
    refine ⟨holder, ?_⟩
    cases holder with
    | queue li qf => exact ⟨(pending li).symm ▸ has.1, (nodes qf).trans has.2⟩
    | routine er =>
      -- A coroutine that has exited leaves its connection closed.
      have stays : after.machine.pool.Busy er := by
        by_contra ends
        have same : fd = (s.world.machine.routines er).connFd := inv.numbers g _ has fd found
        apply opened
        rw [same]
        exact gone er has.1 ends
      exact ⟨stays, (coroutines er).trans has.2⟩

/-- A step that opens a connection keeps all of them in order if it finds the new one a holder. -/
theorem grows (inv : LedgerInv s) {label : Label} {after : World} (loop : WorldInv after)
    (queues : QueueInv after) {fd : Fd} (accepted : label.accepted = some fd)
    (new : Ledger.Holder)
    (holders : ∀ g holder, (s.note label after).Has g holder ↔
      (g = s.accepted ∧ holder = new) ∨ s.Has g holder)
    (number : (s.note label after).number new = fd)
    (numbers : ∀ g holder, s.Has g holder →
      (s.note label after).number holder = s.number holder) :
    LedgerInv (s.note label after) := by
  -- The new connection has a number that is greater than those of all the others.
  have count : (s.note label after).accepted = s.accepted + 1 := if_neg (by rw [accepted]; simp)
  have conns : ∀ {other g}, (s.note label after).conn other = some g →
      (other = fd ∧ g = s.accepted) ∨ s.conn other = some g := by
    intro other g found
    obtain ⟨_, ⟨same, first⟩ | ⟨_, old⟩⟩ := Ledger.conn_note.mp found
    · exact .inl ⟨(Option.some.inj (accepted.symm.trans same)).symm, first⟩
    · exact .inr old
  have conn_ne : ∀ {other}, s.conn other ≠ some s.accepted :=
    fun found => absurd (inv.opened _ _ found).2 (Nat.lt_irrefl _)
  have has_ne : ∀ {holder}, ¬ s.Has s.accepted holder :=
    fun has => absurd (inv.earlier _ _ has) (Nat.lt_irrefl _)
  refine ⟨loop, queues, ?_, ?_, ?_, ?_, ?_, ?_⟩
  · intro other g found
    refine ⟨(Ledger.conn_note.mp found).1, ?_⟩
    rw [count]
    rcases conns found with ⟨_, rfl⟩ | old
    · exact Nat.lt_succ_self _
    · exact Nat.lt_succ_of_lt (inv.opened other g old).2
  · intro one two g foundOne foundTwo
    rcases conns foundOne with ⟨rfl, rfl⟩ | old
    · rcases conns foundTwo with ⟨rfl, _⟩ | older
      · rfl
      · exact absurd older conn_ne
    · rcases conns foundTwo with ⟨rfl, rfl⟩ | older
      · exact absurd old conn_ne
      · exact inv.once one two g old older
  · intro g holder has
    rw [count]
    rcases (holders g holder).mp has with ⟨rfl, _⟩ | old
    · exact Nat.lt_succ_self _
    · exact Nat.lt_succ_of_lt (inv.earlier g holder old)
  · intro g holder has other found
    rcases (holders g holder).mp has with ⟨rfl, rfl⟩ | old
    · rcases conns found with ⟨rfl, _⟩ | older
      · exact number.symm
      · exact absurd older conn_ne
    · rcases conns found with ⟨rfl, rfl⟩ | older
      · exact absurd old has_ne
      · rw [numbers g holder old]
        exact inv.numbers g holder old other older
  · intro g one two hasOne hasTwo
    rcases (holders g one).mp hasOne with ⟨rfl, rfl⟩ | old
    · rcases (holders _ two).mp hasTwo with ⟨_, rfl⟩ | older
      · rfl
      · exact absurd older has_ne
    · rcases (holders g two).mp hasTwo with ⟨rfl, rfl⟩ | older
      · exact absurd old has_ne
      · exact inv.unique g one two old older
  · intro other g found
    rcases conns found with ⟨_, rfl⟩ | old
    · exact ⟨new, (holders _ new).mpr (.inl ⟨rfl, rfl⟩)⟩
    · obtain ⟨holder, has⟩ := inv.held other g old
      exact ⟨holder, (holders g holder).mpr (.inr has)⟩

/-- A new connection goes to the queue, on a node that was in no queue. -/
theorem enqueued (inv : LedgerInv s) {li : Ptr} {batch : List Event}
    (at_ : s.world.pc = .accept li batch) {fd : Fd} {qf : Ptr} {free nodes : List Ptr}
    (unqueued : ∀ other ∈ s.world.listenList, qf ∉ (s.world.listens other).fdList)
    {label : Label} (accepted : label.accepted = some fd) {after : World}
    (shape : after = { s.world.opened fd with freeFdList := free, nodes := nodes }.enqueue li qf fd)
    (loop : WorldInv after) (queues : QueueInv after) : LedgerInv (s.note label after) := by
  -- Whoever has a connection now had it before, or it is the new one on the new node.
  have pending := s.world.pending_enqueued at_ (inv.loop.listener li (by rw [at_]; rfl)) fd qf
    free nodes
  rw [← shape] at pending
  have queueFds : after.queueFds = Function.update s.world.queueFds qf fd := by rw [shape]; rfl
  have pool : after.machine.pool = s.world.machine.pool := by rw [shape]; rfl
  have routines : after.machine.routines = s.world.machine.routines := by rw [shape]; rfl
  have new : ¬ s.world.Queued qf := fun ⟨other, listed, member⟩ => unqueued other listed member
  have fresh : (s.note label after).nodeConn qf = s.accepted :=
    if_pos ⟨World.queued_of_pending ((pending li qf).mpr (.inr ⟨rfl, rfl⟩)), new⟩
  -- The records of the other nodes and of the coroutines stay.
  have others : ∀ {other node}, node ∈ s.world.pending other →
      node ≠ qf ∧ (s.note label after).nodeConn node = s.nodeConn node := by
    intro other node member
    have old := World.queued_of_pending member
    exact ⟨fun same => new (same ▸ old), if_neg fun now => now.2 old⟩
  have coroutines : ∀ er, (s.note label after).coConn er = s.coConn er :=
    fun er => if_neg fun now => now.2 (pool ▸ now.1)
  refine inv.grows loop queues accepted (.queue li qf) ?_ ?_ ?_
  · intro g holder
    cases holder with
    | queue other node =>
      constructor
      · rintro ⟨member, same⟩
        rcases (pending other node).mp member with old | ⟨rfl, rfl⟩
        · exact .inr ⟨old, (others old).2 ▸ same⟩
        · exact .inl ⟨same.symm.trans fresh, rfl⟩
      · rintro (⟨rfl, same⟩ | ⟨old, same⟩)
        · obtain ⟨rfl, rfl⟩ := Ledger.Holder.queue.inj same
          exact ⟨(pending other node).mpr (.inr ⟨rfl, rfl⟩), fresh⟩
        · exact ⟨(pending other node).mpr (.inl old), (others old).2.trans same⟩
    | routine er =>
      constructor
      · rintro ⟨inUse, same⟩
        exact .inr ⟨pool ▸ inUse, coroutines er ▸ same⟩
      · rintro (⟨_, same⟩ | ⟨inUse, same⟩)
        · cases same
        · exact ⟨pool.symm ▸ inUse, (coroutines er).trans same⟩
  · show after.queueFds qf = fd
    rw [queueFds, Function.update_self]
  · intro g holder has
    cases holder with
    | queue other node =>
      show after.queueFds node = s.world.queueFds node
      rw [queueFds, Function.update_of_ne (others has.1).1]
    | routine er =>
      show (after.machine.routines er).connFd = (s.world.machine.routines er).connFd
      rw [routines]

/-- The connection of a node goes to the coroutine that is started for it. -/
theorem starts (inv : LedgerInv s) {li qf : Ptr} (at_ : s.world.pc = .queueFd li (some qf))
    {mapped : Option Ptr} (fresh : s.world.machine.pool.Fresh mapped) {pool : Pool} {er : Ptr}
    (effect : Created s.world.machine.pool efProcAddress 0 mapped (pool, some er))
    {label : Label} (accepts : label.accepted = none)
    (loop : WorldInv (s.world.started li qf pool er))
    (queues : QueueInv (s.world.started li qf pool er)) :
    LedgerInv (s.note label (s.world.started li qf pool er)) := by
  -- The node is off the list of those to be started, and its coroutine is in use from now on.
  obtain ⟨free, busy, _⟩ := inv.loop.machine.pool.created_busy fresh effect
  obtain ⟨mine, pending⟩ := inv.queues.started_pending at_ pool er
  let after := s.world.started li qf pool er
  have inUse : ∀ other, after.machine.pool.Busy other ↔
      s.world.machine.pool.Busy other ∨ other = er := busy
  have nodes : ∀ node, (s.note label after).nodeConn node = s.nodeConn node :=
    fun node => if_neg fun now => now.2 now.1
  have own : (s.note label after).coConn er = s.nodeConn qf := by
    show (if _ then (match s.world.pc with | .queueFd _ (some qf) => _ | _ => _) else _) = _
    rw [if_pos ⟨(inUse er).mpr (.inr rfl), free⟩, at_]
  have coroutines : ∀ other, other ≠ er → (s.note label after).coConn other = s.coConn other :=
    fun other apart => if_neg fun now => now.2 (((inUse other).mp now.1).resolve_right apart)
  have connFd : ∀ other, (after.machine.routines other).connFd =
      if other = er then s.world.queueFds qf else (s.world.machine.routines other).connFd := by
    intro other
    by_cases same : other = er <;>
      simp [after, World.started, Machine.started, Machine.wake, Machine.modify_routines,
        Routine.goOn, same]
  -- The new coroutine stands for the node, and everybody else for himself.
  refine inv.carries loop queues (fun fd some_ => by simp [accepts] at some_)
    (fun holder => if holder = .routine er then .queue li qf else holder) ?_ ?_ ?_
  · intro g holder has
    cases holder with
    | queue other node =>
      rw [if_neg (by simp)]
      exact ⟨⟨(pending other node has.1).1, nodes node ▸ has.2⟩, rfl⟩
    | routine other =>
      by_cases same : other = er
      · subst same
        rw [if_pos rfl]
        exact ⟨⟨mine, own ▸ has.2⟩, (connFd other).trans (if_pos rfl)⟩
      · rw [if_neg fun equal => same (Ledger.Holder.routine.inj equal)]
        exact ⟨⟨((inUse other).mp has.1).resolve_right same, coroutines other same ▸ has.2⟩,
          (connFd other).trans (if_neg same)⟩
  · intro g one two hasOne hasTwo same
    -- The node itself has no connection any more.
    have left : ∀ {g}, ¬ (s.note label after).Has g (.queue li qf) :=
      fun has => (pending li qf has.1).2 rfl
    split at same
    · rename_i first
      split at same
      · rename_i second
        exact first.trans second.symm
      · exact absurd (same ▸ hasTwo) left
    · split at same
      · exact absurd (same ▸ hasOne) left
      · exact same
  · intro fd g holder _ has _
    cases holder with
    | queue other node =>
      by_cases same : node = qf
      · subst same
        exact ⟨.routine er, (inUse er).mpr (.inr rfl), own.trans has.2⟩
      · exact ⟨.queue other node, inv.queues.started_still at_ pool er has.1 same,
          (nodes node).trans has.2⟩
    | routine other =>
      have apart : other ≠ er := fun same => free (same ▸ has.1)
      exact ⟨.routine other, (inUse other).mpr (.inl has.1),
        (coroutines other apart).trans has.2⟩

/-- A step beside the coroutines gives no connection away as long as it keeps the queues. -/
theorem beside (inv : LedgerInv s) {label : Label} {after : World} (loop : WorldInv after)
    (queues : QueueInv after) (alike : s.world.Alike after)
    (busy : ∀ er, after.machine.pool.Busy er ↔ s.world.machine.pool.Busy er)
    (closed : ∀ fd, label.accepted = some fd → after.machine.kernel.owner fd = none) :
    LedgerInv (s.note label after) := by
  -- The same coroutines are in use, with the same connections.
  refine inv.quiet loop queues alike.pending alike.queued alike.queueFds ?_ ?_ closed
  · exact fun er inUse => ⟨(busy er).mp inUse, by rw [alike.routines]⟩
  · exact fun er inUse ends => absurd ((busy er).mpr inUse) ends

/-- Listening on another socket adds a queue without connections. -/
theorem listened (inv : LedgerInv s) {socket : Fd} {proc li : Ptr} (at_ : s.world.pc = .setUp)
    (unlisted : li ∉ s.world.listenList) {label : Label} (accepts : label.accepted = none)
    (loop : WorldInv (s.world.listened socket proc li))
    (queues : QueueInv (s.world.listened socket proc li)) :
    LedgerInv (s.note label (s.world.listened socket proc li)) := by
  -- Only the queue of the new listener is written.
  have lists : ∀ other, other ≠ li → ((s.world.listened socket proc li).listens other).fdList =
      (s.world.listens other).fdList := by
    intro other apart
    simp [World.listened, apart]
  have own : ((s.world.listened socket proc li).listens li).fdList = [] := by
    simp [World.listened]
  refine inv.beside loop queues ⟨?_, ?_, rfl, rfl⟩ (fun _ => Iff.rfl) (by simp [accepts])
  · intro other
    rw [QueueInv.pending_idle (by simp [World.listened, at_]),
      QueueInv.pending_idle (by simp [at_])]
    show (if other ∈ li :: s.world.listenList then _ else _) = _
    by_cases same : other = li
    · subst same
      rw [own, if_neg unlisted, ite_self]
    · rw [lists other same]
      simp [same]
  · rintro qf ⟨other, member, waits⟩
    by_cases same : other = li
    · subst same
      rw [own] at waits
      cases waits
    · rw [lists other same] at waits
      exact ⟨other, (List.mem_cons.mp member).resolve_left same, waits⟩

/-- A node that is moved to the free nodes has no connection any more. -/
theorem recycled (inv : LedgerInv s) {li qf : Ptr} {enf : Option Ptr}
    (at_ : s.world.pc = .queueRun li qf enf) {label : Label} (accepts : label.accepted = none)
    (loop : WorldInv (s.world.recycled li qf enf))
    (queues : QueueInv (s.world.recycled li qf enf)) :
    LedgerInv (s.note label (s.world.recycled li qf enf)) := by
  -- The node stands first, and its connection went to the coroutine when that was started.
  have position := inv.queues.position
  simp only [World.Position, at_] at position
  obtain ⟨_, rest, shape, _⟩ := position
  have lists : ∀ other, ((s.world.recycled li qf enf).listens other).fdList =
      if other = li then (s.world.listens li).fdList.erase qf
      else (s.world.listens other).fdList := by
    intro other
    by_cases same : other = li <;> simp [World.recycled, World.modifyListen, same]
  refine inv.beside loop queues ⟨?_, ?_, rfl, rfl⟩ (fun _ => Iff.rfl) (by simp [accepts])
  · intro other
    rw [QueueInv.pending_idle (by simp [World.recycled]), lists]
    show (if other ∈ s.world.listenList then _ else _) = _
    simp only [World.pending, at_]
    by_cases same : other = li
    · simp [same, shape]
    · simp [same, Ne.symm same]
  · rintro node ⟨other, member, waits⟩
    rw [lists] at waits
    split at waits
    · rename_i same
      exact ⟨other, member, same ▸ List.mem_of_mem_erase waits⟩
    · exact ⟨other, member, waits⟩

/-- A coroutine that is woken goes on with the connection that it has. -/
theorem wakes (inv : LedgerInv s) (idle : efCoroutineCurrent s.world.machine.pool = none) {er : Ptr}
    {event : Event} {batch : List Event} (at_ : s.world.pc = .dispatch (event :: batch))
    (points : event.ptr = .routine er) {label : Label} (accepts : label.accepted = none)
    {after : World}
    (shape : after =
      { s.world with machine := s.world.machine.wake er event.events, pc := .dispatch batch })
    (loop : WorldInv after) (queues : QueueInv after) : LedgerInv (s.note label after) := by
  -- The coroutine waits in a call, and is not at its first line.
  have ok := inv.loop.batch
  rw [at_] at ok
  obtain ⟨busy, _⟩ := ok.waits event List.mem_cons_self er points
  obtain ⟨call, retval, ticket, _, waits, _⟩ :=
    (inv.loop.machine.routines er busy).suspended (by rw [idle]; simp)
  subst shape
  refine inv.quiet loop queues ?_ (fun _ queued => queued) rfl ?_ ?_ (by simp [accepts])
  · intro li
    rw [QueueInv.pending_idle (by simp), QueueInv.pending_idle (by simp [at_])]
  · intro other inUse
    refine ⟨inUse, ?_⟩
    by_cases same : other = er
    · simp [Machine.wake, Machine.modify_routines, same, Routine.goOn, waits]
    · simp [Machine.wake, Machine.modify_routines, same]
  · exact fun other inUse ends => absurd inUse ends

/-- Stopping keeps the listeners whose queue is not empty, and with them their connections. -/
theorem stops (inv : LedgerInv s) (idle : efCoroutineCurrent s.world.machine.pool = none)
    (at_ : s.world.pc = .exitQueue) (stopping : s.world.stopping = true) {label : Label}
    (accepts : label.accepted = none) (loop : WorldInv s.world.exitQueue)
    (queues : QueueInv s.world.exitQueue) : LedgerInv (s.note label s.world.exitQueue) := by
  -- Behind the loop over the listeners only unused nodes and coroutines are freed.
  obtain ⟨stopped, pool, pc⟩ := inv.loop.stopListens idle at_
  have alike := World.Alike.stopListens inv.loop idle at_
  have ends : ∀ er, s.world.exitQueue.machine.pool.Busy er ↔ s.world.machine.pool.Busy er := by
    intro er
    rw [← pool]
    unfold World.exitQueue
    rw [if_pos stopping]
    simp only
    split <;> exact (stopped.machine.shrunk _ _ _).2.1 er
  refine inv.beside loop queues (alike.trans ?_) ends (by simp [accepts])
  unfold World.exitQueue
  rw [if_pos stopping]
  simp only
  split <;> exact .of_lists (by simp [pc]) (by simp) (fun _ => rfl) (fun _ listed => listed)
    (fun _ listed left => absurd listed left) rfl rfl

/-- The shrink that ends an iteration frees unused coroutines only. -/
theorem shrinks (inv : LedgerInv s) (at_ : s.world.pc = .shrink) {label : Label}
    (accepts : label.accepted = none) (loop : WorldInv s.world.shrink)
    (queues : QueueInv s.world.shrink) : LedgerInv (s.note label s.world.shrink) := by
  -- Whoever is in use stays.
  have before : ∀ ent qf enf, s.world.pc ≠ .queueRun ent qf enf := by simp [at_]
  have later : ∀ ent qf enf, s.world.shrink.pc ≠ .queueRun ent qf enf := by
    unfold World.shrink
    simp only
    split <;> simp [World.withPool]
  have kept : s.world.shrink.listens = s.world.listens ∧
      s.world.shrink.listenList = s.world.listenList ∧
      s.world.shrink.queueFds = s.world.queueFds ∧
      s.world.shrink.machine.routines = s.world.machine.routines ∧
      ∀ er, s.world.shrink.machine.pool.Busy er ↔ s.world.machine.pool.Busy er := by
    unfold World.shrink
    simp only
    split
    · exact ⟨rfl, rfl, rfl, rfl, (inv.loop.machine.shrunk _ _ _).2.1⟩
    · exact ⟨rfl, rfl, rfl, rfl, fun _ => Iff.rfl⟩
  obtain ⟨listens, listenList, queueFds, routines, busy⟩ := kept
  refine inv.beside loop queues ?_ busy (by simp [accepts])
  exact .of_lists before later (fun _ => by rw [listens]) (fun _ listed => listenList ▸ listed)
    (fun _ listed left => absurd (listenList.symm ▸ listed) left) queueFds routines

/-- A handler keeps its connection until it returns, and then closes it. -/
theorem handlerMove (inv : LedgerInv s) {op : HandlerOp} {er : Ptr} {pool : Pool} {kernel : Kernel}
    {record : Routine} (current : efCoroutineCurrent s.world.machine.pool = some er)
    (move : HandlerMove s.world.machine er op pool kernel record) {after : World}
    {trace : List LoopEvent}
    (shape : after =
      { s.world with machine := s.world.machine.moved er pool kernel record, trace := trace })
    (loop : WorldInv after) (queues : QueueInv after) :
    LedgerInv (s.note (.handler op) after) := by
  -- The others are not touched.
  obtain ⟨_, older, others, _⟩ := move.pool_kept inv.loop.machine current
  have routines : ∀ other, (after.machine.routines other).connFd =
      (s.world.machine.routines other).connFd := by
    intro other
    rw [shape]
    by_cases same : other = er
    · simp only [Machine.moved, Machine.modify_routines, same, if_true]
      cases move <;> rfl
    · simp [Machine.moved, Machine.modify_routines, same]
  have lists : after.listens = s.world.listens := by rw [shape]
  have listenList : after.listenList = s.world.listenList := by rw [shape]
  have moved : after.machine.pool = pool ∧ after.machine.kernel = kernel := by
    rw [shape]
    exact ⟨rfl, rfl⟩
  refine inv.quiet loop queues ?_ ?_ (by rw [shape]) ?_ ?_ (by simp [Label.accepted])
  · exact QueueInv.pending_congr (by rw [shape]) listenList (fun _ => by rw [lists])
  · rintro qf ⟨li, listed, member⟩
    rw [listenList] at listed
    rw [lists] at member
    exact ⟨li, listed, member⟩
  · intro other inUse
    rw [moved.1] at inUse
    exact ⟨older other inUse, routines other⟩
  · intro other inUse ends
    rw [moved.1] at ends
    rw [moved.2]
    -- Only the running coroutine can have exited, and it did so by returning.
    have same : other = er := by
      by_contra apart
      exact ends (others other inUse apart).1
    subst same
    cases move with
    | registers | returns | retries | completes | closes | opens => exact absurd inUse ends
    | finishes retval handler =>
      rw [Kernel.orphan_owner_eq_none, efRoutineClose_owner, if_pos rfl]

/-- A connection that can be made non-blocking is queued, or closed for want of memory. -/
theorem accepts (inv : LedgerInv s) {fd : Fd} {answers : QueueAnswers}
    (sets : answers.nonblock = true ∨ 0 ≤ answers.setfl) {after : World}
    (stepped : s.world.loopStep (.accept (.accepted fd answers)) = some after)
    (loop : WorldInv after) (queues : QueueInv after) :
    LedgerInv (s.note (.loop (.accept (.accepted fd answers))) after) := by
  -- The function finds a node for the connection, or closes it.
  obtain ⟨li, batch, at_, fresh, shape⟩ := World.accepting stepped
  rcases inv.queues.queueFd_cases sets fresh li fd with
    ⟨returns, qf, free, nodes, unqueued, queued⟩ | ⟨returns, dropped⟩
  · rw [if_neg (Int.not_lt.mpr returns), queued] at shape
    exact inv.enqueued at_ unqueued rfl shape loop queues
  · rw [if_pos returns, dropped] at shape
    refine inv.beside loop queues ?_ (fun er => by rw [shape]; exact Iff.rfl) ?_
    · rw [shape]
      exact .of_lists (by simp [at_]) (by simp) (fun _ => rfl) (fun _ listed => listed)
        (fun _ listed left => absurd listed left) rfl rfl
    · intro other same
      obtain rfl := Option.some.inj same
      rw [shape]
      simp [World.withKernel, Kernel.close]

/-- Every other move of the loop keeps the connections in order. -/
theorem loopMove (inv : LedgerInv s) (idle : efCoroutineCurrent s.world.machine.pool = none)
    {op : LoopOp} (fresh : ∀ mapped, op = .start mapped → s.world.machine.pool.Fresh mapped)
    (others : ∀ fd answers, op ≠ .accept (.accepted fd answers)) {after : World}
    (move : LoopMove s.world op after) : LedgerInv (s.note (.loop op) after) := by
  -- The moves are taken one by one, without those that accept a connection.
  have accepts : (Label.loop op).accepted = none := by
    unfold Label.accepted
    split
    · rename_i fd answers same
      exact absurd (Label.loop.inj same) (others fd answers)
    · rfl
  have loop := inv.loop.loopMove idle fresh move
  have queues := inv.queues.loopMove inv.loop idle move
  cases move with
  | jumps pc move =>
    exact inv.beside loop queues
      ⟨fun _ => QueueInv.pending_jump move, fun _ queued => queued, rfl, rfl⟩ (fun _ => Iff.rfl)
      (by simp [accepts])
  | listens socket proc setfl li at_ numbered unlisted =>
    exact inv.listened at_ unlisted accepts loop queues
  | associates li refusal at_ opened absent =>
    refine inv.beside loop queues ?_ (fun _ => Iff.rfl) (by simp [accepts])
    exact .of_lists (by simp [at_]) (by simp) (fun _ => rfl) (fun _ listed => listed)
      (fun _ listed left => absurd listed left) rfl rfl
  | refuses | drops | reuses | allocates => exact absurd rfl (others _ _)
  | wakes er event batch at_ points => exact inv.wakes idle at_ points accepts rfl loop queues
  | starts li qf mapped pool er at_ effect =>
    exact inv.starts at_ (fresh mapped rfl) effect accepts loop queues
  | recycles li qf enf at_ => exact inv.recycled at_ accepts loop queues
  | stops at_ stopping => exact inv.stops idle at_ stopping accepts loop queues
  | shrinks at_ => exact inv.shrinks at_ accepts loop queues

/-- Every step keeps the connections in order if it can set what it accepts to non-blocking. -/
theorem step (inv : LedgerInv s) {label : Label} (kernel : KernelOk s.world label)
    (sets : label.SetsNonblock) {after : Ledger} (stepped : ledgerStep s label = some after) :
    LedgerInv after := by
  -- The labels are taken one by one.
  obtain ⟨world, moved, rfl⟩ := Option.map_eq_some_iff.mp stepped
  have loop := inv.loop.step kernel moved
  have queues := inv.queues.step inv.loop kernel moved
  cases label with
  | tick | stop =>
    obtain rfl := Option.some.inj moved
    exact inv.beside loop queues ⟨fun _ => rfl, fun _ queued => queued, rfl, rfl⟩
      (fun _ => Iff.rfl) (by simp [Label.accepted])
  | loop op =>
    obtain ⟨idle, moved⟩ := Option.ite_none_right_eq_some.mp moved
    by_cases accepting : ∃ fd answers, op = .accept (.accepted fd answers)
    · obtain ⟨fd, answers, rfl⟩ := accepting
      exact inv.accepts sets moved loop queues
    · rw [not_exists] at accepting
      have fresh : ∀ mapped, op = .start mapped → s.world.machine.pool.Fresh mapped := by
        rintro mapped rfl
        exact kernel
      exact inv.loopMove idle fresh (fun fd answers same => accepting fd ⟨answers, same⟩)
        (inv.loop.loopStep_move idle fresh moved)
  | handler op =>
    obtain ⟨machine, acted, shape⟩ := Option.map_eq_some_iff.mp moved
    obtain ⟨er, pool, kernel, record, current, move, rfl⟩ := inv.loop.machine.handlerStep_move acted
    exact inv.handlerMove current move shape.symm loop queues

/-- Before anything is accepted everything is in order. -/
theorem initial (setting : Setting) : LedgerInv setting.ledger := by
  -- There is no connection, no node and no coroutine.
  have nobody : ∀ g holder, ¬ setting.ledger.Has g holder := by
    intro g holder has
    cases holder with
    | queue li qf => exact List.not_mem_nil has.1
    | routine er => exact List.not_mem_nil has.1.1
  refine ⟨.initial setting, .initial setting, ?_, ?_, ?_, ?_, ?_, ?_⟩
  · exact fun _ _ found => nomatch found
  · exact fun _ _ _ found _ => nomatch found
  · exact fun g holder has => absurd has (nobody g holder)
  · exact fun g holder has => absurd has (nobody g holder)
  · exact fun g holder _ has => absurd has (nobody g holder)
  · exact fun _ _ found => nomatch found

/-- While nothing is being started whoever has a connection is found with it, and nobody else. -/
theorem holds_iff (inv : LedgerInv s)
    (idle : ∀ ent qf enf, s.world.pc ≠ .queueRun ent qf enf) {fd : Fd} {g : Nat}
    (found : s.conn fd = some g) (holder : Ledger.Holder) :
    s.Holds g holder ↔ s.Has g holder := by
  -- What is still to be started is the whole queue.
  have pending : ∀ {li qf}, qf ∈ s.world.pending li ↔
      li ∈ s.world.listenList ∧ qf ∈ (s.world.listens li).fdList := by
    intro li qf
    rw [QueueInv.pending_idle idle]
    split
    · rename_i listed
      exact ⟨fun member => ⟨listed, member⟩, fun both => both.2⟩
    · rename_i absent
      exact ⟨fun member => absurd member List.not_mem_nil, fun both => absurd both.1 absent⟩
  cases holder with
  | queue li qf =>
    constructor
    · rintro ⟨listed, member, same, _⟩
      exact ⟨pending.mpr ⟨listed, member⟩, same⟩
    · intro has
      have number : fd = s.world.queueFds qf := inv.numbers g _ has fd found
      exact ⟨(pending.mp has.1).1, (pending.mp has.1).2, has.2, number ▸ found⟩
  | routine er =>
    constructor
    · rintro ⟨inUse, same, _⟩
      exact ⟨inUse, same⟩
    · intro has
      have number : fd = (s.world.machine.routines er).connFd := inv.numbers g _ has fd found
      exact ⟨has.1, has.2, number ▸ found⟩

/-- While nothing is being started every open connection has exactly one holder. -/
theorem noLeak (inv : LedgerInv s) (idle : ∀ ent qf enf, s.world.pc ≠ .queueRun ent qf enf) :
    s.NoLeak := by
  -- A connection that is not closed is open under some number.
  intro g _
  by_cases closed : s.Closed g
  · exact .inl closed
  · right
    obtain ⟨fd, found⟩ := not_forall_not.mp closed
    obtain ⟨holder, has⟩ := inv.held fd g found
    refine ⟨holder, (inv.holds_iff idle found holder).mpr has, fun other holds => ?_⟩
    exact inv.unique g other holder ((inv.holds_iff idle found other).mp holds) has

end LedgerInv

/-- What the kernel owes the program, and no accepted connection that stays in blocking mode. -/
def SetsOk (s : Ledger) (label : Label) : Prop := KernelOk s.world label ∧ label.SetsNonblock

instance (s : Ledger) (label : Label) : Decidable (SetsOk s label) :=
  inferInstanceAs (Decidable (_ ∧ _))

/-- What the kernel owes the program. -/
def Ledger.KernelOk (s : Ledger) (label : Label) : Prop := SimpleSrv.Ef.KernelOk s.world label

instance (s : Ledger) (label : Label) : Decidable (s.KernelOk label) :=
  inferInstanceAs (Decidable (SimpleSrv.Ef.KernelOk _ _))

/--
No accepted connection is lost, over every run in which all of them can be set to non-blocking.

At an iteration boundary each is closed, or in one queue, or with one coroutine that has not exited.
Memory for nodes and for coroutines may fail at any time, and handlers may do whatever they like.
-/
theorem accepted_never_lost (setting : Setting) {labels : List Label} {s : Ledger}
    (run : Run ledgerStep SetsOk setting.ledger labels s)
    (boundary : s.world.pc = .wait ∨ ∃ ret, s.world.pc = .halted ret) : s.NoLeak := by
  -- No coroutine is being started at the boundary.
  have inv : LedgerInv s := run.invariant (.initial setting)
    fun _ _ _ inv ok stepped => inv.step ok.1 ok.2 stepped
  apply inv.noLeak
  rcases boundary with waits | ⟨ret, ends⟩
  · simp [waits]
  · simp [ends]

/-- The first connection that cannot be set to non-blocking is left open, and nobody has it. -/
theorem refused_lost (setting : Setting) {labels : List Label} {s after : Ledger}
    (run : Run ledgerStep SetsOk setting.ledger labels s) {label : Label}
    (refuses : ¬ label.SetsNonblock) (stepped : ledgerStep s label = some after) :
    ¬ after.Closed s.accepted ∧ ∀ holder, ¬ after.Holds s.accepted holder := by
  -- The function returns at once, and the loop over the accepted connections ends.
  have inv : LedgerInv s := run.invariant (.initial setting)
    fun _ _ _ inv ok stepped => inv.step ok.1 ok.2 stepped
  obtain ⟨world, moved, rfl⟩ := Option.map_eq_some_iff.mp stepped
  unfold Label.SetsNonblock at refuses
  split at refuses
  · rename_i fd answers
    rw [not_or, Bool.not_eq_true, not_le] at refuses
    obtain ⟨_, moved⟩ := Option.ite_none_right_eq_some.mp moved
    obtain ⟨li, batch, at_, _, shape⟩ := World.accepting moved
    have refused : efQueueFd (s.world.opened fd) li fd answers =
        (s.world.opened fd, answers.setfl) := if_pos ⟨by simp [refuses.1], refuses.2⟩
    rw [refused, if_pos refuses.2] at shape
    replace shape : world = { s.world.opened fd with pc := .dispatch batch } := shape
    subst shape
    have open_ : (s.note (.loop (.accept (.accepted fd answers)))
        { s.world.opened fd with pc := .dispatch batch }).conn fd = some s.accepted := by
      refine Ledger.conn_note.mpr ⟨?_, .inl ⟨rfl, rfl⟩⟩
      simp [World.opened, World.withKernel]
    refine ⟨fun closed => closed fd open_, fun holder holds => ?_⟩
    -- Whoever had the connection now would have had it before it was accepted.
    have before : s.Has s.accepted holder := by
      cases holder with
      | queue other qf =>
        obtain ⟨listed, member, same, _⟩ := holds
        refine ⟨?_, (if_neg fun now => now.2 now.1).symm.trans same⟩
        have inside : other ∈ s.world.listenList := listed
        rw [QueueInv.pending_idle (by simp [at_]), if_pos inside]
        exact member
      | routine er =>
        obtain ⟨inUse, same, _⟩ := holds
        exact ⟨inUse, (if_neg fun now => now.2 now.1).symm.trans same⟩
    exact absurd (inv.earlier _ _ before) (Nat.lt_irrefl _)
  · exact absurd trivial refuses

/-- One connection is accepted, on descriptor 5 and with these answers. -/
def acceptsOne (answers : QueueAnswers) : List Label :=
  oneListener ++
    [.loop (.wait (.reported [(3, 1)])), .loop .advance, .loop (.accept (.accepted 5 answers))]

/-- One connection is being read, one is queued, and one is closed for want of memory. -/
theorem accepted_never_lost_three :
    ∃ s, Run ledgerStep SetsOk twoCoroutines.ledger (acceptsOne ⟨true, 0, some 300⟩ ++
        [.loop (.accept (.accepted 6 ⟨false, 0, some 301⟩)),
          .loop (.accept (.accepted 7 ⟨true, 0, none⟩))] ++
        advances 2 ++ [.loop (.start (some 400)), .handler (.transfer .read 5 none ⟨0, 0⟩),
          .loop .advance, .loop (.start none)] ++ advances 2) s ∧
      s.accepted = 3 ∧ s.conn 5 = some 0 ∧ s.conn 6 = some 1 ∧ s.conn 7 = none ∧ s.NoLeak := by
  -- The run is computed as far as its numbers go, and the rest is the theorem.
  have facts : (execute ledgerStep SetsOk twoCoroutines.ledger (acceptsOne ⟨true, 0, some 300⟩ ++
      [.loop (.accept (.accepted 6 ⟨false, 0, some 301⟩)),
        .loop (.accept (.accepted 7 ⟨true, 0, none⟩))] ++
      advances 2 ++ [.loop (.start (some 400)), .handler (.transfer .read 5 none ⟨0, 0⟩),
        .loop .advance, .loop (.start none)] ++ advances 2)).map (fun s =>
          (s.world.pc, s.accepted, s.conn 5, s.conn 6, s.conn 7)) =
        some (.wait, 3, some 0, some 1, none) := by
    decide
  obtain ⟨s, ran, same⟩ := Option.map_eq_some_iff.mp facts
  simp only [Prod.mk.injEq] at same
  exact ⟨s, .of_execute ran, same.2.1, same.2.2.1, same.2.2.2.1, same.2.2.2.2,
    accepted_never_lost twoCoroutines (.of_execute ran) (.inl same.1)⟩

/-- A connection that cannot be set to non-blocking stays open, and nobody has it. -/
theorem accepted_lost :
    ¬ ∀ (setting : Setting) (labels : List Label) (s : Ledger),
      Run ledgerStep Ledger.KernelOk setting.ledger labels s → s.world.pc = .wait → s.NoLeak := by
  -- The run comes to its next wait with the connection open.
  intro claimed
  have facts : (execute ledgerStep Ledger.KernelOk twoCoroutines.ledger
      (acceptsOne ⟨false, -1, some 300⟩ ++ advances 6)).map (fun s =>
        (s.world.pc, s.accepted, s.conn 5,
          [s.world.listenList, (s.world.listens 200).fdList, s.world.machine.pool.fullList])) =
        some (.wait, 1, some 0, [[200], [], []]) := by
    decide
  obtain ⟨s, ran, same⟩ := Option.map_eq_some_iff.mp facts
  simp only [Prod.mk.injEq, List.cons.injEq, and_true] at same
  obtain ⟨waits, accepted, open_, listeners, queue, coroutines⟩ := same
  -- The one listener has an empty queue, and there is no coroutine.
  rcases claimed _ _ s (.of_execute ran) waits 0 (accepted ▸ Nat.one_pos) with
    closed | ⟨holder, holds, _⟩
  · exact closed 5 open_
  · cases holder with
    | queue li qf =>
      obtain ⟨listed, member, _⟩ := holds
      rw [listeners, List.mem_singleton] at listed
      rw [listed, queue] at member
      cases member
    | routine er =>
      have inUse := holds.1.1
      rw [coroutines] at inUse
      cases inUse

end SimpleSrv.Ef
