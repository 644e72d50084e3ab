import SimpleSrv.Ef.Accounts
import SimpleSrv.Ef.Ownership
import SimpleSrv.Ef.Queues

/-! Every descriptor that the program serves has one owner, through every step of the loop. -/

namespace SimpleSrv.Ef

/-- The places before the first wait. -/
def Pc.Early (pc : Pc) : Prop := pc = .setUp ∨ ∃ ent, pc = .associate ent

namespace World

/-- The socket of this listener is registered for it. -/
def Registered (w : World) (li : Ptr) : Prop :=
  ∃ entry, w.machine.kernel.interest (w.listens li).pollData.fd = some entry ∧
    entry.ptr = .listen li

/-- The listeners that have been associated so far are registered, as long as they are open. -/
def Associated (w : World) : Prop :=
  match w.pc with
  | .setUp | .halted _ => True
  | .associate ent => ∃ done todo, w.listenList = done ++ todo ∧ ent = todo.head? ∧
      ∀ li ∈ done, w.Registered li
  | _ => ∀ li ∈ w.listenList, 0 ≤ (w.listens li).pollData.fd → w.Registered li

end World

/-- Behind the association of the listeners it is enough that every open one is registered. -/
theorem World.Associated.of_all {w : World} (late : ¬ w.pc.Early)
    (all : ∀ li ∈ w.listenList, 0 ≤ (w.listens li).pollData.fd → w.Registered li) :
    w.Associated := by
  -- The two early places are excluded, and nothing is said of a halted loop.
  unfold World.Associated
  split
  · trivial
  · trivial
  · rename_i ent at_
    exact absurd (.inr ⟨ent, at_⟩) late
  · exact all

/-- Whoever needs a descriptor owns it. -/
structure OwnerInv (w : World) : Prop where
  routines : ∀ er, w.machine.pool.Busy er → w.machine.Owns er
  queued : ∀ li, ∀ qf ∈ w.pending li, w.machine.kernel.owner (w.queueFds qf) = some .queued
  apart : ∀ li, ∀ qf ∈ w.pending li, ∀ other, ∀ node ∈ w.pending other,
    w.queueFds qf = w.queueFds node → qf = node
  listening : ∀ li ∈ w.listenList, 0 ≤ (w.listens li).pollData.fd →
    w.machine.kernel.owner (w.listens li).pollData.fd = some .listener
  associated : w.Associated
  early : w.pc.Early → w.machine.pool.fullList = [] ∧ ∀ li, w.pending li = []

namespace OwnerInv

variable {w : World}

/-- Behind the association of the listeners every open one is registered. -/
theorem registered (inv : OwnerInv w) (late : ¬ w.pc.Early) (running : ∀ ret, w.pc ≠ .halted ret)
    {li : Ptr} (listed : li ∈ w.listenList) (opened : 0 ≤ (w.listens li).pollData.fd) :
    w.Registered li := by
  -- Only in the late places does the association speak of every listener.
  have associated := inv.associated
  unfold World.Associated at associated
  split at associated
  · rename_i at_
    exact absurd (.inl at_) late
  · rename_i ret at_
    exact absurd at_ (running ret)
  · rename_i ent at_
    exact absurd (.inr ⟨ent, at_⟩) late
  · exact associated li listed opened

/-- The descriptors of the listeners stay with them. -/
theorem reframe (inv : OwnerInv w) {after : World} {held : Owner → Prop}
    (keeps : w.machine.kernel.Keeps after.machine.kernel held) (listener : held .listener)
    (routines : ∀ er, after.machine.pool.Busy er → after.machine.Owns er)
    (queued : ∀ li, ∀ qf ∈ after.pending li,
      after.machine.kernel.owner (after.queueFds qf) = some .queued)
    (apart : ∀ li, ∀ qf ∈ after.pending li, ∀ other, ∀ node ∈ after.pending other,
      after.queueFds qf = after.queueFds node → qf = node)
    (listens : ∀ li ∈ after.listenList, li ∈ w.listenList ∧
      (after.listens li).pollData.fd = (w.listens li).pollData.fd)
    (late : ¬ w.pc.Early) (running : ∀ ret, w.pc ≠ .halted ret) (later : ¬ after.pc.Early) :
    OwnerInv after := by
  -- The kernel keeps the owner of a listening socket, and with it the entry.
  refine ⟨routines, queued, apart, ?_, .of_all later ?_, fun early => absurd early later⟩
  · intro li listed opened
    obtain ⟨listed, same⟩ := listens li listed
    rw [same] at opened ⊢
    exact keeps.owner _ _ (inv.listening li listed opened) listener
  · intro li listed opened
    obtain ⟨listed, same⟩ := listens li listed
    rw [same] at opened
    obtain ⟨entry, found, points⟩ := inv.registered late running listed opened
    refine ⟨entry, ?_, points⟩
    rw [same, keeps.interest _ _ (inv.listening li listed opened) listener]
    exact found

/-- The descriptors of the queues stay in them, too, when no queue gets a new one. -/
theorem frame (inv : OwnerInv w) {after : World} {held : Owner → Prop}
    (keeps : w.machine.kernel.Keeps after.machine.kernel held) (queue : held .queued)
    (listener : held .listener)
    (routines : ∀ er, after.machine.pool.Busy er → after.machine.Owns er)
    (pending : ∀ li, ∀ qf ∈ after.pending li, qf ∈ w.pending li ∧ after.queueFds qf = w.queueFds qf)
    (listens : ∀ li ∈ after.listenList, li ∈ w.listenList ∧
      (after.listens li).pollData.fd = (w.listens li).pollData.fd)
    (late : ¬ w.pc.Early) (running : ∀ ret, w.pc ≠ .halted ret) (later : ¬ after.pc.Early) :
    OwnerInv after := by
  -- A node that is pending now was pending before, with the same number.
  refine inv.reframe keeps listener routines ?_ ?_ listens late running later
  · intro li qf member
    obtain ⟨member, same⟩ := pending li qf member
    rw [same]
    exact keeps.owner _ _ (inv.queued li qf member) queue
  · intro li qf member other node inside equal
    obtain ⟨member, same⟩ := pending li qf member
    obtain ⟨inside, still⟩ := pending other node inside
    rw [same, still] at equal
    exact inv.apart li qf member other node inside equal

/-- Steps of the loop that touch no coroutine take nothing from any of them. -/
theorem passes (inv : OwnerInv w) {after : World}
    (keeps : w.machine.kernel.Keeps after.machine.kernel fun _ => True)
    (busy : ∀ er, after.machine.pool.Busy er → w.machine.pool.Busy er)
    (routines : after.machine.routines = w.machine.routines)
    (pending : ∀ li, ∀ qf ∈ after.pending li, qf ∈ w.pending li ∧ after.queueFds qf = w.queueFds qf)
    (listens : ∀ li ∈ after.listenList, li ∈ w.listenList ∧
      (after.listens li).pollData.fd = (w.listens li).pollData.fd)
    (late : ¬ w.pc.Early) (running : ∀ ret, w.pc ≠ .halted ret) (later : ¬ after.pc.Early) :
    OwnerInv after := by
  -- Nobody's record changes, so every coroutine keeps what it owns.
  refine inv.frame keeps trivial trivial (fun er inUse => ?_) pending listens late running later
  refine (inv.routines er (busy er inUse)).kept keeps trivial ?_ ?_ ?_ <;> rw [routines]

/-- Steps that only move the system thread on keep every owner. -/
theorem jump (inv : OwnerInv w) {op : LoopOp} {pc : Pc} (move : Jump w op pc) :
    OwnerInv { w with pc := pc } := by
  have pending : ∀ li, { w with pc := pc }.pending li = w.pending li :=
    fun _ => QueueInv.pending_jump move
  -- All but the last two conditions do not depend on the place of the system thread.
  suffices { w with pc := pc }.Associated ∧ (pc.Early → w.pc.Early) by
    refine ⟨inv.routines, ?_, ?_, inv.listening, this.1, fun early => ?_⟩
    · simpa only [pending] using inv.queued
    · simpa only [pending] using inv.apart
    · simpa only [pending] using inv.early (this.2 early)
  -- Between two late places the association says the same.
  have passing : ¬ w.pc.Early → (∀ ret, w.pc ≠ .halted ret) → ¬ pc.Early →
      { w with pc := pc }.Associated ∧ (pc.Early → w.pc.Early) := fun late running later =>
    ⟨.of_all later fun li listed opened => inv.registered late running listed opened,
      fun early => absurd early later⟩
  cases move with
  | unlisted socket proc setfl mapped at_ => exact ⟨trivial, fun _ => .inl at_⟩
  | enters at_ => exact ⟨⟨[], w.listenList, rfl, rfl, by simp⟩, fun _ => .inl at_⟩
  | fails ent refusal at_ => exact ⟨trivial, fun _ => .inr ⟨_, at_⟩⟩
  | associated at_ =>
    refine ⟨?_, fun _ => .inr ⟨_, at_⟩⟩
    have associated := inv.associated
    simp only [World.Associated, at_] at associated
    -- No listener is left to be associated, so all of them have been.
    obtain ⟨done, todo, list, none_left, all⟩ := associated
    obtain rfl : todo = [] := List.head?_eq_none_iff.mp none_left.symm
    rw [List.append_nil] at list
    exact fun li listed _ => all li (list ▸ listed)
  | interrupted errno at_ | broken errno at_ | started at_ | opens li at_ | closes li at_
  | dispatched at_ | goesOn at_ | exhausted li qf mapped at_ | accepted li batch at_
  | reported ready at_ | accepts li event batch at_ =>
    exact passing (by simp [Pc.Early, at_]) (by simp [at_]) (by simp [Pc.Early])

/-- Before the first wait there is nobody whose descriptors could be lost. -/
theorem of_early {after : World} (fullList : after.machine.pool.fullList = [])
    (pending : ∀ li, after.pending li = [])
    (listening : ∀ li ∈ after.listenList, 0 ≤ (after.listens li).pollData.fd →
      after.machine.kernel.owner (after.listens li).pollData.fd = some .listener)
    (associated : after.Associated) : OwnerInv after := by
  -- There is no coroutine and nothing pending.
  refine ⟨fun er busy => ?_, ?_, ?_, listening, associated, fun _ => ⟨fullList, pending⟩⟩
  · have listed := busy.1
    rw [fullList] at listed
    cases listed
  · intro li qf member
    rw [pending] at member
    cases member
  · intro li qf member
    rw [pending] at member
    cases member

/-- A listening socket belongs to its listener as soon as it is listed. -/
theorem listened (inv : OwnerInv w) (at_ : w.pc = .setUp) {socket : Fd} {proc li : Ptr} :
    OwnerInv (w.listened socket proc li) := by
  -- The loop has not begun, so nobody is in use and nothing is pending.
  obtain ⟨fullList, pending⟩ := inv.early (.inl at_)
  refine of_early fullList (fun other => ?_) (fun other listed opened => ?_) ?_
  · have idle : ∀ ent qf enf, w.pc ≠ .queueRun ent qf enf := by simp [at_]
    have later : ∀ ent qf enf, (w.listened socket proc li).pc ≠ .queueRun ent qf enf := idle
    have before := pending other
    rw [QueueInv.pending_idle idle] at before
    rw [QueueInv.pending_idle later]
    simp only [World.listened, List.mem_cons]
    by_cases same : other = li
    · simp [same]
    · simpa [same, Function.update_of_ne same] using before
  · simp only [World.listened, Kernel.give_owner] at listed opened ⊢
    split
    · rfl
    · rename_i away
      by_cases same : other = li
      · subst same
        simp at away
      · rw [Function.update_of_ne same] at opened ⊢
        exact inv.listening other ((List.mem_cons.mp listed).resolve_left same) opened
  · simp only [World.Associated, World.listened, at_]

/-- A listener that has been associated is registered. -/
theorem associates (inv : OwnerInv w) (loop : WorldInv w) {li : Ptr}
    (at_ : w.pc = .associate (some li))
    (absent : w.machine.kernel.interest (w.listens li).pollData.fd = none) :
    OwnerInv { w.withKernel (w.machine.kernel.register (w.listens li).pollData.fd
        ⟨efPollIn, .listen li, w.machine.number⟩) with
      pc := .associate (entryAfter w.listenList li) } := by
  -- The listener is the first of those that are left.
  obtain ⟨fullList, pending⟩ := inv.early (.inr ⟨_, at_⟩)
  have idle : ∀ ent qf enf, w.pc ≠ .queueRun ent qf enf := by simp [at_]
  refine of_early fullList (fun other => ?_) inv.listening ?_
  · rw [← pending other, QueueInv.pending_idle (by simp), QueueInv.pending_idle idle]
    rfl
  · have associated := inv.associated
    simp only [World.Associated, at_] at associated
    obtain ⟨done, todo, list, next, all⟩ := associated
    obtain ⟨rest, rfl⟩ := List.head?_eq_some_iff.mp next.symm
    have apart : li ∉ done := by
      have nodup := loop.nodup
      rw [list, List.nodup_middle] at nodup
      exact fun member => (List.nodup_cons.mp nodup).1 (List.mem_append_left _ member)
    refine ⟨done ++ [li], rest, by simp [World.withKernel, list], ?_, ?_⟩
    · rw [list, entryAfter_split apart]
    · intro other member
      simp only [World.Registered, World.withKernel, Kernel.register_interest]
      split
      · rename_i same
        -- The entry is new, so nobody before has been registered for this descriptor.
        rcases List.mem_append.mp member with member | member
        · obtain ⟨entry, found, _⟩ := all other member
          rw [same, absent] at found
          cases found
        · obtain rfl := List.mem_singleton.mp member
          exact ⟨_, rfl, rfl⟩
      · rename_i away
        rcases List.mem_append.mp member with member | member
        · exact all other member
        · exact absurd (List.mem_singleton.mp member ▸ rfl) away

/-- A new connection belongs to the queue, under a number that nobody had. -/
theorem enqueued (inv : OwnerInv w) {li : Ptr} {batch : List Event}
    (at_ : w.pc = .accept li batch) {fd : Fd} (unused : w.machine.kernel.Unused fd) {qf : Ptr}
    {free nodes : List Ptr} (unqueued : ∀ other ∈ w.listenList, qf ∉ (w.listens other).fdList) :
    OwnerInv ({ w.opened fd with freeFdList := free, nodes := nodes }.enqueue li qf fd) := by
  -- The place of the thread is in no queue, before and after.
  let after := { w.opened fd with freeFdList := free, nodes := nodes }.enqueue li qf fd
  have idle : ∀ ent qf enf, w.pc ≠ .queueRun ent qf enf := by simp [at_]
  have later : ∀ ent qf' enf, after.pc ≠ .queueRun ent qf' enf := idle
  have late : ¬ w.pc.Early := by simp [Pc.Early, at_]
  have listens : ∀ other, (after.listens other).pollData = (w.listens other).pollData ∧
      (after.listens other).fdList =
        if other = li then (w.listens li).fdList ++ [qf] else (w.listens other).fdList := by
    intro other
    by_cases same : other = li <;>
      simp [after, World.enqueue, World.modifyListen, World.opened, World.withKernel, same]
  have queueFds : after.queueFds = Function.update w.queueFds qf fd := rfl
  have kernel : after.machine.kernel = w.machine.kernel.give fd .queued := by
    simp [after, World.enqueue, World.modifyListen, World.opened, World.withKernel, Kernel.give]
  have keeps : w.machine.kernel.Keeps after.machine.kernel fun _ => True :=
    kernel ▸ .give unused (by simp)
  -- What is pending was pending before, or is the new connection.
  have pending : ∀ other, ∀ node ∈ after.pending other, (node ∈ w.pending other ∧
      after.queueFds node = w.queueFds node ∧ w.queueFds node ≠ fd) ∨
        (node = qf ∧ after.queueFds node = fd) := by
    intro other node member
    rw [QueueInv.pending_idle later, (listens other).2] at member
    rw [QueueInv.pending_idle idle]
    split at member
    · rename_i listed
      have inside : other ∈ w.listenList := listed
      have old : node ∈ (w.listens other).fdList → (node ∈ w.pending other ∧
          after.queueFds node = w.queueFds node ∧ w.queueFds node ≠ fd) := by
        intro here
        have apart : node ≠ qf := fun same => unqueued other inside (same ▸ here)
        have before : node ∈ w.pending other := by
          rw [QueueInv.pending_idle idle, if_pos inside]
          exact here
        refine ⟨before, by rw [queueFds, Function.update_of_ne apart], fun same => ?_⟩
        -- Nobody has had the number of the new connection.
        have owner := inv.queued other node before
        rw [same, unused.2] at owner
        cases owner
      rw [QueueInv.pending_idle idle] at old
      split at member
      · rename_i same
        rcases List.mem_append.mp member with member | member
        · exact .inl (old (same ▸ member))
        · obtain rfl := List.mem_singleton.mp member
          exact .inr ⟨rfl, by rw [queueFds, Function.update_self]⟩
      · exact .inl (old member)
    · cases member
  refine inv.reframe keeps trivial
    (fun er busy => (inv.routines er busy).kept keeps trivial rfl rfl rfl) ?_ ?_
    (fun other inside => ⟨inside, by rw [(listens other).1]⟩) late (by simp [at_]) late
  · intro other node member
    -- An old connection keeps its owner, and the new one belongs to the queue.
    rcases pending other node member with ⟨member, same, _⟩ | ⟨_, new⟩
    · rw [same]
      exact keeps.owner _ _ (inv.queued other node member) trivial
    · rw [new]
      exact (congrFun (congrArg Kernel.owner kernel) fd).trans
        (by rw [Kernel.give_owner, if_pos rfl])
  · intro other node member third entry inside equal
    -- The new connection has a number that none of the old ones has.
    rcases pending other node member with ⟨member, same, apart⟩ | ⟨first, new⟩
    · rcases pending third entry inside with ⟨inside, still, _⟩ | ⟨_, new⟩
      · rw [same, still] at equal
        exact inv.apart other node member third entry inside equal
      · rw [same, new] at equal
        exact absurd equal apart
    · rcases pending third entry inside with ⟨_, still, away⟩ | ⟨second, _⟩
      · rw [new, still] at equal
        exact absurd equal.symm away
      · rw [first, second]

/-- Waking a coroutine takes nothing from anybody. -/
theorem wakes (inv : OwnerInv w) (loop : WorldInv w)
    (idle : efCoroutineCurrent w.machine.pool = none) {er : Ptr} {event : Event}
    {batch : List Event} (at_ : w.pc = .dispatch (event :: batch))
    (points : event.ptr = .routine er) :
    OwnerInv { w with machine := w.machine.wake er event.events, pc := .dispatch batch } := by
  -- The coroutine goes on in the same call, with the same connection.
  have ok := loop.batch
  rw [at_] at ok
  obtain ⟨busy, _⟩ := ok.waits event List.mem_cons_self er points
  obtain ⟨call, retval, ticket, _, waits, _⟩ :=
    (loop.machine.routines er busy).suspended (by rw [idle]; simp)
  have same : ∀ other, ((w.machine.wake er event.events).routines other).connFd =
        (w.machine.routines other).connFd ∧
      ((w.machine.wake er event.events).routines other).closedConn =
        (w.machine.routines other).closedConn ∧
      ((w.machine.wake er event.events).routines other).stage.waitsFor =
        (w.machine.routines other).stage.waitsFor := by
    intro other
    by_cases mine : other = er
    · simp [Machine.wake, Machine.modify_routines, mine, Routine.goOn, waits, Stage.waitsFor]
    · simp [Machine.wake, Machine.modify_routines, mine]
  refine inv.frame (.refl _ fun _ => True) trivial trivial (fun other inUse => ?_) ?_
    (fun _ listed => ⟨listed, rfl⟩) (by simp [Pc.Early, at_]) (by simp [at_]) (by simp [Pc.Early])
  · obtain ⟨connFd, closedConn, waitsFor⟩ := same other
    exact (inv.routines other inUse).kept (.refl _ fun _ => True) trivial connFd closedConn waitsFor
  · intro li qf member
    rw [QueueInv.pending_idle (by simp)] at member
    rw [QueueInv.pending_idle (by simp [at_])]
    exact ⟨member, rfl⟩

end OwnerInv

/-- The node of a coroutine that is started was pending, and is pending nowhere any more. -/
theorem QueueInv.started_pending {w : World} (queues : QueueInv w) {li qf : Ptr}
    (at_ : w.pc = .queueFd li (some qf)) (pool : Pool) (er : Ptr) : qf ∈ w.pending li ∧
      ∀ other, ∀ node ∈ (w.started li qf pool er).pending other,
        node ∈ w.pending other ∧ node ≠ qf := by
  -- The node is the first of the queue that the thread is at.
  have idle : ∀ ent qf enf, w.pc ≠ .queueRun ent qf enf := by simp [at_]
  have position := queues.position
  simp only [World.Position, at_] at position
  obtain ⟨⟨done, todo, list, _⟩, first⟩ := position
  have listed : li ∈ w.listenList := by simp [list]
  obtain ⟨rest, shape⟩ : ∃ rest, (w.listens li).fdList = qf :: rest :=
    List.head?_eq_some_iff.mp first.symm
  -- The node stands on one list only, and only once on that.
  have distinct : (qf :: (rest ++ (w.listenList.erase li).flatMap fun other =>
      (w.listens other).fdList)).Nodup := by
    have all := queues.nodes.nodup_iff.mpr queues.nodup
    have lists := (List.nodup_append.mp all).1
    have front := flatMap_perm_erase listed fun other => (w.listens other).fdList
    rw [shape] at front
    exact front.nodup_iff.mp lists
  have once := (List.nodup_cons.mp distinct).1
  rw [List.mem_append, not_or] at once
  rw [pending_idle idle, if_pos listed, shape]
  refine ⟨List.mem_cons_self, fun other node member => ?_⟩
  rw [pending_idle idle]
  unfold World.pending at member
  split at member
  · rename_i inside
    have inside : other ∈ w.listenList := inside
    rw [if_pos inside]
    simp only [World.started] at member
    split at member
    · rename_i same
      subst same
      -- Of this queue the rest is pending, in which the node does not occur again.
      rw [shape, List.tail_cons] at member
      rw [shape]
      refine ⟨List.mem_cons_of_mem _ member, ?_⟩
      rintro rfl
      exact once.1 member
    · rename_i apart
      refine ⟨member, ?_⟩
      rintro rfl
      -- On another queue the node would stand a second time.
      have away : other ∈ w.listenList.erase li := (List.mem_erase_of_ne (Ne.symm apart)).mpr inside
      exact once.2 (List.mem_flatMap.mpr ⟨other, away, member⟩)
  · cases member

namespace OwnerInv

variable {w : World}

/-- A coroutine that is started gets its connection from the queue. -/
theorem starts (inv : OwnerInv w) (loop : WorldInv w) (queues : QueueInv w)
    {li qf : Ptr} (at_ : w.pc = .queueFd li (some qf)) {mapped : Option Ptr}
    (fresh : w.machine.pool.Fresh mapped) {pool : Pool} {er : Ptr}
    (effect : Created w.machine.pool efProcAddress 0 mapped (pool, some er)) :
    OwnerInv (w.started li qf pool er) := by
  -- The connection belonged to the queue, and belongs to the new coroutine now.
  obtain ⟨idle, busy, _⟩ := loop.machine.pool.created_busy fresh effect
  obtain ⟨mine, pending⟩ := queues.started_pending at_ pool er
  have queued := inv.queued li qf mine
  have keeps : w.machine.kernel.Keeps (w.started li qf pool er).machine.kernel (· ≠ .queued) :=
    .handOver (by simp)
  refine inv.reframe keeps (by simp) (fun other inUse => ?_) (fun other node member => ?_) ?_
    (fun _ listed => ⟨listed, rfl⟩) (by simp [Pc.Early, at_]) (by simp [at_])
    (by simp [Pc.Early, World.started])
  · by_cases same : other = er
    · subst same
      refine ⟨fun _ => ?_, fun listening => ?_, fun fd ticket waiting => ?_⟩
      · simp [World.started, Machine.started, Machine.wake, Machine.modify_routines, Routine.goOn,
          Kernel.handOver_owner, queued]
      · simp [World.started, Machine.started, Machine.wake, Machine.modify_routines, Routine.goOn,
          Kernel.handOver_owner, queued] at listening
      · simp [World.started, Machine.started, Machine.wake, Machine.modify_routines, Routine.goOn,
          Stage.waitsFor] at waiting
    · have older := ((busy other).mp inUse).resolve_right same
      have theirs :
          (w.started li qf pool er).machine.routines other = w.machine.routines other := by
        simp [World.started, Machine.started, Machine.wake, Machine.modify_routines, same]
      exact (inv.routines other older).kept keeps (by simp) (by rw [theirs]) (by rw [theirs])
        (by rw [theirs])
  · -- Only the number of the started node leaves the queues.
    obtain ⟨member, apart⟩ := pending other node member
    have away : w.queueFds node ≠ w.queueFds qf :=
      fun same => apart (inv.apart other node member li qf mine same)
    show (w.machine.kernel.handOver (w.queueFds qf) er).owner (w.queueFds node) = some .queued
    rw [Kernel.handOver_owner, if_neg fun both => away both.1]
    exact inv.queued other node member
  · intro other node member third entry inside
    exact inv.apart other node (pending other node member).1 third entry
      (pending third entry inside).1

/-- A node that is moved to the free nodes was not pending any more. -/
theorem recycles (inv : OwnerInv w) (queues : QueueInv w) {li qf : Ptr} {enf : Option Ptr}
    (at_ : w.pc = .queueRun li qf enf) : OwnerInv (w.recycled li qf enf) := by
  -- The node stands first, and has not been pending since its coroutine was started.
  have later : ∀ ent qf' enf', (w.recycled li qf enf).pc ≠ .queueRun ent qf' enf' := by
    simp [World.recycled]
  have position := queues.position
  simp only [World.Position, at_] at position
  obtain ⟨⟨done, todo, list, _⟩, rest, shape, _⟩ := position
  have pollData : ∀ other, ((w.recycled li qf enf).listens other).pollData =
      (w.listens other).pollData := by
    intro other
    by_cases same : other = li <;> simp [World.recycled, World.modifyListen, same]
  refine inv.passes (.refl _ _) (fun _ busy => busy) rfl (fun other node member => ⟨?_, rfl⟩)
    (fun other listed => ⟨listed, by rw [pollData]⟩) (by simp [Pc.Early, at_]) (by simp [at_])
    (by simp [Pc.Early, World.recycled])
  rw [QueueInv.pending_idle later] at member
  unfold World.pending
  split at member
  · rename_i inside
    have inside : other ∈ w.listenList := inside
    rw [if_pos inside]
    simp only [at_]
    by_cases same : other = li
    · subst same
      simpa [World.recycled, World.modifyListen, shape] using member
    · simpa [World.recycled, World.modifyListen, same, Ne.symm same] using member
  · cases member

/-- Closing the socket of a listener takes it from nobody else. -/
theorem closeListen (inv : OwnerInv w) (at_ : w.pc = .exitQueue) {li : Ptr}
    (listed : li ∈ w.listenList) : OwnerInv (w.closeListen li) := by
  by_cases open_ : (w.listens li).pollData.fd ≥ 0
  · have late : ¬ w.pc.Early := by simp [Pc.Early, at_]
    have running : ∀ ret, w.pc ≠ .halted ret := by simp [at_]
    obtain ⟨listenList, lists⟩ := w.closeListen_lists li
    obtain ⟨_, pc⟩ := w.closeListen_frame li
    have pending := QueueInv.pending_congr pc listenList lists
    have owner := inv.listening li listed open_
    -- Another listener with this socket would be registered for it, too.
    have apart : ∀ other ∈ w.listenList, other ≠ li → 0 ≤ (w.listens other).pollData.fd →
        (w.listens other).pollData.fd ≠ (w.listens li).pollData.fd := by
      intro other inside unlike opened same
      obtain ⟨entry, found, points⟩ := inv.registered late running inside opened
      obtain ⟨twin, known, leads⟩ := inv.registered late running listed open_
      rw [same] at found
      obtain rfl := Option.some.inj (found.symm.trans known)
      exact unlike (PollPtr.listen.inj (points.symm.trans leads))
    -- The socket is a listener's, so nobody else loses anything.
    have keeps : w.machine.kernel.Keeps
        (efRoutineClose w.machine.kernel (w.listens li).pollData.fd).1 (· ≠ .listener) := by
      refine .close fun owned found unlike => unlike ?_
      exact Option.some.inj (found.symm.trans owner)
    have pollData : ∀ other, ((w.closeListen li).listens other).pollData.fd =
        if other = li then -1 else (w.listens other).pollData.fd := by
      intro other
      rw [World.closeListen, if_pos open_]
      by_cases same : other = li <;> simp [World.modifyListen, World.withKernel, same]
    have kernel : (w.closeListen li).machine.kernel =
        (efRoutineClose w.machine.kernel (w.listens li).pollData.fd).1 := by
      rw [World.closeListen, if_pos open_]
      rfl
    have frame := StoppedFrom.closeListen w li
    rw [← kernel] at keeps
    have queueFds : (w.closeListen li).queueFds = w.queueFds := by
      rw [World.closeListen, if_pos open_]
      rfl
    have later : ¬ (w.closeListen li).pc.Early := by
      rw [pc]
      exact late
    -- Whoever is still open is another listener, on another socket.
    have others : ∀ other ∈ (w.closeListen li).listenList,
        0 ≤ ((w.closeListen li).listens other).pollData.fd → other ∈ w.listenList ∧
          0 ≤ (w.listens other).pollData.fd ∧
          ((w.closeListen li).listens other).pollData.fd = (w.listens other).pollData.fd ∧
          (w.listens other).pollData.fd ≠ (w.listens li).pollData.fd := by
      intro other inside opened
      rw [listenList] at inside
      rw [pollData] at opened ⊢
      by_cases same : other = li
      · rw [if_pos same] at opened
        exact absurd opened (by decide)
      · rw [if_neg same] at opened ⊢
        exact ⟨inside, opened, rfl, apart other inside same opened⟩
    refine ⟨fun er busy => ?_, fun other qf member => ?_, ?_, fun other inside opened => ?_,
      .of_all later fun other inside opened => ?_, fun early => absurd early later⟩
    · rw [frame.pool] at busy
      exact (inv.routines er busy).kept keeps (by simp) (by rw [frame.routines])
        (by rw [frame.routines]) (by rw [frame.routines])
    · rw [pending] at member
      rw [queueFds]
      exact keeps.owner _ _ (inv.queued other qf member) (by simp)
    · simp only [pending, queueFds]
      exact inv.apart
    · obtain ⟨inside, opened, same, away⟩ := others other inside opened
      rw [same, kernel, efRoutineClose_owner, if_neg away]
      exact inv.listening other inside opened
    · obtain ⟨inside, opened, same, away⟩ := others other inside opened
      rw [World.Registered, same, kernel, efRoutineClose_interest, if_neg away]
      exact inv.registered late running inside opened
  · rw [World.closeListen, if_neg open_]
    exact inv

/-- Freeing a listener takes nothing from anybody. -/
theorem freeListen (inv : OwnerInv w) (at_ : w.pc = .exitQueue) (li : Ptr) :
    OwnerInv (w.freeListen li) := by
  -- A listener goes off the list, and with it an empty queue.
  unfold World.freeListen
  split
  · refine inv.passes (.refl _ _) (fun _ busy => busy) rfl (fun other qf member => ⟨?_, rfl⟩)
      (fun other listed => ⟨List.mem_of_mem_erase listed, rfl⟩) (by simp [Pc.Early, at_])
      (by simp [at_]) (by simp [Pc.Early, at_])
    rw [QueueInv.pending_idle (by simp [at_])] at member
    rw [QueueInv.pending_idle (by simp [at_])]
    split at member
    · rename_i listed
      rw [if_pos (List.mem_of_mem_erase listed)]
      exact member
    · cases member
  · exact inv

/-- The loop that closes the listening sockets takes them from the listeners only. -/
theorem stopListens (inv : OwnerInv w) (loop : WorldInv w)
    (idle : efCoroutineCurrent w.machine.pool = none) (at_ : w.pc = .exitQueue) :
    OwnerInv w.stopListens := by
  -- Each turn closes a listener and perhaps frees it.
  have turn : ∀ {w : World} {li : Ptr}, WorldInv w → efCoroutineCurrent w.machine.pool = none →
      w.pc = .exitQueue → li ∈ w.listenList → OwnerInv w → OwnerInv (w.stopListen li) := by
    intro w li _ _ at_ listed inv
    obtain ⟨_, pc⟩ := w.closeListen_frame li
    exact (inv.closeListen at_ listed).freeListen (pc.trans at_) li
  exact (WorldInv.foldl_stopListen turn loop idle at_ loop.nodup (fun _ member => member) inv).2.2.2

/-- A shrink takes nothing from the coroutines in use. -/
theorem shrunk (inv : OwnerInv w) (loop : WorldInv w) (idleMillisecs maxCount : Int) (tv : TimeVal)
    {pc : Pc} (before : w.pc = .exitQueue ∨ w.pc = .shrink) (later : pc = .shrink ∨ pc = .wait) :
    OwnerInv { w.withPool (efCoroutinePoolShrink w.machine.pool idleMillisecs maxCount tv).1 with
      pc := pc } := by
  -- The coroutines in use are the same, and none of them is touched.
  have busy := (loop.machine.shrunk idleMillisecs maxCount tv).2.1
  have idle : ∀ ent qf enf, w.pc ≠ .queueRun ent qf enf := by
    rcases before with at_ | at_ <;> simp [at_]
  have still : ∀ ent qf enf, pc ≠ .queueRun ent qf enf := by
    rcases later with rfl | rfl <;> simp
  refine inv.frame (.refl _ fun _ => True) trivial trivial (fun er inUse => ?_)
    (fun li qf member => ⟨?_, rfl⟩) (fun _ listed => ⟨listed, rfl⟩) ?_ ?_ ?_
  · exact (inv.routines er ((busy er).mp inUse)).kept (.refl _ fun _ => True) trivial rfl rfl rfl
  · rw [QueueInv.pending_idle still] at member
    rw [QueueInv.pending_idle idle]
    exact member
  · rcases before with at_ | at_ <;> simp [Pc.Early, at_]
  · rcases before with at_ | at_ <;> simp [at_]
  · rcases later with rfl | rfl <;> simp [Pc.Early]

/-- The code behind the label `exit_queue` takes descriptors from the listeners only. -/
theorem exitQueue (inv : OwnerInv w) (loop : WorldInv w)
    (idle : efCoroutineCurrent w.machine.pool = none) (at_ : w.pc = .exitQueue)
    (stopping : w.stopping = true) : OwnerInv w.exitQueue := by
  -- The sockets are closed first, and then the nodes are freed.
  obtain ⟨stopped, pool, pc⟩ := loop.stopListens idle at_
  have still : efCoroutineCurrent w.stopListens.machine.pool = none := by
    rw [pool]
    exact idle
  have closed := inv.stopListens loop idle at_
  -- The nodes that are freed were not pending.
  have later : w.stopListens.freeNodes.pc = .exitQueue := pc
  have freed : OwnerInv w.stopListens.freeNodes :=
    ⟨closed.routines, closed.queued, closed.apart, closed.listening, closed.associated,
      closed.early⟩
  have order : WorldInv w.stopListens.freeNodes :=
    WorldInv.reframe stopped still rfl rfl rfl (fun _ => rfl) (fun _ _ found => found)
      stopped.machine.opened stopped.batch stopped.listener (by rw [later]; simp)
  rw [World.exitQueue, if_pos stopping]
  simp only
  split
  · rename_i allFree
    have everyone := order.machine.pool.everyone_free allFree
    have busy := (order.machine.shrunk 0 (-w.stopListens.freeNodes.machine.pool.fullCount)
      w.stopListens.freeNodes.machine.clock).2.1
    refine ⟨fun er inUse => ?_, ?_, ?_, closed.listening, trivial, fun early => ?_⟩
    · -- All coroutines are free, so none of them needs the registrations that end here.
      obtain ⟨full, used⟩ := (busy er).mp inUse
      exact absurd (everyone.mem_iff.mpr full) used
    · intro li qf member
      rw [QueueInv.pending_idle (by simp)] at member
      refine closed.queued li qf ?_
      rw [QueueInv.pending_idle (by simp [pc])]
      exact member
    · intro li qf member other node inside
      rw [QueueInv.pending_idle (by simp)] at member inside
      refine closed.apart li qf ?_ other node ?_
      · rw [QueueInv.pending_idle (by simp [pc])]
        exact member
      · rw [QueueInv.pending_idle (by simp [pc])]
        exact inside
    · simp [Pc.Early] at early
  · exact freed.shrunk order 0 _ _ (.inl pc) (.inl rfl)

/-- Every move of the loop keeps every owner that the program relies on. -/
theorem loopMove (inv : OwnerInv w) (loop : WorldInv w) (queues : QueueInv w)
    (idle : efCoroutineCurrent w.machine.pool = none) {op : LoopOp} {after : World}
    (fresh : ∀ mapped, op = .start mapped → w.machine.pool.Fresh mapped)
    (move : LoopMove w op after) : OwnerInv after := by
  -- Away from the queues the same nodes are pending.
  have pending : ∀ {after : World}, (∀ ent qf enf, w.pc ≠ .queueRun ent qf enf) →
      (∀ ent qf enf, after.pc ≠ .queueRun ent qf enf) → after.listenList = w.listenList →
      after.listens = w.listens → after.queueFds = w.queueFds → ∀ li, ∀ qf ∈ after.pending li,
        qf ∈ w.pending li ∧ after.queueFds qf = w.queueFds qf := by
    intro after before later listenList listens queueFds li qf member
    rw [QueueInv.pending_idle later, listenList, listens] at member
    rw [QueueInv.pending_idle before, queueFds]
    exact ⟨member, rfl⟩
  cases move with
  | jumps pc move => exact inv.jump move
  | listens socket proc setfl li at_ numbered unlisted => exact inv.listened at_
  | associates li refusal at_ opened absent => exact inv.associates loop at_ absent
  | refuses li batch fd answers at_ unused =>
    exact inv.passes (.give unused (by simp)) (fun _ busy => busy) rfl
      (pending (by simp [at_]) (by simp) rfl rfl rfl) (fun _ listed => ⟨listed, rfl⟩)
      (by simp [Pc.Early, at_]) (by simp [at_]) (by simp [Pc.Early])
  | drops li batch fd answers at_ unused =>
    exact inv.passes (.giveBack unused) (fun _ busy => busy) rfl
      (pending (by simp [at_]) (by simp) rfl rfl rfl) (fun _ listed => ⟨listed, rfl⟩)
      (by simp [Pc.Early, at_]) (by simp [at_]) (by simp [Pc.Early])
  | reuses li batch fd answers qf rest at_ unused shape =>
    exact inv.enqueued at_ unused (QueueInv.unqueued (queues.reused shape) queues.nodup)
  | allocates li batch fd answers qf at_ unused empty new =>
    exact inv.enqueued at_ unused (QueueInv.unqueued (queues.allocated empty qf)
      (List.nodup_cons.mpr ⟨new, queues.nodup⟩))
  | wakes er event batch at_ points => exact inv.wakes loop idle at_ points
  | starts li qf mapped pool er at_ effect =>
    exact inv.starts loop queues at_ (fresh mapped rfl) effect
  | recycles li qf enf at_ => exact inv.recycles queues at_
  | stops at_ stopping => exact inv.exitQueue loop idle at_ stopping
  | shrinks at_ =>
    unfold World.shrink
    simp only
    split
    · exact inv.shrunk loop _ _ _ (.inr at_) (.inr rfl)
    · exact inv.passes (.refl _ _) (fun _ busy => busy) rfl
        (pending (by simp [at_]) (by simp) rfl rfl rfl) (fun _ listed => ⟨listed, rfl⟩)
        (by simp [Pc.Early, at_]) (by simp [at_]) (by simp [Pc.Early])

/-- A step of a handler on its own descriptors takes nothing from anybody else. -/
theorem handlerMove (inv : OwnerInv w) (loop : WorldInv w) {op : HandlerOp} {er : Ptr} {pool : Pool}
    {kernel : Kernel} {record : Routine} (current : efCoroutineCurrent w.machine.pool = some er)
    (move : HandlerMove w.machine er op pool kernel record) (own : w.machine.OwnOnly er op)
    (returns : w.machine.ReturnOk er op) (trace : List LoopEvent) :
    OwnerInv { w with machine := w.machine.moved er pool kernel record, trace := trace } := by
  -- The step belongs to a coroutine that runs, so the loop has begun.
  have keeps := move.keeps (inv.routines er (loop.machine.current_busy current)) own returns
  have late : ¬ w.pc.Early := by
    rcases loop.runner (by rw [current]; simp) with ⟨_, at_⟩ | ⟨_, _, _, at_⟩ <;>
      simp [Pc.Early, at_]
  have running : ∀ ret, w.pc ≠ .halted ret := by
    rcases loop.runner (by rw [current]; simp) with ⟨_, at_⟩ | ⟨_, _, _, at_⟩ <;> simp [at_]
  refine inv.frame keeps (by simp) (by simp)
    (move.owns loop.machine current inv.routines own returns) (fun li qf member => ⟨?_, rfl⟩)
    (fun _ listed => ⟨listed, rfl⟩) late running late
  have same :
      { w with machine := w.machine.moved er pool kernel record, trace := trace }.pending li =
      w.pending li := QueueInv.pending_congr rfl rfl (fun _ => rfl) li
  exact same ▸ member

end OwnerInv

/-- The handlers use only descriptors of their own, which they may close. -/
def UserOk (w : World) (label : Label) : Prop :=
  KernelOk w label ∧
    match label with
    | .handler op => ∀ er ∈ efCoroutineCurrent w.machine.pool, w.machine.OwnOnly er op
    | .tick _ | .stop | .loop _ => True

instance (w : World) : (label : Label) → Decidable (UserOk w label)
  | .handler op => inferInstanceAs (Decidable (KernelOk w (.handler op) ∧
      ∀ er ∈ efCoroutineCurrent w.machine.pool, w.machine.OwnOnly er op))
  | .tick now => inferInstanceAs (Decidable (KernelOk w (.tick now) ∧ True))
  | .stop => inferInstanceAs (Decidable (KernelOk w .stop ∧ True))
  | .loop op => inferInstanceAs (Decidable (KernelOk w (.loop op) ∧ True))

/-- A handler that has closed its connection returns only while that number is nobody else's. -/
def OwnershipOk (w : World) (label : Label) : Prop :=
  UserOk w label ∧
    match label with
    | .handler op => ∀ er ∈ efCoroutineCurrent w.machine.pool, w.machine.ReturnOk er op
    | .tick _ | .stop | .loop _ => True

instance (w : World) : (label : Label) → Decidable (OwnershipOk w label)
  | .handler op => inferInstanceAs (Decidable (UserOk w (.handler op) ∧
      ∀ er ∈ efCoroutineCurrent w.machine.pool, w.machine.ReturnOk er op))
  | .tick now => inferInstanceAs (Decidable (UserOk w (.tick now) ∧ True))
  | .stop => inferInstanceAs (Decidable (UserOk w .stop ∧ True))
  | .loop op => inferInstanceAs (Decidable (UserOk w (.loop op) ∧ True))

namespace OwnerInv

variable {w : World}

/-- Every step keeps every owner, as long as each handler that returns may do so. -/
theorem step (inv : OwnerInv w) (server : ServerInv w) {label : Label} (ok : OwnershipOk w label)
    {after : World} (stepped : SimpleSrv.Ef.step w label = some after) : OwnerInv after := by
  -- The labels are taken one by one.
  obtain ⟨loop, queues⟩ := server
  cases label with
  | tick now =>
    obtain rfl := Option.some.inj stepped
    refine ⟨fun er busy => ?_, inv.queued, inv.apart, inv.listening, inv.associated, inv.early⟩
    exact (inv.routines er busy).kept (.refl _ fun _ => True) trivial rfl rfl rfl
  | stop =>
    obtain rfl := Option.some.inj stepped
    exact ⟨inv.routines, inv.queued, inv.apart, inv.listening, inv.associated, inv.early⟩
  | loop op =>
    obtain ⟨idle, stepped⟩ := Option.ite_none_right_eq_some.mp stepped
    have fresh : ∀ mapped, op = .start mapped → w.machine.pool.Fresh mapped := by
      rintro mapped rfl
      exact ok.1.1
    exact inv.loopMove loop queues idle fresh (loop.loopStep_move idle fresh stepped)
  | handler op =>
    obtain ⟨machine, moved, rfl⟩ := Option.map_eq_some_iff.mp stepped
    obtain ⟨er, pool, kernel, record, current, move, rfl⟩ := loop.machine.handlerStep_move moved
    exact inv.handlerMove loop current move (ok.1.2 er current) (ok.2 er current) _

/-- Before the loop the program serves no descriptor. -/
theorem initial (setting : Setting) : OwnerInv setting.world :=
  of_early rfl (fun _ => rfl) (fun _ listed => absurd listed List.not_mem_nil) trivial

end OwnerInv

/-- What holds of the loop, of its queues and of the owners of its descriptors. -/
structure OwnedInv (w : World) : Prop where
  server : ServerInv w
  owners : OwnerInv w

/-- Every step keeps all of that, as long as each handler that returns may do so. -/
theorem OwnedInv.step {w after : World} (inv : OwnedInv w) {label : Label}
    (ok : OwnershipOk w label) (stepped : SimpleSrv.Ef.step w label = some after) :
    OwnedInv after := by
  -- Each of the three parts has its own step lemma.
  obtain ⟨⟨loop, queues⟩, owners⟩ := inv
  exact ⟨⟨loop.step ok.1.1 stepped, queues.step loop ok.1.1 stepped⟩,
    owners.step ⟨loop, queues⟩ ok stepped⟩

/-- Before the loop everything is in order. -/
theorem OwnedInv.initial (setting : Setting) : OwnedInv setting.world :=
  ⟨⟨.initial setting, .initial setting⟩, .initial setting⟩

/-- The loop, its queues and the owners of its descriptors are in order throughout such a run. -/
theorem Setting.ownedInv (setting : Setting) {labels : List Label} {w : World}
    (run : Run SimpleSrv.Ef.step OwnershipOk setting.world labels w) : OwnedInv w :=
  run.invariant (.initial setting) fun _ _ _ inv ok stepped => inv.step ok stepped

end SimpleSrv.Ef
