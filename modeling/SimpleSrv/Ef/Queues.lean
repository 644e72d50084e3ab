import SimpleSrv.Lib.Run
import SimpleSrv.Lib.Shelves
import SimpleSrv.Ef.LoopInvariant

/-! Accepted connections are started once and in order, and queue nodes are never lost or shared. -/

namespace SimpleSrv.Ef

/-- The descriptors queued for a listener, in accept order. -/
def queuedFds (li : Ptr) (trace : List LoopEvent) : List Fd :=
  trace.filterMap fun
    | .queued other fd => if other = li then some fd else none
    | _ => none

/-- The descriptors passed to coroutines that run this procedure for a listener, in start order. -/
def startedFds (li proc : Ptr) (trace : List LoopEvent) : List Fd :=
  trace.filterMap fun
    | .started other _ run fd _ => if other = li ∧ run = proc then some fd else none
    | _ => none

/-- What is queued later comes behind what has been queued before. -/
theorem queuedFds_append (li : Ptr) (trace extra : List LoopEvent) :
    queuedFds li (trace ++ extra) = queuedFds li trace ++ queuedFds li extra :=
  List.filterMap_append

/-- A coroutine started later comes behind those that have been started before. -/
theorem startedFds_append (li proc : Ptr) (trace extra : List LoopEvent) :
    startedFds li proc (trace ++ extra) = startedFds li proc trace ++ startedFds li proc extra :=
  List.filterMap_append

namespace World

/-- The nodes of a listener that are still to be started, as one may already be running. -/
def pending (w : World) (li : Ptr) : List Ptr :=
  if li ∈ w.listenList then
    match w.pc with
    | .queueRun ent _ _ => if ent = li then (w.listens li).fdList.tail else (w.listens li).fdList
    | _ => (w.listens li).fdList
  else []

/-- All the nodes that are on some list. -/
def listed (w : World) : List Ptr :=
  w.listenList.flatMap (fun li => (w.listens li).fdList) ++ w.freeFdList

/-- The walk over the listeners has come to this one, and has emptied all the queues before it. -/
def Walked (w : World) (li : Ptr) : Prop :=
  ∃ done todo, w.listenList = done ++ li :: todo ∧ ∀ other ∈ done, (w.listens other).fdList = []

/-- In the queue phase the two pointers of the loop stand where the lists begin. -/
def Position (w : World) : Prop :=
  match w.pc with
  | .queue ent => ∃ done todo, w.listenList = done ++ todo ∧ ent = todo.head? ∧
      ∀ other ∈ done, (w.listens other).fdList = []
  | .queueFd li enf => w.Walked li ∧ enf = (w.listens li).fdList.head?
  | .queueRun li qf enf => w.Walked li ∧
      ∃ rest, (w.listens li).fdList = qf :: rest ∧ enf = rest.head?
  | _ => True

end World

/-- Places where the loop has no pointer into a queue, and the set-up is over. -/
def Pc.Passive : Pc → Prop
  | .associate _ | .wait | .dispatch _ | .accept _ _ | .exitQueue | .shrink | .halted _ => True
  | .setUp | .queue _ | .queueFd _ _ | .queueRun _ _ _ => False

/-- What is always true of the queues and their nodes. -/
structure QueueInv (w : World) : Prop where
  order : ∀ li, queuedFds li w.trace =
    startedFds li (w.listens li).efProc w.trace ++ (w.pending li).map w.queueFds
  nodes : w.listed.Perm w.nodes
  nodup : w.nodes.Nodup
  position : w.Position
  fresh : w.pc = .setUp → ∀ li, queuedFds li w.trace = [] ∧ ∀ proc, startedFds li proc w.trace = []

namespace QueueInv

variable {w : World}

/-- The queues stay in order when only the place of the system thread and other records change. -/
theorem congr (inv : QueueInv w) {after : World}
    (lists : ∀ li, (after.listens li).fdList = (w.listens li).fdList)
    (procs : ∀ li, (after.listens li).efProc = (w.listens li).efProc)
    (listenList : after.listenList = w.listenList) (queueFds : after.queueFds = w.queueFds)
    (free : after.freeFdList = w.freeFdList) (nodes : after.nodes = w.nodes)
    (queued : ∀ li, queuedFds li after.trace = queuedFds li w.trace)
    (started : ∀ li proc, startedFds li proc after.trace = startedFds li proc w.trace)
    (pending : ∀ li, after.pending li = w.pending li) (position : after.Position)
    (fresh : after.pc = .setUp → w.pc = .setUp) : QueueInv after := by
  -- Every condition is stated through what is the same before and after.
  refine ⟨?_, ?_, nodes ▸ inv.nodup, position, ?_⟩
  · intro li
    rw [queued, started, procs, pending, queueFds]
    exact inv.order li
  · have same : after.listed = w.listed := by
      simp only [World.listed, lists, listenList, free]
    rw [same, nodes]
    exact inv.nodes
  · intro setUp li
    rw [queued]
    refine ⟨(inv.fresh (fresh setUp) li).1, fun proc => ?_⟩
    rw [started]
    exact (inv.fresh (fresh setUp) li).2 proc

/-- Outside the start of a coroutine nothing is taken off a queue in advance. -/
theorem pending_idle {li : Ptr} (idle : ∀ ent qf enf, w.pc ≠ .queueRun ent qf enf) :
    w.pending li = if li ∈ w.listenList then (w.listens li).fdList else [] := by
  -- The queue is shorter than what it shows only while a coroutine is being started.
  unfold World.pending
  split
  · split
    · rename_i at_
      exact absurd at_ (idle _ _ _)
    · rfl
  · rfl

/-- Steps that only move the system thread on take nothing off a queue in advance. -/
theorem pending_jump {op : LoopOp} {pc : Pc} (move : Jump w op pc) {li : Ptr} :
    { w with pc := pc }.pending li = w.pending li := by
  -- No jump begins or ends at the start of a coroutine.
  have idle : ∀ ent qf enf, w.pc ≠ .queueRun ent qf enf := by
    cases move <;> simp_all
  have later : ∀ ent qf enf, pc ≠ .queueRun ent qf enf := by
    cases move <;> simp
  rw [pending_idle idle, pending_idle later]

/-- What is pending depends on the queues and on the place of the system thread only. -/
theorem pending_congr {after : World} (pc : after.pc = w.pc)
    (listenList : after.listenList = w.listenList)
    (lists : ∀ li, (after.listens li).fdList = (w.listens li).fdList) (li : Ptr) :
    after.pending li = w.pending li := by
  -- The definition mentions nothing else.
  simp only [World.pending, pc, listenList, lists]

/-- The queues stay in order on the way from one passive place to another. -/
theorem passes (inv : QueueInv w) (before : w.pc.Passive) {after : World}
    (later : after.pc.Passive)
    (lists : ∀ li, (after.listens li).fdList = (w.listens li).fdList)
    (procs : ∀ li, (after.listens li).efProc = (w.listens li).efProc)
    (listenList : after.listenList = w.listenList) (queueFds : after.queueFds = w.queueFds)
    (free : after.freeFdList = w.freeFdList) (nodes : after.nodes = w.nodes)
    (queued : ∀ li, queuedFds li after.trace = queuedFds li w.trace)
    (started : ∀ li proc, startedFds li proc after.trace = startedFds li proc w.trace) :
    QueueInv after := by
  -- At a passive place the walk has no position, and nothing has been taken off.
  have idle : ∀ {w : World}, w.pc.Passive → ∀ ent qf enf, w.pc ≠ .queueRun ent qf enf := by
    intro w passive ent qf enf at_
    rw [at_] at passive
    exact passive
  refine inv.congr lists procs listenList queueFds free nodes queued started ?_ ?_ ?_
  · intro li
    rw [pending_idle (idle before), pending_idle (idle later), lists, listenList]
  · unfold World.Position
    split <;> rename_i at_ <;> first | (rw [at_] at later; exact later.elim) | trivial
  · intro setUp
    rw [setUp] at later
    exact later.elim

/-- Steps that only move the system thread on keep the queues in order. -/
theorem jump (inv : QueueInv w) (loop : WorldInv w) {op : LoopOp} {pc : Pc} (move : Jump w op pc) :
    QueueInv { w with pc := pc } := by
  -- The queues are the same, so only the position of the walk needs a look.
  refine inv.congr (fun _ => rfl) (fun _ => rfl) rfl rfl rfl rfl (fun _ => rfl) (fun _ _ => rfl)
    (fun _ => pending_jump move) ?_ ?_
  · have position := inv.position
    cases move with
    | interrupted | dispatched => exact ⟨[], w.listenList, rfl, rfl, by simp⟩
    | opens li at_ =>
      simp only [World.Position, at_] at position
      obtain ⟨done, todo, shape, first, empty⟩ := position
      -- The listener is the first of those that the walk has not met.
      cases todo with
      | nil => cases first
      | cons other todo =>
        obtain rfl := Option.some.inj first
        exact ⟨⟨done, todo, shape, empty⟩, rfl⟩
    | closes li at_ =>
      simp only [World.Position, at_] at position
      obtain ⟨⟨done, todo, shape, empty⟩, none_left⟩ := position
      have apart : li ∉ done := by
        have nodup := loop.nodup
        rw [shape, List.nodup_middle] at nodup
        exact fun member => (List.nodup_cons.mp nodup).1 (List.mem_append_left _ member)
      refine ⟨done ++ [li], todo, by simp [shape], ?_, ?_⟩
      · rw [shape, entryAfter_split apart]
      · intro other member
        rcases List.mem_append.mp member with member | member
        · exact empty other member
        · obtain rfl := List.mem_singleton.mp member
          exact List.head?_eq_none_iff.mp none_left.symm
    | unlisted | enters | fails | associated | broken | reported | accepted | accepts | started
    | exhausted | goesOn => trivial
  · intro setUp
    cases move with
    | unlisted _ _ _ _ at_ => exact at_
    | enters | fails | associated | interrupted | broken | reported | accepted | dispatched
    | accepts
    | started | opens | closes | exhausted | goesOn => cases setUp

/-- Listening on another socket adds an empty queue. -/
theorem listened (inv : QueueInv w) {socket : Fd} {proc li : Ptr} (at_ : w.pc = .setUp)
    (unlisted : li ∉ w.listenList) : QueueInv (w.listened socket proc li) := by
  -- Nothing has been queued or started before the loop.
  have others : ∀ other ∈ w.listenList, Function.update w.listens li
      ⟨⟨.listen, socket, 0, 0⟩, proc, []⟩ other = w.listens other := by
    intro other member
    have apart : other ≠ li := fun same => unlisted (same ▸ member)
    rw [Function.update_of_ne apart]
  have idle : ∀ ent qf enf, w.pc ≠ .queueRun ent qf enf := by simp [at_]
  have later : ∀ ent qf enf, (w.listened socket proc li).pc ≠ .queueRun ent qf enf := idle
  have quiet : ∀ other, queuedFds other (w.listened socket proc li).trace = [] ∧
      ∀ run, startedFds other run (w.listened socket proc li).trace = [] := by
    intro other
    obtain ⟨queued, started⟩ := inv.fresh at_ other
    simp only [queuedFds, startedFds, World.listened, List.filterMap_append] at queued started ⊢
    exact ⟨by simp [queued], fun run => by simp [started run]⟩
  refine ⟨?_, ?_, inv.nodup, ?_, fun _ => quiet⟩
  · intro other
    have order := inv.order other
    rw [pending_idle idle, (inv.fresh at_ other).1, (inv.fresh at_ other).2] at order
    rw [pending_idle later, (quiet other).1, (quiet other).2]
    simp only [World.listened, List.mem_cons]
    by_cases same : other = li
    · simp [same]
    · by_cases member : other ∈ w.listenList
      · simpa [same, member, others other member] using order
      · simp [same, member]
  · -- The new queue is empty and the others are as before.
    have lists :
        w.listenList.flatMap (fun other => ((w.listened socket proc li).listens other).fdList)
        = w.listenList.flatMap fun other => (w.listens other).fdList := by
      refine List.flatMap_congr fun other member => ?_
      simp [World.listened, others other member]
    have first : ((w.listened socket proc li).listens li).fdList = [] := by simp [World.listened]
    have listed : (w.listened socket proc li).listed = w.listed := by
      simp only [World.listed]
      rw [show (w.listened socket proc li).listenList = li :: w.listenList from rfl,
        List.flatMap_cons, first, lists]
      rfl
    rw [listed]
    exact inv.nodes
  · simp only [World.Position, World.listened, at_]

/-- A node that is new, or was on the free list, stands on no queue. -/
theorem unqueued {qf : Ptr} {free nodes : List Ptr}
    (found :
      (w.listenList.flatMap (fun other => (w.listens other).fdList) ++ qf :: free).Perm nodes)
    (nodup : nodes.Nodup) (other : Ptr) (member : other ∈ w.listenList) :
    qf ∉ (w.listens other).fdList := by
  -- All nodes are different, those on the queues and the others.
  intro inside
  have distinct := found.nodup_iff.mpr nodup
  rw [List.nodup_append] at distinct
  exact distinct.2.2 qf (List.mem_flatMap.mpr ⟨other, member, inside⟩) qf List.mem_cons_self rfl

/-- The first of the free nodes is still one of all the nodes when it has been taken off. -/
theorem reused (inv : QueueInv w) {qf : Ptr} {rest : List Ptr} (shape : w.freeFdList = qf :: rest) :
    (w.listenList.flatMap (fun other => (w.listens other).fdList) ++ qf :: rest).Perm w.nodes := by
  -- The free list is known to begin with this node.
  have nodes := inv.nodes
  rw [World.listed, shape] at nodes
  exact nodes

/-- A node that is allocated is one node more. -/
theorem allocated (inv : QueueInv w) (empty : w.freeFdList = []) (qf : Ptr) :
    (w.listenList.flatMap (fun other => (w.listens other).fdList) ++ qf :: w.freeFdList).Perm
      (qf :: w.nodes) := by
  -- Without free nodes the new one is the only one that is on no queue.
  have nodes := inv.nodes
  rw [World.listed, empty, List.append_nil] at nodes
  rw [empty]
  exact List.perm_append_comm.trans (nodes.cons qf)

/-- A new connection goes to the end of its queue, on a node that was on no queue. -/
theorem enqueued (inv : QueueInv w) (loop : WorldInv w) {li : Ptr} {batch : List Event}
    (at_ : w.pc = .accept li batch) (fd : Fd) {qf : Ptr} {free nodes : List Ptr}
    (found :
      (w.listenList.flatMap (fun other => (w.listens other).fdList) ++ qf :: free).Perm nodes)
    (nodup : nodes.Nodup) :
    QueueInv ({ w.opened fd with freeFdList := free, nodes := nodes }.enqueue li qf fd) := by
  have listed : li ∈ w.listenList := loop.listener li (by rw [at_]; rfl)
  have idle : ∀ ent qf enf, w.pc ≠ .queueRun ent qf enf := by simp [at_]
  -- The node stands on no queue, so writing to it changes no queued descriptor.
  have unused := unqueued found nodup
  refine ⟨?_, ?_, nodup, ?_, ?_⟩
  · intro other
    have order := inv.order other
    rw [pending_idle idle] at order
    have later : ∀ ent qf' enf,
        ({ w.opened fd with freeFdList := free, nodes := nodes }.enqueue li qf fd).pc ≠
          .queueRun ent qf' enf := idle
    rw [pending_idle later]
    have kept : ∀ queue : List Ptr, qf ∉ queue →
        queue.map (Function.update w.queueFds qf fd) = queue.map w.queueFds := by
      intro queue away
      refine List.map_congr_left fun node member => ?_
      have apart : node ≠ qf := fun same => away (same ▸ member)
      rw [Function.update_of_ne apart]
    simp only [World.enqueue, World.modifyListen, World.opened, World.withKernel,
      Function.update_apply]
    by_cases same : other = li
    · subst same
      simp only [listed, if_true] at order ⊢
      rw [List.map_append, kept _ (unused other listed), ← List.append_assoc]
      simp only [queuedFds, startedFds, List.filterMap_append] at order ⊢
      rw [order]
      simp
    · simp only [same, if_false]
      by_cases member : other ∈ w.listenList
      · simp only [member, if_true] at order ⊢
        rw [kept _ (unused other member)]
        simpa [queuedFds, startedFds, Ne.symm same] using order
      · simp only [member, if_false] at order ⊢
        simpa [queuedFds, startedFds, Ne.symm same] using order
  · -- Counted node by node, the lists have one node more, which is the one that was found.
    let after := { w.opened fd with freeFdList := free, nodes := nodes }.enqueue li qf fd
    have same : ∀ other, other ≠ li → (after.listens other).fdList = (w.listens other).fdList := by
      intro other apart
      simp [after, World.enqueue, World.modifyListen, World.opened, World.withKernel,
        Function.update_of_ne apart]
    have own : (after.listens li).fdList = (w.listens li).fdList ++ [qf] := by
      simp [after, World.enqueue, World.modifyListen, World.opened, World.withKernel]
    have grown := flatMap_perm_change loop.nodup listed same
    have before := flatMap_perm_erase listed fun other => (w.listens other).fdList
    rw [own] at grown
    refine List.Perm.trans ?_ found
    rw [List.perm_iff_count]
    intro node
    have counted := grown.count_eq node
    have known := before.count_eq node
    show List.count node
        (w.listenList.flatMap (fun other => (after.listens other).fdList) ++ free) =
      _
    simp only [List.count_append, List.count_cons, List.count_nil] at counted known ⊢
    omega
  · simp only [World.Position, World.enqueue, World.modifyListen, World.opened, World.withKernel,
      at_]
  · simp [World.enqueue, World.modifyListen, World.opened, World.withKernel, at_]

/-- Starting a coroutine takes its descriptor off the head of the queue. -/
theorem starts (inv : QueueInv w) {li qf : Ptr} (at_ : w.pc = .queueFd li (some qf)) (pool : Pool)
    (er : Ptr) : QueueInv (w.started li qf pool er) := by
  have idle : ∀ ent qf enf, w.pc ≠ .queueRun ent qf enf := by simp [at_]
  have position := inv.position
  simp only [World.Position, at_] at position
  obtain ⟨walked, first⟩ := position
  -- The queue begins with the node that is started.
  obtain ⟨rest, shape⟩ : ∃ rest, (w.listens li).fdList = qf :: rest :=
    List.head?_eq_some_iff.mp first.symm
  refine ⟨?_, inv.nodes, inv.nodup, ?_, fun setUp => by cases setUp⟩
  · intro other
    have order := inv.order other
    rw [pending_idle idle] at order
    -- Of this queue the first connection is started now, and the others are not concerned.
    obtain ⟨done, todo, list, _⟩ := walked
    by_cases same : other = li
    · subst same
      have listed : other ∈ w.listenList := by simp [list]
      simp only [World.pending, World.started, listed, if_true, shape, List.map_cons,
        List.tail_cons] at order ⊢
      simp only [queuedFds, startedFds, List.filterMap_append] at order ⊢
      simpa using order
    · simp only [World.pending, World.started, Ne.symm same, if_false]
      simpa [queuedFds, startedFds, Ne.symm same] using order
  · refine ⟨walked, rest, shape, ?_⟩
    rw [shape]
    simp [entryAfter]

/-- Moving a started node to the free nodes keeps the queues in order. -/
theorem recycles (inv : QueueInv w) (loop : WorldInv w) {li qf : Ptr} {enf : Option Ptr}
    (at_ : w.pc = .queueRun li qf enf) : QueueInv (w.recycled li qf enf) := by
  -- The node is the first of its queue, and its coroutine has been started.
  have position := inv.position
  simp only [World.Position, at_] at position
  obtain ⟨⟨done, todo, list, empty⟩, rest, shape, next⟩ := position
  have listed : li ∈ w.listenList := by simp [list]
  have later : ∀ ent qf' enf', (w.recycled li qf enf).pc ≠ .queueRun ent qf' enf' := by
    simp [World.recycled]
  have same : ∀ other, other ≠ li →
      (w.recycled li qf enf).listens other = w.listens other := by
    intro other apart
    simp [World.recycled, World.modifyListen, Function.update_of_ne apart]
  have own : ((w.recycled li qf enf).listens li).fdList = rest := by
    simp [World.recycled, World.modifyListen, shape]
  have proc :
      ∀ other, ((w.recycled li qf enf).listens other).efProc = (w.listens other).efProc := by
    intro other
    by_cases here : other = li
    · simp [World.recycled, World.modifyListen, here]
    · rw [same other here]
  refine ⟨?_, ?_, inv.nodup, ?_, fun setUp => by cases setUp⟩
  · intro other
    have order := inv.order other
    rw [pending_idle later, proc]
    show queuedFds other w.trace = startedFds other (w.listens other).efProc w.trace ++
      (if other ∈ w.listenList then ((w.recycled li qf enf).listens other).fdList else []).map
        w.queueFds
    by_cases here : other = li
    · subst here
      rw [own]
      simpa [World.pending, at_, listed, shape] using order
    · rw [same other here]
      simpa [World.pending, at_, Ne.symm here] using order
  · -- Counted node by node, the queue loses what the free list gets.
    have shrunk := flatMap_perm_change loop.nodup listed fun other apart =>
      congrArg ListenInfo.fdList (same other apart)
    have before := flatMap_perm_erase listed fun other => (w.listens other).fdList
    rw [own] at shrunk
    rw [shape] at before
    refine List.Perm.trans ?_ inv.nodes
    rw [List.perm_iff_count]
    intro node
    have counted := shrunk.count_eq node
    have known := before.count_eq node
    show List.count node (w.listenList.flatMap
      (fun other => ((w.recycled li qf enf).listens other).fdList) ++ qf :: w.freeFdList) =
        List.count node
          (w.listenList.flatMap (fun other => (w.listens other).fdList) ++ w.freeFdList)
    simp only [List.count_append, List.count_cons] at counted known ⊢
    omega
  · refine ⟨⟨done, todo, list, ?_⟩, ?_⟩
    · intro other member
      -- The listeners that have been met come before this one.
      have apart : other ≠ li := by
        rintro rfl
        have nodup := loop.nodup
        rw [list, List.nodup_middle] at nodup
        exact (List.nodup_cons.mp nodup).1 (List.mem_append_left _ member)
      rw [same other apart]
      exact empty other member
    · rw [own]
      exact next

/-- Closing a listening socket keeps the queues in order. -/
theorem closeListen (inv : QueueInv w) (at_ : w.pc = .exitQueue) (li : Ptr) :
    QueueInv (w.closeListen li) := by
  -- The queues outlast the sockets.
  by_cases open_ : (w.listens li).pollData.fd ≥ 0
  · have lists := (w.closeListen_lists li).2
    have procs : ∀ other, ((w.closeListen li).listens other).efProc = (w.listens other).efProc := by
      intro other
      rw [World.closeListen, if_pos open_]
      by_cases here : other = li
      · simp [World.modifyListen, World.withKernel, here]
      · simp [World.modifyListen, World.withKernel, Function.update_of_ne here]
    rw [World.closeListen, if_pos open_] at lists procs ⊢
    refine inv.congr lists procs rfl rfl rfl rfl ?_ ?_ (pending_congr rfl rfl lists) ?_ ?_
    · intro other
      simp [World.modifyListen, World.withKernel, queuedFds]
    · intro other proc
      simp [World.modifyListen, World.withKernel, startedFds]
    · simp only [World.Position, World.modifyListen, World.withKernel, at_]
    · exact fun setUp => absurd (at_.symm.trans setUp) (by simp)
  · rw [World.closeListen, if_neg open_]
    exact inv

/-- Freeing a listener without queued connections keeps the queues in order. -/
theorem freeListen (inv : QueueInv w) (at_ : w.pc = .exitQueue) (li : Ptr) (loop : WorldInv w) :
    QueueInv (w.freeListen li) := by
  -- A listener without connections leaves, and the order of the others is the same.
  unfold World.freeListen
  split
  · rename_i empty
    have idle : ∀ ent qf enf, w.pc ≠ .queueRun ent qf enf := by simp [at_]
    refine ⟨?_, ?_, inv.nodup, ?_, fun setUp => absurd (at_.symm.trans setUp) (by simp)⟩
    · intro other
      have order := inv.order other
      rw [pending_idle idle] at order
      have later : ∀ ent qf enf, { w with
          listenList := w.listenList.erase li
          trace := w.trace ++ [LoopEvent.listenFreed li] }.pc ≠ .queueRun ent qf enf := idle
      rw [pending_idle later]
      simp only [loop.nodup.mem_erase_iff]
      by_cases here : other = li
      · simpa [here, empty, queuedFds, startedFds] using order
      · simpa [here, queuedFds, startedFds] using order
    · -- The listener that leaves has no nodes to take with it.
      have left : (w.listenList.erase li |>.flatMap fun other => (w.listens other).fdList).Perm
          (w.listenList.flatMap fun other => (w.listens other).fdList) := flatMap_perm_leave empty
      exact (left.append_right w.freeFdList).trans inv.nodes
    · simp only [World.Position, at_]
  · exact inv

/-- The loop that closes the listening sockets keeps the queues in order. -/
theorem stopListens (inv : QueueInv w) (loop : WorldInv w)
    (idle : efCoroutineCurrent w.machine.pool = none) (at_ : w.pc = .exitQueue) :
    QueueInv w.stopListens := by
  -- Each turn closes a socket and perhaps frees the listener.
  have turn : ∀ {w : World} {li : Ptr}, WorldInv w → efCoroutineCurrent w.machine.pool = none →
      w.pc = .exitQueue → li ∈ w.listenList → QueueInv w → QueueInv (w.stopListen li) := by
    intro w li loop idle at_ _ inv
    obtain ⟨_, pc⟩ := w.closeListen_frame li
    exact (inv.closeListen at_ li).freeListen (pc.trans at_) li (loop.closeListen idle at_ li).1
  exact (WorldInv.foldl_stopListen turn loop idle at_ loop.nodup (fun _ member => member) inv).2.2.2

/-- Freeing the unused nodes leaves exactly the queued ones. -/
theorem freeNodes (inv : QueueInv w) (at_ : w.pc = .exitQueue) : QueueInv w.freeNodes := by
  -- Taking the free nodes out of all nodes leaves those on the queues.
  refine ⟨inv.order, ?_, inv.nodup.diff, ?_, fun setUp => absurd (at_.symm.trans setUp) (by simp)⟩
  · have left := perm_diff_of_append inv.nodes
    simpa [World.listed, World.freeNodes] using left
  · simp only [World.Position, World.freeNodes, at_]

/-- The code behind the label `exit_queue` keeps the queues in order. -/
theorem exitQueue (inv : QueueInv w) (loop : WorldInv w)
    (idle : efCoroutineCurrent w.machine.pool = none) (at_ : w.pc = .exitQueue) :
    QueueInv w.exitQueue := by
  -- The sockets are closed first, and then the free nodes are freed.
  unfold World.exitQueue
  split
  · obtain ⟨_, _, pc⟩ := loop.stopListens idle at_
    have freed := (inv.stopListens loop idle at_).freeNodes pc
    have passive : w.stopListens.freeNodes.pc.Passive := by
      simp only [World.freeNodes, pc]
      trivial
    simp only
    split
    · refine freed.passes passive trivial (fun _ => rfl) (fun _ => rfl) rfl rfl rfl rfl ?_ ?_
      · intro li
        simp [World.withPool, World.withKernel, queuedFds]
      · intro li proc
        simp [World.withPool, World.withKernel, startedFds]
    · exact freed.passes passive trivial (fun _ => rfl) (fun _ => rfl) rfl rfl rfl rfl
        (fun _ => rfl) (fun _ _ => rfl)
  · rename_i running
    exact inv.jump loop (.goesOn at_ (by simpa using running))

/-- Every move of the loop keeps the queues in order. -/
theorem loopMove (inv : QueueInv w) (loop : WorldInv w)
    (idle : efCoroutineCurrent w.machine.pool = none) {op : LoopOp} {after : World}
    (move : LoopMove w op after) : QueueInv after := by
  -- The moves are taken one by one, and most of them pass by the queues.
  cases move with
  | jumps pc move => exact inv.jump loop move
  | listens socket proc setfl li at_ numbered unlisted => exact inv.listened at_ unlisted
  | associates li refusal at_ opened absent =>
    exact inv.passes (by rw [at_]; trivial) trivial (fun _ => rfl) (fun _ => rfl) rfl rfl rfl rfl
      (fun _ => rfl) (fun _ _ => rfl)
  | refuses li batch fd answers at_ unused =>
    exact inv.passes (by rw [at_]; trivial) trivial (fun _ => rfl) (fun _ => rfl) rfl rfl rfl rfl
      (fun _ => rfl) (fun _ _ => rfl)
  | drops li batch fd answers at_ unused =>
    exact inv.passes (by rw [at_]; trivial) trivial (fun _ => rfl) (fun _ => rfl) rfl rfl rfl rfl
      (fun _ => rfl) (fun _ _ => rfl)
  | reuses li batch fd answers qf rest at_ unused shape =>
    exact inv.enqueued loop at_ fd (inv.reused shape) inv.nodup
  | allocates li batch fd answers qf at_ unused empty new =>
    exact inv.enqueued loop at_ fd (inv.allocated empty qf) (List.nodup_cons.mpr ⟨new, inv.nodup⟩)
  | wakes er event batch at_ points =>
    exact inv.passes (by rw [at_]; trivial) trivial (fun _ => rfl) (fun _ => rfl) rfl rfl rfl rfl
      (fun _ => rfl) (fun _ _ => rfl)
  | starts li qf mapped pool er at_ effect => exact inv.starts at_ pool er
  | recycles li qf enf at_ => exact inv.recycles loop at_
  | stops at_ stopping => exact inv.exitQueue loop idle at_
  | shrinks at_ =>
    unfold World.shrink
    simp only
    split <;> exact inv.passes (by rw [at_]; trivial) trivial (fun _ => rfl) (fun _ => rfl) rfl rfl
      rfl rfl (fun _ => rfl) (fun _ _ => rfl)

/-- Every step keeps the queues in order, provided the kernel maps unused memory. -/
theorem step (inv : QueueInv w) (loop : WorldInv w) {label : Label} (kernel : KernelOk w label)
    {after : World} (stepped : SimpleSrv.Ef.step w label = some after) : QueueInv after := by
  -- The labels are taken one by one.
  cases label with
  | tick now =>
    obtain rfl := Option.some.inj stepped
    exact inv.congr (fun _ => rfl) (fun _ => rfl) rfl rfl rfl rfl (fun _ => rfl) (fun _ _ => rfl)
      (fun _ => rfl) inv.position id
  | stop =>
    obtain rfl := Option.some.inj stepped
    exact inv.congr (fun _ => rfl) (fun _ => rfl) rfl rfl rfl rfl (fun _ => rfl) (fun _ _ => rfl)
      (fun _ => rfl) inv.position id
  | loop op =>
    obtain ⟨idle, stepped⟩ := Option.ite_none_right_eq_some.mp stepped
    have fresh : ∀ mapped, op = .start mapped → w.machine.pool.Fresh mapped := by
      rintro mapped rfl
      exact kernel
    exact inv.loopMove loop idle (loop.loopStep_move idle fresh stepped)
  | handler op =>
    obtain ⟨machine, moved, rfl⟩ := Option.map_eq_some_iff.mp stepped
    obtain ⟨er, _, _, _, current, _, _⟩ := loop.machine.handlerStep_move moved
    -- A handler leaves only the event of its exit.
    have exits : ∀ event ∈ w.machine.exitedEvents op, ∃ er run, event = .exited er run := by
      intro event member
      cases op with
      | ret retval =>
        simp only [Machine.exitedEvents, current, List.mem_singleton] at member
        exact ⟨_, _, member⟩
      | transfer | connect | goOn | close | socket => simp [Machine.exitedEvents] at member
    refine inv.congr (fun _ => rfl) (fun _ => rfl) rfl rfl rfl rfl ?_ ?_ (fun _ => rfl)
      inv.position id
    · intro li
      have none_queued : queuedFds li (w.machine.exitedEvents op) = [] := by
        rw [queuedFds, List.filterMap_eq_nil_iff]
        intro event member
        obtain ⟨_, _, rfl⟩ := exits event member
        rfl
      rw [queuedFds_append, none_queued, List.append_nil]
    · intro li proc
      have none_started : startedFds li proc (w.machine.exitedEvents op) = [] := by
        rw [startedFds, List.filterMap_eq_nil_iff]
        intro event member
        obtain ⟨_, _, rfl⟩ := exits event member
        rfl
      rw [startedFds_append, none_started, List.append_nil]

/-- Before the loop there are no connections and no nodes. -/
theorem initial (setting : Setting) : QueueInv setting.world :=
  ⟨fun _ => rfl, .nil, .nil, trivial, fun _ _ => ⟨rfl, fun _ => rfl⟩⟩

end QueueInv

/-- What holds of the loop and of its queues. -/
structure ServerInv (w : World) : Prop where
  loop : WorldInv w
  queues : QueueInv w

/-- The loop and its queues are in order throughout every run. -/
theorem Setting.inv (setting : Setting) {labels : List Label} {w : World}
    (run : Run step KernelOk setting.world labels w) : ServerInv w :=
  -- Each step preserves both parts, so the whole run does.
  run.invariant ⟨.initial setting, .initial setting⟩ fun _ _ _ inv kernel stepped =>
    ⟨inv.loop.step kernel stepped, inv.queues.step inv.loop kernel stepped⟩

/--
Accepted connections are started exactly once and in accept order, over every run of the loop.

At an iteration boundary the connections of a listener not started yet are exactly its queue.
At any time each allocated node is on exactly one list.
Handlers may do whatever they like, and every call may fail.
-/
theorem accepted_started_in_order (setting : Setting) {labels : List Label} {w : World}
    (run : Run step KernelOk setting.world labels w) :
    (w.listed.Perm w.nodes ∧ w.nodes.Nodup) ∧
      (w.pc = .wait → ∀ li, queuedFds li w.trace =
        startedFds li (w.listens li).efProc w.trace ++
          if li ∈ w.listenList then (w.listens li).fdList.map w.queueFds else []) := by
  -- At the boundary no coroutine is being started, so the pending nodes are those of the queue.
  obtain ⟨_, inv⟩ := setting.inv run
  refine ⟨⟨inv.nodes, inv.nodup⟩, fun boundary li => ?_⟩
  have idle : ∀ ent qf enf, w.pc ≠ .queueRun ent qf enf := by simp [boundary]
  rw [inv.order, QueueInv.pending_idle idle]
  split <;> rfl

/-- A setting for two coroutines, on empty memory. -/
def twoCoroutines : Setting where
  stackSize := 4096
  limitMin := 0
  limitMax := 2
  shrinkMillisecs := 1000
  countPerShrink := 1
  threadFiber := 100
  fibers := fun _ => ⟨fiberStatusExited, 0, none⟩
  coroutines := fun _ => ⟨⟨0, 0⟩, 0⟩
  routines := fun _ => ⟨⟨.rwc, 0, 0, 0⟩, 0, .idle, ⟨0, 0⟩, 0, false⟩
  listens := fun _ => ⟨⟨.listen, 0, 0, 0⟩, 0, []⟩
  queueFds := fun _ => 0
  opened := fun _ => false
  clock := ⟨0, 0⟩
  unused := by simp [fiberStatusExited, fiberStatusInited]

/-- Steps that depend on nothing outside, as many as these. -/
def advances (count : Nat) : List Label := List.replicate count (.loop .advance)

/-- One listener on descriptor 3, associated, and the loop at its first wait. -/
def oneListener : List Label :=
  [.loop (.addListen 3 77 0 (some 200)), .loop .run, .loop (.associate none), .loop .advance]

/-- Two connections are accepted, and memory for a coroutine is found for the first one only. -/
theorem accepted_started_in_order_half :
    ∃ w, Run step KernelOk twoCoroutines.world (oneListener ++
        [.loop (.wait (.reported [(3, 1)])), .loop .advance,
          .loop (.accept (.accepted 5 ⟨true, 0, some 300⟩)),
          .loop (.accept (.accepted 6 ⟨false, 0, some 301⟩)), .loop (.accept .failed)] ++
        advances 2 ++ [.loop (.start (some 400)), .handler (.transfer .read 5 none ⟨0, 0⟩),
          .loop .advance, .loop (.start none)] ++ advances 2) w ∧
      w.pc = .wait ∧ queuedFds 200 w.trace = [5, 6] ∧ startedFds 200 77 w.trace = [5] ∧
      w.listed.Perm w.nodes := by
  -- The run is computed as far as its events go, and the rest is the theorem.
  have facts : (execute step KernelOk twoCoroutines.world (oneListener ++
      [.loop (.wait (.reported [(3, 1)])), .loop .advance,
        .loop (.accept (.accepted 5 ⟨true, 0, some 300⟩)),
        .loop (.accept (.accepted 6 ⟨false, 0, some 301⟩)), .loop (.accept .failed)] ++
      advances 2 ++ [.loop (.start (some 400)), .handler (.transfer .read 5 none ⟨0, 0⟩),
        .loop .advance, .loop (.start none)] ++ advances 2)).map (fun w =>
          (w.pc, queuedFds 200 w.trace, startedFds 200 77 w.trace)) =
        some (.wait, [5, 6], [5]) := by
    decide
  obtain ⟨w, ran, same⟩ := Option.map_eq_some_iff.mp facts
  simp only [Prod.mk.injEq] at same
  exact ⟨w, .of_execute ran, same.1, same.2.1, same.2.2,
    (accepted_started_in_order twoCoroutines (.of_execute ran)).1.1⟩

end SimpleSrv.Ef
