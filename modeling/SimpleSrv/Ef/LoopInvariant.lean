import SimpleSrv.Ef.LoopMoves

/-! The loop invariant holds through every step of the loop and of the handlers. -/

namespace SimpleSrv.Ef

namespace BatchOk

variable {m : Machine} {listenList : List Ptr} {batch : List Event} {event : Event}

/-- What is left of a batch stays in order. -/
theorem tail (ok : BatchOk m listenList (event :: batch)) : BatchOk m listenList batch :=
  ⟨fun other member => ok.listens other (List.mem_cons_of_mem _ member),
    fun other member => ok.waits other (List.mem_cons_of_mem _ member),
    (List.pairwise_cons.mp ok.apart).2⟩

/-- A batch stays in order as long as none of its coroutines is touched. -/
theorem congr (ok : BatchOk m listenList batch) {after : Machine}
    (kept : ∀ event ∈ batch, ∀ er, event.ptr = .routine er → m.pool.Busy er →
      efCoroutineCurrent m.pool ≠ some er → after.pool.Busy er ∧
        efCoroutineCurrent after.pool ≠ some er ∧ after.routines er = m.routines er) :
    BatchOk after listenList batch := by
  -- Each event of the batch is still for a coroutine that waits as before.
  refine ⟨ok.listens, ?_, ok.apart⟩
  intro event member er points
  obtain ⟨busy, idle, waits⟩ := ok.waits event member er points
  obtain ⟨busy, idle, same⟩ := kept event member er points busy idle
  exact ⟨busy, idle, same ▸ waits⟩

/-- The events of one report are for different coroutines, each in the wait that registered it. -/
theorem reported (inv : MachineInv m) (loop : efCoroutineCurrent m.pool = none)
    (listening : ∀ fd entry li, m.kernel.interest fd = some entry → entry.ptr = .listen li →
      li ∈ listenList) {count : Nat} {ready : List (Fd × Nat)}
    (reports : m.kernel.Reports count ready) :
    BatchOk m listenList (efEpollWait m.kernel ready) := by
  -- Every event stands for one report, and carries the entry of its descriptor.
  obtain ⟨_, distinct, _⟩ := reports
  have registered : ∀ {report : Fd × Nat} {event : Event},
      (m.kernel.interest report.1).map
        (fun entry => (⟨report.2, entry.ptr, entry.ticket⟩ : Event)) = some event →
      ∃ entry, m.kernel.interest report.1 = some entry ∧ entry.ptr = event.ptr ∧
        entry.ticket = event.ticket := by
    intro report event same
    obtain ⟨entry, found, rfl⟩ := Option.map_eq_some_iff.mp same
    exact ⟨entry, found, rfl, rfl⟩
  refine ⟨?_, ?_, ?_⟩
  · intro event member li points
    obtain ⟨report, _, same⟩ := List.mem_filterMap.mp member
    obtain ⟨entry, found, ptr, _⟩ := registered same
    exact listening report.1 entry li found (ptr.trans points)
  · intro event member er points
    obtain ⟨report, _, same⟩ := List.mem_filterMap.mp member
    obtain ⟨entry, found, ptr, ticket⟩ := registered same
    obtain ⟨busy, waits⟩ := inv.entries report.1 entry er found (ptr.trans points)
    exact ⟨busy, by rw [loop]; simp, report.1, ticket ▸ waits⟩
  · -- Two entries of one coroutine would be for one descriptor, which is reported only once.
    rw [efEpollWait, List.pairwise_filterMap]
    refine (List.pairwise_map.mp distinct).imp ?_
    intro first second apart a sameA b sameB er pointsA pointsB
    obtain ⟨entryA, foundA, ptrA, _⟩ := registered sameA
    obtain ⟨entryB, foundB, ptrB, _⟩ := registered sameB
    obtain ⟨_, waitsA⟩ := inv.entries first.1 entryA er foundA (ptrA.trans pointsA)
    obtain ⟨_, waitsB⟩ := inv.entries second.1 entryB er foundB (ptrB.trans pointsB)
    have one := waitsA.symm.trans waitsB
    simp only [Option.some.injEq, Prod.mk.injEq] at one
    exact apart one.1

end BatchOk

/-- The entry behind another one stands on the same list. -/
theorem entryAfter_mem {list : List Ptr} {entry next : Ptr}
    (after : entryAfter list entry = some next) : next ∈ list := by
  -- The recursion follows the list up to the entry.
  induction list with
  | nil => cases after
  | cons first rest ih =>
    rw [entryAfter] at after
    split at after
    · exact List.mem_cons_of_mem _ (List.mem_of_mem_head? after)
    · exact List.mem_cons_of_mem _ (ih after)

/-- Behind its first occurrence an entry is followed by the rest of the list. -/
theorem entryAfter_split {done todo : List Ptr} {entry : Ptr} (apart : entry ∉ done) :
    entryAfter (done ++ entry :: todo) entry = todo.head? := by
  -- The recursion passes all entries that are different.
  induction done with
  | nil => simp [entryAfter]
  | cons first rest ih =>
    rw [List.mem_cons, not_or] at apart
    rw [List.cons_append, entryAfter, if_neg (Ne.symm apart.1)]
    exact ih apart.2

namespace WorldInv

variable {w : World}

/-- A step that only moves the system thread on keeps the loop in order. -/
theorem jump (inv : WorldInv w) (loop : efCoroutineCurrent w.machine.pool = none) {op : LoopOp}
    {pc : Pc} (move : Jump w op pc) : WorldInv { w with pc := pc } := by
  -- Only what is said about the place of the thread needs a look.
  have batch : BatchOk w.machine w.listenList pc.batch := by
    have ok := inv.batch
    cases move with
    | reported ready _ reports =>
      exact BatchOk.reported inv.machine loop
        (fun fd entry li found points => (inv.entries fd entry li found points).1) reports
    | accepted li batch at_ =>
      rw [at_] at ok
      exact ok
    | accepts li event batch at_ =>
      rw [at_] at ok
      exact ok.tail
    | unlisted | enters | fails | associated | interrupted | broken | dispatched | started | opens
    | closes | exhausted | goesOn => exact .nil _ _
  -- A listener is taken from the list, or from an event of the batch.
  have listener : ∀ li ∈ pc.listener, li ∈ w.listenList := by
    cases move with
    | enters => exact fun li member => List.mem_of_mem_head? member
    | accepts li event batch at_ points =>
      have ok := inv.batch
      rw [at_] at ok
      intro other member
      obtain rfl := Option.some.inj member
      exact ok.listens event List.mem_cons_self li points
    | unlisted | fails | associated | interrupted | broken | reported | accepted | dispatched
    | started | opens | closes | exhausted | goesOn => exact fun _ member => by cases member
  -- Nothing has been closed as long as the loop is being set up.
  have early : (pc = .setUp ∨ ∃ ent, pc = .associate ent) →
      ∀ li ∈ w.listenList, 0 ≤ (w.listens li).pollData.fd := by
    cases move with
    | unlisted _ _ _ _ at_ => exact fun _ => inv.early (.inl at_)
    | enters at_ => exact fun _ => inv.early (.inl at_)
    | fails | associated | interrupted | broken | reported | accepted | dispatched | accepts
    | started | opens | closes | exhausted | goesOn => simp
  exact ⟨inv.machine, batch, fun runs => absurd loop runs, listener, inv.nodup, inv.types,
    inv.entries, early⟩

/-- Listening on another socket keeps the loop in order. -/
theorem listened (inv : WorldInv w) (loop : efCoroutineCurrent w.machine.pool = none)
    {socket : Fd} {proc li : Ptr} (at_ : w.pc = .setUp) (numbered : 0 ≤ socket)
    (unlisted : li ∉ w.listenList) : WorldInv (w.listened socket proc li) := by
  -- The new listener is not on the list, so the others keep their sockets.
  have others : ∀ other ∈ w.listenList, Function.update w.listens li
      ⟨⟨.listen, socket, 0, 0⟩, proc, []⟩ other = w.listens other := by
    intro other member
    have apart : other ≠ li := fun same => unlisted (same ▸ member)
    rw [Function.update_of_ne apart]
  refine ⟨inv.machine.reframe rfl rfl (fun _ _ _ found _ => found) ?_, ?_,
    fun runs => absurd loop runs, ?_, List.nodup_cons.mpr ⟨unlisted, inv.nodup⟩, ?_, ?_, ?_⟩
  · intro fd registered
    simp only [World.listened, Kernel.give_owner]
    split
    · simp
    · exact inv.machine.opened fd registered
  · simp only [World.listened, at_]
    exact .nil _ _
  · simp only [World.listened, at_]
    exact fun _ member => by cases member
  · intro other member
    rcases List.mem_cons.mp member with rfl | member
    · simp [World.listened]
    · simpa [World.listened, others other member] using inv.types other member
  · intro fd entry other found points
    obtain ⟨member, key, positive⟩ := inv.entries fd entry other found points
    refine ⟨List.mem_cons_of_mem _ member, ?_, positive⟩
    simpa [World.listened, others other member] using key
  · intro _ other member
    rcases List.mem_cons.mp member with rfl | member
    · simpa [World.listened] using numbered
    · simpa [World.listened, others other member] using inv.early (.inl at_) other member

/-- Associating a listener keeps the loop in order. -/
theorem associated (inv : WorldInv w) (loop : efCoroutineCurrent w.machine.pool = none) {li : Ptr}
    (at_ : w.pc = .associate (some li))
    (opened : w.machine.kernel.owner (w.listens li).pollData.fd ≠ none) :
    WorldInv { w.withKernel (w.machine.kernel.register (w.listens li).pollData.fd
        ⟨efPollIn, .listen li, w.machine.number⟩) with
      pc := .associate (entryAfter w.listenList li) } := by
  -- The listener is on the list, with a socket that has not been closed.
  have listed : li ∈ w.listenList := inv.listener li (by rw [at_]; rfl)
  refine ⟨inv.machine.reframe rfl rfl ?_ ?_, .nil _ _, fun runs => absurd loop runs, ?_, inv.nodup,
    inv.types, ?_, fun _ => inv.early (.inr ⟨_, at_⟩)⟩
  · intro fd entry er found points
    simp only [World.withKernel, Kernel.register_interest] at found
    split at found
    · obtain rfl := Option.some.inj found
      cases points
    · exact found
  · intro fd registered
    simp only [World.withKernel, Kernel.register_interest, Kernel.register_owner] at registered ⊢
    split at registered
    · rename_i same
      exact same ▸ opened
    · exact inv.machine.opened fd registered
  · exact fun other member => entryAfter_mem member
  · intro fd entry other found points
    simp only [World.withKernel, Kernel.register_interest] at found
    split at found
    · rename_i same
      obtain rfl := Option.some.inj found
      obtain rfl := PollPtr.listen.inj points
      exact ⟨listed, same.symm, same ▸ inv.early (.inr ⟨_, at_⟩) li listed⟩
    · exact inv.entries fd entry other found points

/-- The loop stays in order when entries go, owners change, and lists of nodes change. -/
theorem reframe (inv : WorldInv w) (loop : efCoroutineCurrent w.machine.pool = none)
    {after : World} (pool : after.machine.pool = w.machine.pool)
    (routines : after.machine.routines = w.machine.routines)
    (listenList : after.listenList = w.listenList)
    (pollData : ∀ li, (after.listens li).pollData = (w.listens li).pollData)
    (entries : ∀ fd entry, after.machine.kernel.interest fd = some entry →
      w.machine.kernel.interest fd = some entry)
    (opened : ∀ fd, after.machine.kernel.interest fd ≠ none → after.machine.kernel.owner fd ≠ none)
    (batch : BatchOk w.machine w.listenList after.pc.batch)
    (listener : ∀ li ∈ after.pc.listener, li ∈ w.listenList)
    (late : after.pc ≠ .setUp ∧ ∀ ent, after.pc ≠ .associate ent) : WorldInv after := by
  -- What is said about listeners and batches mentions lists and poll data only.
  refine
    ⟨inv.machine.reframe pool routines (fun fd entry _ found _ => entries fd entry found) opened,
    ?_, ?_, ?_, ?_, ?_, ?_, ?_⟩
  · rw [listenList]
    exact batch.congr fun _ _ er _ busy idle => ⟨pool ▸ busy, pool ▸ idle, by rw [routines]⟩
  · rw [pool]
    exact fun runs => absurd loop runs
  · rw [listenList]
    exact listener
  · rw [listenList]
    exact inv.nodup
  · intro li member
    rw [pollData li]
    exact inv.types li (listenList ▸ member)
  · intro fd entry li found points
    rw [listenList, pollData li]
    exact inv.entries fd entry li (entries fd entry found) points
  · rintro (setUp | ⟨ent, associate⟩)
    · exact absurd setUp late.1
    · exact absurd associate (late.2 ent)

/-- Whatever becomes of an accepted connection, the loop stays in order. -/
theorem accepted (inv : WorldInv w) (loop : efCoroutineCurrent w.machine.pool = none) {li : Ptr}
    {batch : List Event} (at_ : w.pc = .accept li batch) {after : World}
    (pool : after.machine.pool = w.machine.pool)
    (routines : after.machine.routines = w.machine.routines)
    (listenList : after.listenList = w.listenList)
    (pollData : ∀ other, (after.listens other).pollData = (w.listens other).pollData)
    (entries : ∀ fd entry, after.machine.kernel.interest fd = some entry →
      w.machine.kernel.interest fd = some entry)
    (opened : ∀ fd, after.machine.kernel.interest fd ≠ none → after.machine.kernel.owner fd ≠ none)
    (pc : after.pc = .accept li batch ∨ after.pc = .dispatch batch) : WorldInv after := by
  -- The batch and the listener are those of the place before.
  have ok := inv.batch
  have listed := inv.listener
  rw [at_] at ok listed
  refine inv.reframe loop pool routines listenList pollData entries opened ?_ ?_ ?_
  · rcases pc with pc | pc <;> rw [pc] <;> exact ok
  · rcases pc with pc | pc <;> rw [pc]
    · exact listed
    · exact fun _ member => by cases member
  · rcases pc with pc | pc <;> rw [pc] <;> simp

end WorldInv

/-- Giving away a number opens it and closes none. -/
theorem Kernel.give_opened {k : Kernel} (opened : ∀ fd, k.interest fd ≠ none → k.owner fd ≠ none)
    (new : Fd) (owner : Owner) (fd : Fd) (registered : (k.give new owner).interest fd ≠ none) :
    (k.give new owner).owner fd ≠ none := by
  -- The number that is given away is open from now on.
  rw [Kernel.give_owner]
  split
  · simp
  · exact opened fd registered

/-- Closing adds no entry. -/
theorem Kernel.close_interest {k : Kernel} {shut fd : Fd} {entry : Registration}
    (found : (k.close shut).1.interest fd = some entry) : k.interest fd = some entry := by
  -- The entry of the closed number goes, if there is one.
  unfold Kernel.close at found
  split at found
  · exact found
  · simp only [Function.update_apply] at found
    split at found
    · cases found
    · exact found

/-- Closing leaves no entry behind. -/
theorem Kernel.close_opened {k : Kernel} (opened : ∀ fd, k.interest fd ≠ none → k.owner fd ≠ none)
    (shut fd : Fd) (registered : (k.close shut).1.interest fd ≠ none) :
    (k.close shut).1.owner fd ≠ none := by
  -- The number that is closed has no entry any more.
  unfold Kernel.close at registered ⊢
  split at registered
  · rename_i absent
    rw [if_pos absent]
    exact opened fd registered
  · rename_i present
    rw [if_neg present]
    simp only [Function.update_apply] at registered ⊢
    split at registered
    · exact absurd rfl registered
    · rename_i away
      rw [if_neg away]
      exact opened fd registered

namespace WorldInv

variable {w : World}

/-- Queueing a new connection keeps the loop in order. -/
theorem enqueued (inv : WorldInv w) (loop : efCoroutineCurrent w.machine.pool = none) {li : Ptr}
    {batch : List Event} (at_ : w.pc = .accept li batch) (fd : Fd) (qf : Ptr)
    (free nodes : List Ptr) :
    WorldInv ({ w.opened fd with freeFdList := free, nodes := nodes }.enqueue li qf fd) := by
  -- Queueing changes the queue of the listener, and neither its type nor its socket.
  refine inv.accepted loop at_ rfl rfl rfl ?_ (fun _ _ found => found) ?_ (.inl at_)
  · intro other
    simp only [World.enqueue, World.modifyListen, World.opened, World.withKernel,
      Function.update_apply]
    split
    · rename_i same
      rw [same]
    · rfl
  · exact Kernel.give_opened (Kernel.give_opened inv.machine.opened fd .other) fd .queued

/-- Closing a listening socket keeps the loop in order and ends its registration. -/
theorem closeListen (inv : WorldInv w) (loop : efCoroutineCurrent w.machine.pool = none)
    (at_ : w.pc = .exitQueue) (li : Ptr) : WorldInv (w.closeListen li) ∧
      ∀ fd entry, (w.closeListen li).machine.kernel.interest fd = some entry →
        entry.ptr ≠ .listen li := by
  by_cases open_ : (w.listens li).pollData.fd ≥ 0
  · -- The only entry for the listener is the one that is deleted.
    have subset : ∀ fd entry, (w.closeListen li).machine.kernel.interest fd = some entry →
        fd ≠ (w.listens li).pollData.fd ∧ w.machine.kernel.interest fd = some entry := by
      intro fd entry found
      rw [World.closeListen, if_pos open_] at found
      change (efRoutineClose w.machine.kernel (w.listens li).pollData.fd).1.interest fd = some entry
        at found
      rw [efRoutineClose_interest] at found
      split at found
      · cases found
      · rename_i away
        exact ⟨away, found⟩
    have gone : ∀ fd entry, (w.closeListen li).machine.kernel.interest fd = some entry →
        entry.ptr ≠ .listen li := by
      intro fd entry found points
      obtain ⟨away, found⟩ := subset fd entry found
      exact away (inv.entries fd entry li found points).2.1.symm
    -- The other listeners keep their sockets.
    have pollData : ∀ other, other ≠ li → (w.closeListen li).listens other = w.listens other := by
      intro other apart
      rw [World.closeListen, if_pos open_]
      simp only [World.modifyListen, World.withKernel]
      rw [Function.update_of_ne apart]
    refine ⟨?_, gone⟩
    have shape : (w.closeListen li).pc = .exitQueue ∧
        (w.closeListen li).listenList = w.listenList ∧
        (w.closeListen li).machine.pool = w.machine.pool ∧
        (w.closeListen li).machine.routines = w.machine.routines ∧
        ((w.closeListen li).listens li).pollData.type = (w.listens li).pollData.type := by
      rw [World.closeListen, if_pos open_]
      exact ⟨at_, rfl, rfl, rfl, by simp [World.modifyListen, World.withKernel]⟩
    obtain ⟨pc, listenList, pool, routines, type⟩ := shape
    refine
      ⟨inv.machine.reframe pool routines (fun fd entry _ found _ => (subset fd entry found).2) ?_,
      ?_, ?_, ?_, listenList ▸ inv.nodup, ?_, ?_, ?_⟩
    · intro fd registered
      rw [World.closeListen, if_pos open_] at registered ⊢
      change (efRoutineClose w.machine.kernel (w.listens li).pollData.fd).1.interest fd ≠ none
        at registered
      show (efRoutineClose w.machine.kernel (w.listens li).pollData.fd).1.owner fd ≠ none
      rw [efRoutineClose_interest] at registered
      rw [efRoutineClose_owner]
      split at registered
      · exact absurd rfl registered
      · rename_i away
        rw [if_neg away]
        exact inv.machine.opened fd registered
    · rw [pc]
      exact .nil _ _
    · rw [pool]
      exact fun runs => absurd loop runs
    · rw [pc]
      exact fun _ member => by cases member
    · intro other member
      by_cases same : other = li
      · rw [same, type]
        exact inv.types li (same ▸ listenList ▸ member)
      · rw [pollData other same]
        exact inv.types other (listenList ▸ member)
    · intro fd entry other found points
      have apart : other ≠ li := fun same => gone fd entry found (same ▸ points)
      rw [listenList, pollData other apart]
      exact inv.entries fd entry other (subset fd entry found).2 points
    · rw [pc]
      simp
  · rw [World.closeListen, if_neg open_]
    refine ⟨inv, ?_⟩
    intro fd entry found points
    -- Entries are for sockets with a number, which a closed one has not.
    obtain ⟨_, key, positive⟩ := inv.entries fd entry li found points
    exact open_ (key ▸ positive)

/-- Freeing a listener without a registration keeps the loop in order. -/
theorem freeListen (inv : WorldInv w) (loop : efCoroutineCurrent w.machine.pool = none)
    (at_ : w.pc = .exitQueue) (li : Ptr)
    (gone : ∀ fd entry, w.machine.kernel.interest fd = some entry → entry.ptr ≠ .listen li) :
    WorldInv (w.freeListen li) := by
  -- A listener with an empty queue goes off the list, and others stay.
  unfold World.freeListen
  split
  · refine ⟨inv.machine, ?_, fun runs => absurd loop runs, ?_, inv.nodup.erase _, ?_, ?_, ?_⟩
    · simp only [at_]
      exact .nil _ _
    · simp only [at_]
      exact fun _ member => by cases member
    · exact fun other member => inv.types other (List.mem_of_mem_erase member)
    · intro fd entry other found points
      obtain ⟨member, key⟩ := inv.entries fd entry other found points
      have apart : other ≠ li := fun same => gone fd entry found (same ▸ points)
      exact ⟨(List.mem_erase_of_ne apart).mpr member, key⟩
    · simp [at_]
  · exact inv

end WorldInv

/-- Closing a listening socket touches neither the pool nor the place of the system thread. -/
theorem World.closeListen_frame (w : World) (li : Ptr) :
    (w.closeListen li).machine.pool = w.machine.pool ∧ (w.closeListen li).pc = w.pc := by
  -- The socket may have been closed in an earlier turn.
  by_cases open_ : (w.listens li).pollData.fd ≥ 0
  · rw [World.closeListen, if_pos open_]
    exact ⟨rfl, rfl⟩
  · rw [World.closeListen, if_neg open_]
    exact ⟨rfl, rfl⟩

/-- Closing a listening socket takes no listener off the list and no node off a queue. -/
theorem World.closeListen_lists (w : World) (li : Ptr) :
    (w.closeListen li).listenList = w.listenList ∧
      ∀ other, ((w.closeListen li).listens other).fdList = (w.listens other).fdList := by
  -- The write marks the socket as closed, and leaves the queue.
  by_cases open_ : (w.listens li).pollData.fd ≥ 0
  · rw [World.closeListen, if_pos open_]
    refine ⟨rfl, fun other => ?_⟩
    by_cases here : other = li
    · simp [World.modifyListen, World.withKernel, here]
    · simp [World.modifyListen, World.withKernel, Function.update_of_ne here]
  · rw [World.closeListen, if_neg open_]
    exact ⟨rfl, fun _ => rfl⟩

/-- A turn takes its listener off the list when the queue is empty. -/
theorem World.stopListen_listenList (w : World) (li : Ptr) :
    (w.stopListen li).listenList =
      if (w.listens li).fdList = [] then w.listenList.erase li else w.listenList := by
  -- Closing the socket does not change the queue that decides.
  obtain ⟨listenList, lists⟩ := w.closeListen_lists li
  simp only [World.stopListen, World.freeListen, lists]
  split <;> simp [listenList]

/-- A turn takes no node off a queue. -/
theorem World.stopListen_fdList (w : World) (li other : Ptr) :
    ((w.stopListen li).listens other).fdList = (w.listens other).fdList := by
  -- Freeing the listener does not change its queue either.
  obtain ⟨_, lists⟩ := w.closeListen_lists li
  simp only [World.stopListen, World.freeListen]
  split <;> exact lists other

/-- Behind the loop no listener that it has met is left with an empty queue. -/
theorem World.foldl_stopListen_left {todo : List Ptr} : ∀ {w : World}, w.listenList.Nodup →
    ∀ other ∈ (todo.foldl World.stopListen w).listenList, other ∈ w.listenList ∧
      (other ∈ todo → (w.listens other).fdList ≠ []) := by
  -- The induction is on the listeners still to be met.
  induction todo with
  | nil => exact fun _ other member => ⟨member, by simp⟩
  | cons li rest ih =>
    intro w nodup other member
    have turned := w.stopListen_listenList li
    have smaller : (w.stopListen li).listenList.Nodup := by
      rw [turned]
      split
      · exact nodup.erase _
      · exact nodup
    obtain ⟨left, later⟩ := ih smaller other member
    rw [w.stopListen_fdList] at later
    rw [turned] at left
    split at left
    · obtain ⟨apart, listed⟩ := nodup.mem_erase_iff.mp left
      refine ⟨listed, fun met => later ?_⟩
      exact (List.mem_cons.mp met).resolve_left apart
    · rename_i queue
      refine ⟨left, fun met => ?_⟩
      rcases List.mem_cons.mp met with rfl | met
      · exact queue
      · exact later met

/-- One turn of the loop that closes the listening sockets touches neither, too. -/
theorem World.stopListen_frame (w : World) (li : Ptr) :
    (w.stopListen li).machine.pool = w.machine.pool ∧ (w.stopListen li).pc = w.pc := by
  -- Freeing a listener is a change of the list only.
  obtain ⟨pool, pc⟩ := w.closeListen_frame li
  unfold World.stopListen World.freeListen
  split <;> exact ⟨pool, pc⟩

namespace WorldInv

variable {w : World}

/-- One turn of the loop that closes the listening sockets keeps the loop in order. -/
theorem stopListen (inv : WorldInv w) (loop : efCoroutineCurrent w.machine.pool = none)
    (at_ : w.pc = .exitQueue) (li : Ptr) : WorldInv (w.stopListen li) := by
  -- The registration has gone before the listener is freed.
  obtain ⟨closed, gone⟩ := inv.closeListen loop at_ li
  obtain ⟨pool, pc⟩ := w.closeListen_frame li
  exact closed.freeListen (pool ▸ loop) (pc.trans at_) li gone

/-- What every turn of that loop preserves holds at its end. -/
theorem foldl_stopListen {holds : World → Prop}
    (kept : ∀ {w : World} {li : Ptr}, WorldInv w → efCoroutineCurrent w.machine.pool = none →
      w.pc = .exitQueue → li ∈ w.listenList → holds w → holds (w.stopListen li))
    {todo : List Ptr} : ∀ {w : World}, WorldInv w → efCoroutineCurrent w.machine.pool = none →
    w.pc = .exitQueue → todo.Nodup → (∀ li ∈ todo, li ∈ w.listenList) → holds w →
    WorldInv (todo.foldl World.stopListen w) ∧
      (todo.foldl World.stopListen w).machine.pool = w.machine.pool ∧
      (todo.foldl World.stopListen w).pc = .exitQueue ∧
      holds (todo.foldl World.stopListen w) := by
  -- The listeners still to be met stay on the list, as each turn removes none but its own.
  induction todo with
  | nil => exact fun inv _ at_ _ _ start => ⟨inv, rfl, at_, start⟩
  | cons li rest ih =>
    intro w inv loop at_ nodup inside start
    obtain ⟨apart, nodup⟩ := List.nodup_cons.mp nodup
    obtain ⟨pool, pc⟩ := w.stopListen_frame li
    have still : ∀ other ∈ rest, other ∈ (w.stopListen li).listenList := by
      intro other member
      have listed := inside other (List.mem_cons_of_mem _ member)
      have other_ne : other ≠ li := fun same => apart (same ▸ member)
      rw [w.stopListen_listenList li]
      split
      · exact (List.mem_erase_of_ne other_ne).mpr listed
      · exact listed
    obtain ⟨kept, same, at_, ended⟩ := ih (inv.stopListen loop at_ li) (pool ▸ loop)
      (pc.trans at_) nodup still (kept inv loop at_ (inside li List.mem_cons_self) start)
    exact ⟨kept, same.trans pool, at_, ended⟩

/-- The loop that closes the listening sockets keeps the loop in order. -/
theorem stopListens (inv : WorldInv w) (loop : efCoroutineCurrent w.machine.pool = none)
    (at_ : w.pc = .exitQueue) : WorldInv w.stopListens ∧
      w.stopListens.machine.pool = w.machine.pool ∧ w.stopListens.pc = .exitQueue := by
  -- There is nothing more to be kept than the invariant itself.
  obtain ⟨kept, pool, pc, _⟩ := @foldl_stopListen (fun _ => True) (fun _ _ _ _ _ => trivial)
    w.listenList w inv loop at_ inv.nodup (fun _ member => member) trivial
  exact ⟨kept, pool, pc⟩

/-- A shrink at the end of an iteration keeps the loop in order. -/
theorem shrunk (inv : WorldInv w) (loop : efCoroutineCurrent w.machine.pool = none)
    (idleMillisecs maxCount : Int) (tv : TimeVal) {pc : Pc} (batch : pc.batch = [])
    (listener : pc.listener = none) (late : pc ≠ .setUp ∧ ∀ ent, pc ≠ .associate ent) :
    WorldInv { w.withPool (efCoroutinePoolShrink w.machine.pool idleMillisecs maxCount tv).1 with
      pc := pc } := by
  -- The scheduler is not touched, so the thread still runs.
  obtain ⟨machine, _, sched⟩ := inv.machine.shrunk idleMillisecs maxCount tv
  refine ⟨machine, ?_, ?_, ?_, inv.nodup, inv.types, inv.entries, ?_⟩
  · simp only [batch]
    exact .nil _ _
  · simp only [World.withPool, efCoroutineCurrent, sched]
    exact fun runs => absurd loop runs
  · simp only [listener]
    exact fun _ member => by cases member
  · rintro (setUp | ⟨ent, associate⟩)
    · exact absurd setUp late.1
    · exact absurd associate (late.2 ent)

/-- The code behind the label `exit_queue` keeps the loop in order. -/
theorem exitQueue (inv : WorldInv w) (loop : efCoroutineCurrent w.machine.pool = none)
    (at_ : w.pc = .exitQueue) : WorldInv w.exitQueue := by
  -- The label is passed every time, but stops only when the runtime has been stopped.
  unfold World.exitQueue
  split
  · obtain ⟨stopped, pool, pc⟩ := inv.stopListens loop at_
    have still : efCoroutineCurrent w.stopListens.machine.pool = none := by
      rw [pool]
      exact loop
    have late : w.stopListens.pc ≠ .setUp ∧ ∀ ent, w.stopListens.pc ≠ .associate ent := by
      rw [pc]
      simp
    have freed : WorldInv w.stopListens.freeNodes :=
      WorldInv.reframe stopped still rfl rfl rfl (fun _ => rfl) (fun _ _ found => found)
        stopped.machine.opened stopped.batch stopped.listener late
    simp only
    split
    · -- Freeing the poll object drops every entry.
      have cleared : WorldInv { w.stopListens.freeNodes.withKernel
          { w.stopListens.freeNodes.machine.kernel with interest := fun _ => none } with
          trace := w.stopListens.freeNodes.trace ++ [LoopEvent.pollFreed] } :=
        WorldInv.reframe freed still rfl rfl rfl (fun _ => rfl) (fun _ _ found => by cases found)
          (fun _ absent => absurd rfl absent) freed.batch freed.listener late
      exact cleared.shrunk still 0 _ _ rfl rfl (by simp)
    · exact freed.shrunk still 0 _ _ rfl rfl (by simp)
  · rename_i running
    exact inv.jump loop (.goesOn at_ (by simpa using running))

/-- Waking the coroutine of the next event keeps the loop in order. -/
theorem wakes (inv : WorldInv w) (loop : efCoroutineCurrent w.machine.pool = none) {er : Ptr}
    {event : Event} {batch : List Event} (at_ : w.pc = .dispatch (event :: batch))
    (points : event.ptr = .routine er) :
    WorldInv { w with machine := w.machine.wake er event.events, pc := .dispatch batch } := by
  -- The coroutine of the event is in use and does not run.
  have ok := inv.batch
  rw [at_] at ok
  obtain ⟨busy, _⟩ := ok.waits event List.mem_cons_self er points
  obtain ⟨_, current, _⟩ := MachineInv.resume_wakes inv.machine.pool loop busy event.events
  refine ⟨inv.machine.wake loop busy event.events, ok.tail.congr ?_, fun _ => .inl ⟨batch, rfl⟩,
    (fun _ member => by cases member), inv.nodup, inv.types, inv.entries, by simp⟩
  -- No later event is for the coroutine that is woken now.
  intro other member er' points' busy' _
  have apart : er' ≠ er := by
    rintro rfl
    exact (List.pairwise_cons.mp ok.apart).1 other member er' points points'
  refine ⟨busy', ?_, by simp [Machine.wake, Machine.modify_routines, apart]⟩
  exact fun runs => apart (Option.some.inj (runs.symm.trans current))

/-- Starting a coroutine for a queued connection keeps the loop in order. -/
theorem starts (inv : WorldInv w) (loop : efCoroutineCurrent w.machine.pool = none) {li qf : Ptr}
    {mapped : Option Ptr} (fresh : w.machine.pool.Fresh mapped) {pool : Pool} {er : Ptr}
    (effect : Created w.machine.pool efProcAddress 0 mapped (pool, some er)) :
    WorldInv (w.started li qf pool er) := by
  -- A new coroutine takes the place of the thread, and listeners are as before.
  obtain ⟨_, _, kept⟩ := inv.machine.started loop fresh effect (w.listens li).efProc (w.queueFds qf)
  refine
    ⟨kept, .nil _ _, fun _ => .inr ⟨_, _, _, rfl⟩, (fun _ member => by cases member), inv.nodup,
    inv.types, ?_, by simp [World.started]⟩
  intro fd entry other found points
  -- Handing over a connection adds no entry.
  refine inv.entries fd entry other ?_ points
  simpa [World.started, Machine.started, Machine.wake] using found

/-- Moving a node to the free nodes keeps the loop in order. -/
theorem recycles (inv : WorldInv w) (loop : efCoroutineCurrent w.machine.pool = none)
    (li qf : Ptr) (enf : Option Ptr) : WorldInv (w.recycled li qf enf) := by
  -- Only the queue of the listener gets shorter.
  refine inv.reframe loop rfl rfl rfl ?_ (fun _ _ found => found) inv.machine.opened (.nil _ _)
    (fun _ member => by cases member) (by simp [World.recycled])
  intro other
  simp only [World.recycled, World.modifyListen, Function.update_apply]
  split
  · rename_i same
    rw [same]
  · rfl

/-- The shrink that ends an iteration keeps the loop in order. -/
theorem shrinks (inv : WorldInv w) (loop : efCoroutineCurrent w.machine.pool = none) :
    WorldInv w.shrink := by
  -- The pool is shrunk only if it has free coroutines and is above its lower limit.
  unfold World.shrink
  simp only
  split
  · exact inv.shrunk loop _ _ _ rfl rfl (by simp)
  · exact inv.reframe loop rfl rfl rfl (fun _ => rfl) (fun _ _ found => found) inv.machine.opened
      (.nil _ _) (fun _ member => by cases member) (by simp)

/-- Every move of the loop keeps it in order. -/
theorem loopMove (inv : WorldInv w) (loop : efCoroutineCurrent w.machine.pool = none) {op : LoopOp}
    {after : World} (fresh : ∀ mapped, op = .start mapped → w.machine.pool.Fresh mapped)
    (move : LoopMove w op after) : WorldInv after := by
  -- The moves are taken one by one.
  cases move with
  | jumps pc move => exact inv.jump loop move
  | listens socket proc setfl li at_ numbered unlisted =>
    exact inv.listened loop at_ numbered unlisted
  | associates li refusal at_ opened absent => exact inv.associated loop at_ opened
  | refuses li batch fd answers at_ unused =>
    exact inv.accepted loop at_ rfl rfl rfl (fun _ => rfl) (fun _ _ found => found)
      (Kernel.give_opened inv.machine.opened fd .other) (.inr rfl)
  | drops li batch fd answers at_ unused =>
    exact inv.accepted loop at_ rfl rfl rfl (fun _ => rfl)
      (fun _ _ found => Kernel.close_interest (k := w.machine.kernel.give fd .other) found)
      (Kernel.close_opened (Kernel.give_opened inv.machine.opened fd .other) fd) (.inr rfl)
  | reuses li batch fd answers qf rest at_ unused shape =>
    exact inv.enqueued loop at_ fd qf rest w.nodes
  | allocates li batch fd answers qf at_ unused empty new =>
    exact inv.enqueued loop at_ fd qf w.freeFdList (qf :: w.nodes)
  | wakes er event batch at_ points => exact inv.wakes loop at_ points
  | starts li qf mapped pool er at_ effect => exact inv.starts loop (fresh mapped rfl) effect
  | recycles li qf enf at_ => exact inv.recycles loop li qf enf
  | stops at_ stopping => exact inv.exitQueue loop at_
  | shrinks at_ => exact inv.shrinks loop

/-- Every step of a handler keeps the loop in order. -/
theorem handlerMove (inv : WorldInv w) {op : HandlerOp} {er : Ptr} {pool : Pool} {kernel : Kernel}
    {record : Routine} (current : efCoroutineCurrent w.machine.pool = some er)
    (move : HandlerMove w.machine er op pool kernel record) (trace : List LoopEvent) :
    WorldInv { w with machine := w.machine.moved er pool kernel record, trace := trace } := by
  -- What the batch is about are other coroutines, which the step does not touch.
  obtain ⟨_, _, others, runner⟩ := move.pool_kept inv.machine current
  refine ⟨move.machineInv inv.machine current, inv.batch.congr ?_, ?_, inv.listener, inv.nodup,
    inv.types, ?_, inv.early⟩
  · intro event _ other _ busy idle
    have apart : other ≠ er := fun same => idle (same ▸ current)
    refine ⟨(others other busy apart).1, fun runs => apart (runner other runs), ?_⟩
    simp [Machine.moved, Machine.modify_routines, apart]
  · exact fun _ => inv.runner (by rw [current]; simp)
  · intro fd entry li found points
    -- A handler adds entries for itself, and never for a listener.
    rcases move.entries (fun fd entry found points =>
      (inv.machine.entries fd entry er found points).2) found with ⟨old, _⟩ | ⟨own, _⟩
    · exact inv.entries fd entry li old points
    · rw [points] at own
      cases own

/-- Every step keeps the loop in order, provided the kernel maps unused memory. -/
theorem step (inv : WorldInv w) {label : Label} (kernel : KernelOk w label) {after : World}
    (stepped : SimpleSrv.Ef.step w label = some after) : WorldInv after := by
  -- The labels are taken one by one.
  cases label with
  | tick now =>
    obtain rfl := Option.some.inj stepped
    exact ⟨inv.machine.reframe rfl rfl (fun _ _ _ found _ => found) inv.machine.opened,
      inv.batch.congr fun _ _ _ _ busy idle => ⟨busy, idle, rfl⟩, inv.runner, inv.listener,
      inv.nodup, inv.types, inv.entries, inv.early⟩
  | stop =>
    obtain rfl := Option.some.inj stepped
    exact ⟨inv.machine, inv.batch, inv.runner, inv.listener, inv.nodup, inv.types, inv.entries,
      inv.early⟩
  | loop op =>
    obtain ⟨loop, stepped⟩ := Option.ite_none_right_eq_some.mp stepped
    have fresh : ∀ mapped, op = .start mapped → w.machine.pool.Fresh mapped := by
      rintro mapped rfl
      exact kernel
    exact inv.loopMove loop fresh (inv.loopStep_move loop fresh stepped)
  | handler op =>
    obtain ⟨machine, moved, rfl⟩ := Option.map_eq_some_iff.mp stepped
    obtain ⟨er, pool, kernel, record, current, move, rfl⟩ := inv.machine.handlerStep_move moved
    exact inv.handlerMove current move _

/-- A runtime on a new pool is in order. -/
theorem initial (setting : Setting) : WorldInv setting.world := by
  -- There is no coroutine, no listener and no entry.
  let pool := efCoroutinePoolInit setting.threadFiber setting.fibers setting.coroutines
    setting.stackSize setting.limitMin setting.limitMax
  have loop : efCoroutineCurrent pool = none := efCoroutineCurrent_eq_none.mpr rfl
  have wellFormed : PoolInv pool pool.chain := by
    rw [Pool.chain_thread loop]
    exact .initial setting.unused
  refine ⟨⟨wellFormed, ?_, ?_, ?_⟩, .nil _ _, fun runs => absurd loop runs, ?_, .nil, ?_, ?_, ?_⟩
  · exact fun er busy => absurd busy.1 List.not_mem_nil
  · exact fun fd entry er found => by cases found
  · exact fun fd absent => absurd rfl absent
  · exact fun li member => by cases member
  · exact fun li member => absurd member List.not_mem_nil
  · exact fun fd entry li found => by cases found
  · exact fun _ li member => absurd member List.not_mem_nil

end WorldInv

end SimpleSrv.Ef
