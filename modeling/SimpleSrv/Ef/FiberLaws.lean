import Mathlib.Data.List.Nodup
import SimpleSrv.Ef.Fiber

/-! The parent chain of the fiber scheduler, and what each switch of stacks does to it. -/

namespace SimpleSrv.Ef

/-- Points at which a fiber waits for someone to resume it. -/
def Point.Resumable : Point → Prop
  | .resuming _ _ => False
  | .entry _ _ | .yielding _ => True

/-- Each fiber's parent follows it, waiting in the call that resumed it, up to the system thread. -/
def Linked (s : Sched) : List Ptr → Prop
  | [] => False
  | [fiber] => fiber = s.threadFiber
  | fiber :: parent :: rest =>
    (s.fibers fiber).status = fiberStatusInited ∧ (s.fibers fiber).parent = parent ∧
      (∃ call, (s.fibers parent).stackPtr = some ⟨parent, .resuming call fiber⟩) ∧
      Linked s (parent :: rest)

/-- The chain of running fibers, and the saved stack pointers of all the others. -/
structure SchedInv (s : Sched) (chain : List Ptr) : Prop where
  head : chain.head? = some s.currentFiber
  /-- The scheduler's own idea of who runs is right. -/
  running : s.running = s.currentFiber
  nodup : chain.Nodup
  linked : Linked s chain
  /-- Every other usable fiber has saved its own stack at a point that waits to be resumed. -/
  waiting : ∀ fiber, fiber ∉ chain → (s.fibers fiber).status = fiberStatusInited →
    ∃ point, (s.fibers fiber).stackPtr = some ⟨fiber, point⟩ ∧ point.Resumable

/-- A linked chain depends on the saved stack pointers of its tail only. -/
theorem Linked.congr {s t : Sched} {chain : List Ptr} (linked : Linked s chain)
    (thread : t.threadFiber = s.threadFiber)
    (same : ∀ fiber ∈ chain, (t.fibers fiber).status = (s.fibers fiber).status ∧
      (t.fibers fiber).parent = (s.fibers fiber).parent)
    (saved : ∀ fiber ∈ chain.tail, (t.fibers fiber).stackPtr = (s.fibers fiber).stackPtr) :
    Linked t chain := by
  -- The recursion follows the chain, so each link is rewritten on its own.
  induction chain with
  | nil => exact linked
  | cons fiber rest ih =>
    cases rest with
    | nil => exact linked.trans thread.symm
    | cons parent rest =>
      obtain ⟨inited, up, waits, linked⟩ := linked
      have here := same fiber (by simp)
      refine ⟨here.1.trans inited, here.2.trans up, ?_, ih linked ?_ ?_⟩
      · rw [saved parent (by simp)]
        exact waits
      · exact fun other member => same other (by simp [member])
      · exact fun other member => saved other (by simp [List.mem_of_mem_tail member])

/-- The system thread ends every linked chain. -/
theorem Linked.thread_last {s : Sched} {chain : List Ptr} (linked : Linked s chain) :
    chain.getLast? = some s.threadFiber := by
  -- The chain ends where the recursion of the definition does.
  induction chain with
  | nil => exact linked.elim
  | cons fiber rest ih =>
    cases rest with
    | nil => exact congrArg some linked
    | cons parent rest => simpa using ih linked.2.2.2

/-- Below the head of a chain stand the parent of the head and that parent's own chain. -/
theorem SchedInv.below {s : Sched} {chain : List Ptr} (inv : SchedInv s chain)
    (nested : s.currentFiber ≠ s.threadFiber) :
    ∃ parent rest call, chain = s.currentFiber :: parent :: rest ∧
      (s.fibers s.currentFiber).status = fiberStatusInited ∧
      (s.fibers s.currentFiber).parent = parent ∧
      (s.fibers parent).stackPtr = some ⟨parent, .resuming call s.currentFiber⟩ := by
  -- A chain of one fiber is the system thread alone, which the hypothesis excludes.
  have head := inv.head
  have linked := inv.linked
  match chain, linked with
  | [fiber], linked =>
    simp only [List.head?_cons, Option.some.injEq] at head
    exact absurd (head.symm.trans linked) nested
  | fiber :: parent :: rest, linked =>
    simp only [List.head?_cons, Option.some.injEq] at head
    subst head
    obtain ⟨inited, up, ⟨call, waits⟩, _⟩ := linked
    exact ⟨parent, rest, call, rfl, inited, up, waits⟩

/-- The first fiber of a chain is the current one. -/
theorem SchedInv.current_mem {s : Sched} {chain : List Ptr} (inv : SchedInv s chain) :
    s.currentFiber ∈ chain :=
  List.mem_of_mem_head? inv.head

/-- Every fiber of a chain other than the system thread is initialised. -/
theorem Linked.status_inited {s : Sched} {chain : List Ptr} (linked : Linked s chain)
    {fiber : Ptr} (member : fiber ∈ chain) (mapped : fiber ≠ s.threadFiber) :
    (s.fibers fiber).status = fiberStatusInited := by
  -- Only the last fiber has no link of its own, and that one is the thread.
  induction chain with
  | nil => exact linked.elim
  | cons first rest ih =>
    cases rest with
    | nil =>
      rw [List.mem_singleton] at member
      exact absurd (member.trans linked) mapped
    | cons parent rest =>
      rcases List.mem_cons.mp member with rfl | member
      · exact linked.1
      · exact ih linked.2.2.2 member

/-- Following parents from one fiber of a linked chain stays on the chain. -/
theorem Linked.parent_mem {s : Sched} {chain : List Ptr} (linked : Linked s chain)
    {fiber : Ptr} (member : fiber ∈ chain) (mapped : fiber ≠ s.threadFiber) :
    (s.fibers fiber).parent ∈ chain := by
  -- The parent of a fiber is its successor on the chain, and the last one has none.
  induction chain with
  | nil => exact linked.elim
  | cons first rest ih =>
    cases rest with
    | nil =>
      rw [List.mem_singleton] at member
      exact absurd (member.trans linked) mapped
    | cons parent rest =>
      rcases List.mem_cons.mp member with rfl | member
      · rw [linked.2.1]
        simp
      · exact List.mem_cons_of_mem _ (ih linked.2.2.2 member)

/-- Every member of a linked chain is reached from its head through parents. -/
theorem Linked.reached {s : Sched} {chain : List Ptr} (linked : Linked s chain)
    (nodup : chain.Nodup) (head : ∀ first, chain.head? = some first → OnChain s first)
    {fiber : Ptr} (member : fiber ∈ chain) : OnChain s fiber := by
  -- The induction goes down the chain, each head reached through the parent of the one above it.
  induction chain with
  | nil => simp at member
  | cons first rest ih =>
    have reached := head first rfl
    rcases List.mem_cons.mp member with rfl | member
    · exact reached
    · cases rest with
      | nil => simp at member
      | cons parent rest =>
        obtain ⟨_, up, _, linked⟩ := linked
        -- The thread stands at the very end, so the first fiber is not the thread.
        have mapped : first ≠ s.threadFiber := by
          rintro rfl
          exact (List.nodup_cons.mp nodup).1 (List.mem_of_getLast? linked.thread_last)
        refine ih linked (List.nodup_cons.mp nodup).2 ?_ member
        rintro next same
        simp only [List.head?_cons, Option.some.injEq] at same
        rw [← same, ← up]
        exact .parent reached mapped

/-- The chain of an invariant is exactly the set of fibers reached through parents. -/
theorem SchedInv.onChain_iff {s : Sched} {chain : List Ptr} (inv : SchedInv s chain)
    (fiber : Ptr) : OnChain s fiber ↔ fiber ∈ chain := by
  constructor
  · -- Each step to a parent stays on the chain.
    intro reached
    induction reached with
    | current => exact inv.current_mem
    | parent _ mapped ih => exact inv.linked.parent_mem ih mapped
  · -- The head of the chain is the current fiber, where the parents start.
    refine inv.linked.reached inv.nodup ?_
    intro first same
    rw [inv.head, Option.some.injEq] at same
    exact same ▸ .current

/-- The scheduler after an accepted resume. -/
def Sched.entered (s : Sched) (target : Ptr) (call : Nat) : Sched :=
  -- The two writes are to the target's parent and to the issuer's saved pointer.
  { (s.modify target fun f => { f with parent := s.currentFiber }).modify s.currentFiber fun f =>
      { f with stackPtr := some ⟨s.running, .resuming call target⟩ } with
    currentFiber := target
    running := target }

/-- The scheduler after the current fiber has yielded to its parent. -/
def Sched.left (s : Sched) (call : Nat) : Sched :=
  { s.modify s.currentFiber fun f => { f with stackPtr := some ⟨s.running, .yielding call⟩ } with
    currentFiber := (s.fibers s.currentFiber).parent
    running := (s.fibers s.currentFiber).parent }

/-- The scheduler after the current fiber has exited to its parent. -/
def Sched.ended (s : Sched) : Sched :=
  { s.modify s.currentFiber fun f => { f with status := fiberStatusExited } with
    currentFiber := (s.fibers s.currentFiber).parent
    running := (s.fibers s.currentFiber).parent }

/-- A resume of a usable fiber off the chain switches to the point where that fiber waits. -/
theorem efFiberResume_switched {s : Sched} {chain : List Ptr} (inv : SchedInv s chain)
    {target : Ptr} (inited : (s.fibers target).status = fiberStatusInited)
    (off : target ∉ chain) (sndval : Int) (call : Nat) :
    ∃ point, (s.fibers target).stackPtr = some ⟨target, point⟩ ∧ point.Resumable ∧
      efFiberResume s target sndval call =
        some (.switched (s.entered target call) ⟨target, point, sndval, target⟩) := by
  -- A usable fiber off the chain has a saved pointer, so the swap has somewhere to go.
  obtain ⟨point, saved, resumable⟩ := inv.waiting target off inited
  refine ⟨point, saved, resumable, ?_⟩
  simp [efFiberResume, inited, efFiberInternalSwap, saved, Sched.entered, Sched.modify]

/-- A resume of a fiber that is not usable returns an error and leaves the scheduler alone. -/
theorem efFiberResume_returned {s : Sched} {target : Ptr}
    (unusable : (s.fibers target).status ≠ fiberStatusInited) (sndval : Int) (call : Nat) :
    efFiberResume s target sndval call = some (.returned
      (if (s.fibers target).status = fiberStatusExited then errorFiberExited
        else errorFiberNotInited)) := by
  unfold efFiberResume
  rw [if_pos unusable]
  split <;> rfl

/-- A yield goes on in the parent, inside the call that had resumed the yielding fiber. -/
theorem efFiberYield_switched {s : Sched} {chain : List Ptr} (inv : SchedInv s chain)
    (nested : s.currentFiber ≠ s.threadFiber) (sndval : Int) (call : Nat) :
    ∃ parent rest waits, chain = s.currentFiber :: parent :: rest ∧
      (s.fibers s.currentFiber).parent = parent ∧
      (s.fibers parent).stackPtr = some ⟨parent, .resuming waits s.currentFiber⟩ ∧
      efFiberYield s sndval call =
        some (s.left call, ⟨parent, .resuming waits s.currentFiber, sndval, parent⟩) := by
  -- The fiber below the head is the parent, and it waits in the call that resumed the head.
  obtain ⟨parent, rest, waits, shape, _, up, saved⟩ := inv.below nested
  refine ⟨parent, rest, waits, shape, up, saved, ?_⟩
  simp [efFiberYield, efFiberInternalSwap, up, saved, Sched.left, Sched.modify]

/-- An exit goes on in the parent, inside the call that had resumed the exiting fiber. -/
theorem efFiberExit_switched {s : Sched} {chain : List Ptr} (inv : SchedInv s chain)
    (nested : s.currentFiber ≠ s.threadFiber) (retval : Int) :
    ∃ parent rest waits, chain = s.currentFiber :: parent :: rest ∧
      (s.fibers s.currentFiber).parent = parent ∧
      (s.fibers parent).stackPtr = some ⟨parent, .resuming waits s.currentFiber⟩ ∧
      efFiberExit s retval =
        some (s.ended, ⟨parent, .resuming waits s.currentFiber, retval, parent⟩) := by
  obtain ⟨parent, rest, waits, shape, _, up, saved⟩ := inv.below nested
  refine ⟨parent, rest, waits, shape, up, saved, ?_⟩
  -- The parent is another fiber, so the new status does not touch its saved pointer.
  have other : parent ≠ s.currentFiber := by
    rintro rfl
    have nodup := inv.nodup
    rw [shape] at nodup
    simp at nodup
  simp [efFiberExit, inv.running, up, saved, other, Sched.ended, Sched.modify]

/-- An accepted resume puts its target on top of the chain. -/
theorem SchedInv.entered {s : Sched} {chain : List Ptr} (inv : SchedInv s chain) {target : Ptr}
    (inited : (s.fibers target).status = fiberStatusInited) (off : target ∉ chain) (call : Nat) :
    SchedInv (s.entered target call) (target :: chain) := by
  -- The target is another fiber than the current one, since that one is on the chain.
  have currentMem := inv.current_mem
  have notCurrent : target ≠ s.currentFiber := fun same => off (same ▸ currentMem)
  refine ⟨rfl, rfl, List.nodup_cons.mpr ⟨off, inv.nodup⟩, ?_, ?_⟩
  · have head := inv.head
    have linked := inv.linked
    have nodup := inv.nodup
    cases chain with
    | nil => exact linked.elim
    | cons first rest =>
      simp only [List.head?_cons, Option.some.injEq] at head
      subst head
      refine ⟨?_, ?_, ⟨call, ?_⟩, linked.congr rfl ?_ ?_⟩
      · simp [Sched.entered, Sched.modify_fibers, notCurrent, inited]
      · simp [Sched.entered, Sched.modify_fibers, notCurrent]
      · simp [Sched.entered, Sched.modify_fibers, inv.running]
      -- The older links keep their statuses, their parents and the saved pointers below the head.
      · intro fiber member
        have other : fiber ≠ target := fun same => off (same ▸ member)
        simp only [Sched.entered, Sched.modify_fibers, other, if_false]
        split
        · rename_i same
          simp [same, notCurrent.symm]
        · exact ⟨rfl, rfl⟩
      · intro fiber member
        have other : fiber ≠ target := fun same => off (same ▸ List.mem_of_mem_tail member)
        have below : fiber ≠ s.currentFiber :=
          fun same => (List.nodup_cons.mp nodup).1 (same ▸ member)
        simp [Sched.entered, Sched.modify_fibers, other, below]
  · -- A fiber off the longer chain is neither of the two that were written to.
    intro fiber away usable
    simp only [List.mem_cons, not_or] at away
    have below : fiber ≠ s.currentFiber := fun same => away.2 (same ▸ currentMem)
    simp only [Sched.entered, Sched.modify_fibers, away.1, below, if_false] at usable ⊢
    exact inv.waiting fiber away.2 usable

/-- Removing the head of the chain, once that fiber waits on its own or is used up. -/
theorem SchedInv.popped {s t : Sched} {parent : Ptr} {rest : List Ptr}
    (inv : SchedInv s (s.currentFiber :: parent :: rest)) (thread : t.threadFiber = s.threadFiber)
    (current : t.currentFiber = parent) (running : t.running = parent)
    (others : ∀ fiber, fiber ≠ s.currentFiber → t.fibers fiber = s.fibers fiber)
    (saved : (t.fibers s.currentFiber).status = fiberStatusInited →
      ∃ point, (t.fibers s.currentFiber).stackPtr = some ⟨s.currentFiber, point⟩ ∧
        point.Resumable) :
    SchedInv t (parent :: rest) := by
  -- Everyone below the head is another fiber than the head, so nothing changed there.
  obtain ⟨fresh, nodup⟩ := List.nodup_cons.mp inv.nodup
  have below : ∀ fiber ∈ parent :: rest, t.fibers fiber = s.fibers fiber :=
    fun fiber member => others fiber fun same => fresh (same ▸ member)
  refine ⟨by simp [current], running.trans current.symm, nodup, ?_, ?_⟩
  · refine inv.linked.2.2.2.congr thread ?_ ?_
    · intro fiber member
      simp [below fiber member]
    · intro fiber member
      rw [below fiber (List.mem_of_mem_tail member)]
  · intro fiber away usable
    -- The fiber that was popped joins those that wait, if it is still usable.
    by_cases same : fiber = s.currentFiber
    · subst same
      exact saved usable
    · rw [others fiber same] at usable ⊢
      exact inv.waiting fiber (by simp only [List.mem_cons, not_or] at away ⊢; exact ⟨same, away⟩)
        usable

/-- A yield takes the yielding fiber off the chain and leaves it waiting. -/
theorem SchedInv.left {s : Sched} {parent : Ptr} {rest : List Ptr}
    (inv : SchedInv s (s.currentFiber :: parent :: rest))
    (up : (s.fibers s.currentFiber).parent = parent) (call : Nat) :
    SchedInv (s.left call) (parent :: rest) := by
  -- A yield writes to the yielding fiber only, and it leaves it waiting for the next resume.
  refine inv.popped rfl up up ?_ ?_
  · intro fiber other
    simp [Sched.left, Sched.modify_fibers, other]
  · intro _
    exact ⟨.yielding call, by simp [Sched.left, Sched.modify_fibers, inv.running], trivial⟩

/-- An exit takes the exiting fiber off the chain and leaves it unusable. -/
theorem SchedInv.ended {s : Sched} {parent : Ptr} {rest : List Ptr}
    (inv : SchedInv s (s.currentFiber :: parent :: rest))
    (up : (s.fibers s.currentFiber).parent = parent) :
    SchedInv s.ended (parent :: rest) := by
  -- The exited fiber has the wrong status for anybody to ask where it waits.
  refine inv.popped rfl up up ?_ ?_
  · intro fiber other
    simp [Sched.ended, Sched.modify_fibers, other]
  · intro usable
    simp [Sched.ended, Sched.modify_fibers, fiberStatusExited, fiberStatusInited] at usable

/-- Initialising a fiber off the chain leaves the chain alone and makes that fiber wait. -/
theorem SchedInv.inited {s : Sched} {chain : List Ptr} (inv : SchedInv s chain) {fiber : Ptr}
    (off : fiber ∉ chain) (proc param : Ptr) : SchedInv (efFiberInit s fiber proc param) chain := by
  -- The links of the chain belong to other fibers than the one that is initialised.
  have kept : ∀ other ∈ chain, (efFiberInit s fiber proc param).fibers other = s.fibers other := by
    intro other member
    have apart : other ≠ fiber := fun same => off (same ▸ member)
    simp [efFiberInit, Sched.modify_fibers, apart]
  refine ⟨inv.head, inv.running, inv.nodup, inv.linked.congr rfl ?_ ?_, ?_⟩
  · intro other member
    simp [kept other member]
  · intro other member
    rw [kept other (List.mem_of_mem_tail member)]
  · intro other away usable
    by_cases same : other = fiber
    · subst same
      exact ⟨.entry proc (if param ≠ 0 then param else other),
        by simp [efFiberInit, Sched.modify_fibers], trivial⟩
    · simp only [efFiberInit, Sched.modify_fibers, same, if_false] at usable ⊢
      exact inv.waiting other away usable

/-- A freshly initialised scheduler has the system thread alone on its chain. -/
theorem SchedInv.initial {threadFiber : Ptr} {memory : Ptr → Fiber}
    (unused : ∀ fiber, fiber ≠ threadFiber → (memory fiber).status ≠ fiberStatusInited) :
    SchedInv (efFiberInitSched threadFiber memory) [threadFiber] := by
  -- No other fiber is usable, so nobody has to wait anywhere.
  refine ⟨rfl, rfl, List.nodup_singleton _, rfl, ?_⟩
  intro fiber away usable
  exact absurd usable (unused fiber (by simpa using away))

end SimpleSrv.Ef
