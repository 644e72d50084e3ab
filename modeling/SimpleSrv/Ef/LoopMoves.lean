import SimpleSrv.Ef.MachineLaws
import SimpleSrv.Ef.Framework

/-! Every step of the loop as one of a few moves, and the invariant behind them. -/

namespace SimpleSrv.Ef

/-- The part of the batch that the loop has not looked at. -/
def Pc.batch : Pc → List Event
  | .dispatch batch | .accept _ batch => batch
  | .setUp | .associate _ | .wait | .queue _ | .queueFd _ _ | .queueRun _ _ _ | .exitQueue
  | .shrink | .halted _ => []

/-- The listener that the loop works on before the queues. -/
def Pc.listener : Pc → Option Ptr
  | .associate ent => ent
  | .accept li _ => some li
  | .setUp | .wait | .dispatch _ | .queue _ | .queueFd _ _ | .queueRun _ _ _ | .exitQueue
  | .shrink | .halted _ => none

/-- Every event of a batch is for a listener in use, or for a coroutine in the wait it is about. -/
structure BatchOk (m : Machine) (listenList : List Ptr) (batch : List Event) : Prop where
  listens : ∀ event ∈ batch, ∀ li, event.ptr = .listen li → li ∈ listenList
  waits : ∀ event ∈ batch, ∀ er, event.ptr = .routine er → m.pool.Busy er ∧
    efCoroutineCurrent m.pool ≠ some er ∧
      ∃ fd, (m.routines er).stage.waitsFor = some (fd, event.ticket)
  apart : batch.Pairwise fun first second =>
    ∀ er, first.ptr = .routine er → second.ptr ≠ .routine er

/-- Nothing is left of an empty batch. -/
theorem BatchOk.nil (m : Machine) (listenList : List Ptr) : BatchOk m listenList [] :=
  ⟨by simp, by simp, .nil⟩

/-- What is always true of the loop, whatever descriptors the handlers use. -/
structure WorldInv (w : World) : Prop where
  machine : MachineInv w.machine
  batch : BatchOk w.machine w.listenList w.pc.batch
  /-- A coroutine runs only inside one of the two resumes of the loop. -/
  runner : efCoroutineCurrent w.machine.pool ≠ none →
    (∃ batch, w.pc = .dispatch batch) ∨ ∃ li qf enf, w.pc = .queueRun li qf enf
  listener : ∀ li ∈ w.pc.listener, li ∈ w.listenList
  nodup : w.listenList.Nodup
  types : ∀ li ∈ w.listenList, (w.listens li).pollData.type = .listen
  /-- An entry that points to a listener is the one for its socket. -/
  entries : ∀ fd entry li, w.machine.kernel.interest fd = some entry → entry.ptr = .listen li →
    li ∈ w.listenList ∧ (w.listens li).pollData.fd = fd ∧ 0 ≤ fd
  /-- No listening socket is closed before the loop has begun. -/
  early : (w.pc = .setUp ∨ ∃ ent, w.pc = .associate ent) →
    ∀ li ∈ w.listenList, 0 ≤ (w.listens li).pollData.fd

/-- Steps that only move the system thread on. -/
inductive Jump (w : World) : LoopOp → Pc → Prop
  | unlisted (socket : Fd) (proc : Ptr) (setfl : Int) (mapped : Option Ptr) : w.pc = .setUp →
      Jump w (.addListen socket proc setfl mapped) .setUp
  | enters : w.pc = .setUp → Jump w .run (.associate w.listenList.head?)
  | fails (ent : Ptr) (refusal : Option Int) : w.pc = .associate (some ent) →
      Jump w (.associate refusal) (.halted (-1))
  | associated : w.pc = .associate none → Jump w .advance .wait
  | interrupted (errno : Int) : w.pc = .wait →
      Jump w (.wait (.failed errno)) (.queue w.listenList.head?)
  | broken (errno : Int) : w.pc = .wait → Jump w (.wait (.failed errno)) (.halted (-1))
  | reported (ready : List (Fd × Nat)) : w.pc = .wait → w.machine.kernel.Reports 1024 ready →
      Jump w (.wait (.reported ready)) (.dispatch (efEpollWait w.machine.kernel ready))
  | accepted (li : Ptr) (batch : List Event) : w.pc = .accept li batch →
      Jump w (.accept .failed) (.dispatch batch)
  | dispatched : w.pc = .dispatch [] → Jump w .advance (.queue w.listenList.head?)
  | accepts (li : Ptr) (event : Event) (batch : List Event) : w.pc = .dispatch (event :: batch) →
      event.ptr = .listen li → Jump w .advance (.accept li batch)
  | started : w.pc = .queue none → Jump w .advance .exitQueue
  | opens (li : Ptr) : w.pc = .queue (some li) →
      Jump w .advance (.queueFd li (w.listens li).fdList.head?)
  | closes (li : Ptr) : w.pc = .queueFd li none →
      Jump w .advance (.queue (entryAfter w.listenList li))
  | exhausted (li qf : Ptr) (mapped : Option Ptr) : w.pc = .queueFd li (some qf) →
      w.machine.pool.freeCount ≤ 0 →
      w.machine.pool.limitMax ≤ w.machine.pool.fullCount ∨ mapped = none →
      Jump w (.start mapped) .exitQueue
  | goesOn : w.pc = .exitQueue → w.stopping = false → Jump w .advance .shrink

/-- The world after `ef_add_listen` has put this listener on the list. -/
def World.listened (w : World) (socket : Fd) (proc li : Ptr) : World :=
  { w with
    machine := { w.machine with kernel := w.machine.kernel.give socket .listener }
    listens := Function.update w.listens li ⟨⟨.listen, socket, 0, 0⟩, proc, []⟩
    listenList := li :: w.listenList
    trace := w.trace ++ [LoopEvent.listened li socket] }

/-- The world in which the kernel has just opened a connection. -/
def World.opened (w : World) (fd : Fd) : World :=
  w.withKernel (w.machine.kernel.give fd .other)

/-- The world after a coroutine has been started for the node `qf`. -/
def World.started (w : World) (li qf : Ptr) (pool : Pool) (er : Ptr) : World :=
  { w with
    machine := w.machine.started pool er (w.listens li).efProc (w.queueFds qf)
    pc := .queueRun li qf (entryAfter (w.listens li).fdList qf)
    trace := w.trace ++
      [.started li er (w.listens li).efProc (w.queueFds qf) w.machine.number] }

/-- The world after the node `qf` has been moved to the free nodes. -/
def World.recycled (w : World) (li qf : Ptr) (enf : Option Ptr) : World :=
  { w.modifyListen li fun info => { info with fdList := info.fdList.erase qf } with
    freeFdList := qf :: w.freeFdList
    pc := .queueFd li enf }

/-- `ef_queue_fd` makes the new connection non-blocking and finds a node for it. -/
def World.Takes (w : World) (answers : QueueAnswers) : Prop :=
  ¬ (!answers.nonblock ∧ answers.setfl < 0) ∧ (w.freeFdList = [] → answers.node ≠ none)

instance (w : World) (answers : QueueAnswers) : Decidable (w.Takes answers) :=
  inferInstanceAs (Decidable (_ ∧ _))

/-- What a step of the loop can do. -/
inductive LoopMove (w : World) : LoopOp → World → Prop
  | jumps {op : LoopOp} (pc : Pc) : Jump w op pc → LoopMove w op { w with pc := pc }
  | listens (socket : Fd) (proc : Ptr) (setfl : Int) (li : Ptr) : w.pc = .setUp → 0 ≤ socket →
      li ∉ w.listenList →
      LoopMove w (.addListen socket proc setfl (some li)) (w.listened socket proc li)
  | associates (li : Ptr) (refusal : Option Int) : w.pc = .associate (some li) →
      w.machine.kernel.owner (w.listens li).pollData.fd ≠ none →
      w.machine.kernel.interest (w.listens li).pollData.fd = none →
      LoopMove w (.associate refusal)
        { w.withKernel (w.machine.kernel.register (w.listens li).pollData.fd
            ⟨efPollIn, .listen li, w.machine.number⟩) with
          pc := .associate (entryAfter w.listenList li) }
  /-- The new connection cannot be made non-blocking. -/
  | refuses (li : Ptr) (batch : List Event) (fd : Fd) (answers : QueueAnswers) :
      w.pc = .accept li batch → w.machine.kernel.Unused fd → ¬ w.Takes answers →
      LoopMove w (.accept (.accepted fd answers)) { w.opened fd with pc := .dispatch batch }
  /-- There is no memory for a node. -/
  | drops (li : Ptr) (batch : List Event) (fd : Fd) (answers : QueueAnswers) :
      w.pc = .accept li batch → w.machine.kernel.Unused fd → ¬ w.Takes answers →
      LoopMove w (.accept (.accepted fd answers))
        { w.withKernel ((w.machine.kernel.give fd .other).close fd).1 with pc := .dispatch batch }
  | reuses (li : Ptr) (batch : List Event) (fd : Fd) (answers : QueueAnswers) (qf : Ptr)
      (rest : List Ptr) : w.pc = .accept li batch → w.machine.kernel.Unused fd →
      w.freeFdList = qf :: rest → w.Takes answers →
      LoopMove w (.accept (.accepted fd answers))
        ({ w.opened fd with freeFdList := rest }.enqueue li qf fd)
  | allocates (li : Ptr) (batch : List Event) (fd : Fd) (answers : QueueAnswers) (qf : Ptr) :
      w.pc = .accept li batch → w.machine.kernel.Unused fd → w.freeFdList = [] → qf ∉ w.nodes →
      w.Takes answers →
      LoopMove w (.accept (.accepted fd answers))
        ({ w.opened fd with nodes := qf :: w.nodes }.enqueue li qf fd)
  | wakes (er : Ptr) (event : Event) (batch : List Event) : w.pc = .dispatch (event :: batch) →
      event.ptr = .routine er →
      LoopMove w .advance
        { w with machine := w.machine.wake er event.events, pc := .dispatch batch }
  | starts (li qf : Ptr) (mapped : Option Ptr) (pool : Pool) (er : Ptr) :
      w.pc = .queueFd li (some qf) →
      Created w.machine.pool efProcAddress 0 mapped (pool, some er) →
      LoopMove w (.start mapped) (w.started li qf pool er)
  | recycles (li qf : Ptr) (enf : Option Ptr) : w.pc = .queueRun li qf enf →
      LoopMove w .advance (w.recycled li qf enf)
  | stops : w.pc = .exitQueue → w.stopping = true → LoopMove w .advance w.exitQueue
  | shrinks : w.pc = .shrink → LoopMove w .advance w.shrink

/-- A coroutine that has just been started announces itself with what it was given. -/
theorem Machine.started_events (m : Machine) (pool : Pool) (er proc : Ptr) (socket : Fd) (li : Ptr)
    (current : efCoroutineCurrent (m.started pool er proc socket).pool = some er) :
    (m.started pool er proc socket).startedEvents li = [.started li er proc socket m.number] := by
  simp only [Machine.startedEvents, current]
  simp [Machine.started, Machine.wake, Machine.modify_routines, Routine.goOn]

namespace WorldInv

variable {w : World}

/-- The end of `ef_queue_fd` behind the check for blocking mode. -/
theorem queueFd_move {li : Ptr} {batch : List Event} {fd : Fd} {answers : QueueAnswers}
    (at_ : w.pc = .accept li batch) (unused : w.machine.kernel.Unused fd)
    (fresh : ∀ node ∈ answers.node, node ∉ w.nodes) {after : World} {ret : Int}
    (queued : efQueueFd (w.opened fd) li fd answers = (after, ret)) :
    LoopMove w (.accept (.accepted fd answers))
      (if ret < 0 then { after with pc := .dispatch batch } else after) := by
  -- The cases are the ways out of the function, in its own order.
  unfold efQueueFd at queued
  split at queued
  · rename_i blocking
    obtain ⟨rfl, rfl⟩ := Prod.mk.inj queued
    rw [if_pos blocking.2]
    exact .refuses li batch fd answers at_ unused fun takes => takes.1 blocking
  · rename_i free
    split at queued
    · rename_i qf rest shape
      obtain ⟨rfl, rfl⟩ := Prod.mk.inj queued
      have shape : w.freeFdList = qf :: rest := shape
      have takes : w.Takes answers := ⟨free, fun empty => by rw [shape] at empty; cases empty⟩
      exact .reuses li batch fd answers qf rest at_ unused shape takes
    · rename_i empty
      have empty : w.freeFdList = [] := empty
      split at queued
      · rename_i qf found
        obtain ⟨rfl, rfl⟩ := Prod.mk.inj queued
        have takes : w.Takes answers := ⟨free, fun _ none => by rw [found] at none; cases none⟩
        exact .allocates li batch fd answers qf at_ unused empty (fresh qf found) takes
      · rename_i none
        obtain ⟨rfl, rfl⟩ := Prod.mk.inj queued
        exact .drops li batch fd answers at_ unused fun takes => takes.2 empty none

/-- The event at the head of a batch starts an accept loop or wakes a coroutine. -/
theorem dispatch_move (inv : WorldInv w) (loop : efCoroutineCurrent w.machine.pool = none)
    {batch : List Event} (at_ : w.pc = .dispatch batch) {after : World}
    (stepped : w.dispatch batch = some after) : LoopMove w .advance after := by
  cases batch with
  | nil =>
    obtain rfl := Option.some.inj stepped
    exact .jumps _ (.dispatched at_)
  | cons event batch =>
    have ok := inv.batch
    rw [at_] at ok
    cases points : event.ptr with
    | listen li =>
      have type := inv.types li (ok.listens event List.mem_cons_self li points)
      simp only [World.dispatch, World.pollData, points, type, Option.some.injEq] at stepped
      subst stepped
      exact .jumps _ (.accepts li event batch at_ points)
    | routine er =>
      obtain ⟨busy, _⟩ := ok.waits event List.mem_cons_self er points
      have fits := (inv.machine.routines er busy).fits
      obtain ⟨resumed, _⟩ := MachineInv.resume_wakes inv.machine.pool loop busy event.events
      simp only [World.dispatch, World.pollData, points, fits.type, fits.self, resumed,
        Option.map_some, Option.some.injEq] at stepped
      subst stepped
      exact .wakes er event batch at_ points

/-- A step that depends on nothing outside is one of the moves. -/
theorem advance_move (inv : WorldInv w) (loop : efCoroutineCurrent w.machine.pool = none)
    {after : World} (stepped : w.advance = some after) : LoopMove w .advance after := by
  unfold World.advance at stepped
  split at stepped
  case h_2 batch at_ => exact inv.dispatch_move loop at_ stepped
  all_goals first | (obtain rfl := Option.some.inj stepped) | cases stepped
  case h_1 at_ => exact .jumps _ (.associated at_)
  case h_3 at_ => exact .jumps _ (.started at_)
  case h_4 li at_ => exact .jumps _ (.opens li at_)
  case h_5 li at_ => exact .jumps _ (.closes li at_)
  case h_6 li qf enf at_ => exact .recycles li qf enf at_
  case h_7 at_ =>
    by_cases stopping : w.stopping = true
    · exact .stops at_ stopping
    · rw [World.exitQueue, if_neg stopping]
      exact .jumps _ (.goesOn at_ (by simpa using stopping))
  case h_8 at_ => exact .shrinks at_

/-- Every step of the loop is one of the moves, provided the kernel maps unused memory. -/
theorem loopStep_move (inv : WorldInv w) (loop : efCoroutineCurrent w.machine.pool = none)
    {op : LoopOp} (fresh : ∀ mapped, op = .start mapped → w.machine.pool.Fresh mapped)
    {after : World} (stepped : w.loopStep op = some after) : LoopMove w op after := by
  -- The cases are the places where the system thread can be, with the answers it gets there.
  unfold World.loopStep at stepped
  split at stepped
  · rename_i socket proc setfl mapped at_
    obtain ⟨⟨numbered, unlisted⟩, stepped⟩ := Option.ite_none_right_eq_some.mp stepped
    obtain rfl := Option.some.inj stepped
    have stays : LoopMove w (.addListen socket proc setfl mapped) w := by
      have jump := LoopMove.jumps _ (Jump.unlisted socket proc setfl mapped at_)
      rwa [← at_] at jump
    unfold efAddListen
    split
    · exact stays
    · cases mapped with
      | none => exact stays
      | some li => exact .listens socket proc setfl li at_ numbered (unlisted li rfl)
  · rename_i at_
    obtain rfl := Option.some.inj stepped
    exact .jumps _ (.enters at_)
  · rename_i li refusal at_
    rcases w.machine.kernel.add_cases (w.listens li).pollData.fd
      ⟨efPollIn, .listen li, w.machine.number⟩ refusal with
      ⟨opened, absent, added⟩ | ⟨errno, refused⟩
    · simp only [efEpollAssociate, Bool.false_eq_true, if_false, added,
        Option.some.injEq] at stepped
      subst stepped
      exact .associates li refusal at_ opened absent
    · simp only [efEpollAssociate, Bool.false_eq_true, if_false, refused,
        Option.some.injEq] at stepped
      subst stepped
      exact .jumps _ (.fails li refusal at_)
  · rename_i answer at_
    cases answer with
    | failed errno =>
      simp only [World.wait] at stepped
      split at stepped
      · obtain rfl := Option.some.inj stepped
        exact .jumps _ (.interrupted errno at_)
      · obtain rfl := Option.some.inj stepped
        exact .jumps _ (.broken errno at_)
    | reported ready =>
      obtain ⟨reports, stepped⟩ := Option.ite_none_right_eq_some.mp stepped
      obtain rfl := Option.some.inj stepped
      exact .jumps _ (.reported ready at_ reports)
  · rename_i li batch answer at_
    cases answer with
    | failed =>
      obtain rfl := Option.some.inj stepped
      exact .jumps _ (.accepted li batch at_)
    | accepted fd answers =>
      obtain ⟨⟨unused, fresh⟩, stepped⟩ := Option.ite_none_right_eq_some.mp stepped
      obtain rfl := Option.some.inj stepped
      exact queueFd_move at_ unused fresh rfl
  · rename_i li qf mapped at_
    rcases inv.machine.routineRun_cases loop (fresh mapped rfl) (w.listens li).efProc
      (w.queueFds qf) with ⟨ran, empty, why⟩ | ⟨pool, er, created, ran, current⟩
    · simp only [World.start, ran, Option.map_some, Option.some.injEq] at stepped
      subst stepped
      exact .jumps _ (.exhausted li qf mapped at_ empty why)
    · simp only [World.start, ran, Option.map_some, Option.some.injEq,
        w.machine.started_events pool er _ _ li current] at stepped
      subst stepped
      exact .starts li qf mapped pool er at_ created
  · exact inv.advance_move loop stepped
  · cases stepped

end WorldInv

end SimpleSrv.Ef
