import SimpleSrv.Ef.MachineLaws

/-! Handlers that use only their own descriptors leave those of everybody else alone. -/

namespace SimpleSrv.Ef

/-- The descriptor of a call, or of a close, belongs to the coroutine that makes it. -/
def Machine.OwnOnly (m : Machine) (er : Ptr) : HandlerOp → Prop
  | .transfer _ fd _ _ | .connect fd _ | .close fd => m.kernel.owner fd = some (.routine er)
  | .goOn _ | .socket _ | .ret _ => True

instance (m : Machine) (er : Ptr) : (op : HandlerOp) → Decidable (m.OwnOnly er op)
  | .transfer _ fd _ _ | .connect fd _ | .close fd =>
    inferInstanceAs (Decidable (m.kernel.owner fd = some (.routine er)))
  | .goOn _ | .socket _ | .ret _ => inferInstanceAs (Decidable True)

/-- A handler that has closed its connection finds the number closed, its own again, or stray. -/
def Machine.MayReturn (m : Machine) (er : Ptr) : Prop :=
  (m.routines er).closedConn = true →
    m.kernel.owner (m.routines er).connFd = none ∨
      m.kernel.owner (m.routines er).connFd = some (.routine er) ∨
      m.kernel.owner (m.routines er).connFd = some .other

instance (m : Machine) (er : Ptr) : Decidable (m.MayReturn er) :=
  inferInstanceAs (Decidable (_ → _ ∨ _ ∨ _))

/-- Whoever returns may return now. -/
def Machine.ReturnOk (m : Machine) (er : Ptr) : HandlerOp → Prop
  | .ret _ => m.MayReturn er
  | .transfer _ _ _ _ | .connect _ _ | .goOn _ | .close _ | .socket _ => True

instance (m : Machine) (er : Ptr) : (op : HandlerOp) → Decidable (m.ReturnOk er op)
  | .ret _ => inferInstanceAs (Decidable (m.MayReturn er))
  | .transfer _ _ _ _ | .connect _ _ | .goOn _ | .close _ | .socket _ =>
    inferInstanceAs (Decidable True)

namespace Kernel

/-- A change that takes nothing from these owners and makes no new listening socket. -/
structure Keeps (k after : Kernel) (held : Owner → Prop) : Prop where
  owner : ∀ fd owner, k.owner fd = some owner → held owner → after.owner fd = some owner
  interest : ∀ fd owner, k.owner fd = some owner → held owner → after.interest fd = k.interest fd
  listeners : ∀ fd, after.owner fd = some .listener → k.owner fd = some .listener

variable {k : Kernel} {held : Owner → Prop} {fd : Fd}

/-- Changing nothing takes nothing. -/
theorem Keeps.refl (k : Kernel) (held : Owner → Prop) : k.Keeps k held :=
  ⟨fun _ _ found _ => found, fun _ _ _ _ => rfl, fun _ found => found⟩

/-- Two changes take nothing from whom neither takes anything. -/
theorem Keeps.trans {middle after : Kernel} (first : k.Keeps middle held)
    (second : middle.Keeps after held) : k.Keeps after held := by
  -- What is held after the first change is held after the second.
  refine ⟨fun fd owner found keeps => ?_, fun fd owner found keeps => ?_, fun fd found => ?_⟩
  · exact second.owner fd owner (first.owner fd owner found keeps) keeps
  · rw [second.interest fd owner (first.owner fd owner found keeps) keeps]
    exact first.interest fd owner found keeps
  · exact first.listeners fd (second.listeners fd found)

/-- A number that is not in use is none of those that belong to somebody. -/
theorem Unused.apart (unused : k.Unused fd) {other : Fd} {owner : Owner}
    (found : k.owner other = some owner) : other ≠ fd := by
  -- An unused number has no owner.
  rintro rfl
  rw [unused.2] at found
  cases found

/-- A number that is not in use is taken from nobody. -/
theorem Keeps.give {owner : Owner} (unused : k.Unused fd) (unlike : owner ≠ .listener) :
    k.Keeps (k.give fd owner) held := by
  -- Every number that belongs to somebody is another one.
  refine ⟨fun other _ found _ => ?_, fun _ _ _ _ => rfl, fun other found => ?_⟩
  · rw [give_owner, if_neg (unused.apart found)]
    exact found
  · rw [give_owner] at found
    split at found
    · exact absurd (Option.some.inj found) unlike
    · exact found

/-- A number that is opened and closed at once is taken from nobody, too. -/
theorem Keeps.giveBack {owner : Owner} (unused : k.Unused fd) :
    k.Keeps ((k.give fd owner).close fd).1 held := by
  -- The number belongs to somebody for a moment only.
  have opened : (k.give fd owner).owner fd ≠ none := by simp
  rw [Kernel.close, if_neg opened]
  refine ⟨fun other owner found _ => ?_, fun other owner found _ => ?_, fun other found => ?_⟩
  · simpa [unused.apart found] using found
  · simp [unused.apart found]
  · simp only [Function.update_apply, give_owner] at found
    split at found
    · cases found
    · exact found

/-- A registration changes only the entry of its own descriptor. -/
theorem Keeps.register {entry : Registration}
    (own : ∀ owner, k.owner fd = some owner → ¬ held owner) :
    k.Keeps (k.register fd entry) held := by
  -- Whoever holds a descriptor holds another one.
  refine ⟨fun _ _ found _ => found, fun other owner found keeps => ?_, fun _ found => found⟩
  have apart : other ≠ fd := by
    rintro rfl
    exact own owner found keeps
  rw [register_interest, if_neg apart]

/-- A deletion changes only the entry of its own descriptor. -/
theorem Keeps.delete (own : ∀ owner, k.owner fd = some owner → ¬ held owner) :
    k.Keeps (k.delete fd).1 held := by
  -- Whoever holds a descriptor holds another one.
  refine ⟨fun other owner found _ => ?_, fun other owner found keeps => ?_, fun other found => ?_⟩
  · rw [delete_owner]
    exact found
  · have apart : other ≠ fd := by
      rintro rfl
      exact own owner found keeps
    rw [delete_interest, if_neg apart]
  · rw [delete_owner] at found
    exact found

/-- Closing a descriptor takes nothing from those whose it is not. -/
theorem Keeps.close (own : ∀ owner, k.owner fd = some owner → ¬ held owner) :
    k.Keeps (efRoutineClose k fd).1 held := by
  -- Whoever holds a descriptor holds another one.
  have apart : ∀ {other owner}, k.owner other = some owner → held owner → other ≠ fd := by
    rintro other owner found keeps rfl
    exact own owner found keeps
  refine ⟨fun other owner found keeps => ?_, fun other owner found keeps => ?_,
    fun other found => ?_⟩
  · rw [efRoutineClose_owner, if_neg (apart found keeps)]
    exact found
  · rw [efRoutineClose_interest, if_neg (apart found keeps)]
  · rw [efRoutineClose_owner] at found
    split at found
    · cases found
    · exact found

/-- What a finished handler leaves behind was its own. -/
theorem Keeps.orphan {er : Ptr} (own : ¬ held (.routine er)) : k.Keeps (k.orphan er) held := by
  -- Only what belongs to the coroutine changes its owner.
  refine ⟨fun fd owner found keeps => ?_, fun _ _ _ _ => rfl, fun fd found => ?_⟩
  · have apart : k.owner fd ≠ some (.routine er) := by
      intro mine
      obtain rfl := Option.some.inj (found.symm.trans mine)
      exact own keeps
    simp only [Kernel.orphan, if_neg apart]
    exact found
  · simp only [Kernel.orphan] at found
    split at found
    · cases Option.some.inj found
    · exact found

/-- Handing over a connection takes it from the queue only. -/
theorem Keeps.handOver {er : Ptr} (own : ¬ held .queued) : k.Keeps (k.handOver fd er) held := by
  -- Only a queued connection changes its owner.
  refine ⟨fun other owner found keeps => ?_, fun other _ _ _ => by rw [handOver_interest],
    fun other found => ?_⟩
  · rw [handOver_owner, if_neg]
    · exact found
    · rintro ⟨rfl, queued⟩
      obtain rfl := Option.some.inj (found.symm.trans queued)
      exact own keeps
  · rw [handOver_owner] at found
    split at found
    · cases Option.some.inj found
    · exact found

end Kernel

/-- What a coroutine in use owns: its connection, and the descriptor that it waits for. -/
structure Machine.Owns (m : Machine) (er : Ptr) : Prop where
  conn : (m.routines er).closedConn = false →
    m.kernel.owner (m.routines er).connFd = some (.routine er)
  unlike : m.kernel.owner (m.routines er).connFd ≠ some .listener
  waits : ∀ fd ticket, (m.routines er).stage.waitsFor = some (fd, ticket) →
    m.kernel.owner fd = some (.routine er) ∧
      ∃ events, m.kernel.interest fd = some ⟨events, .routine er, ticket⟩

namespace Machine

variable {m : Machine} {er : Ptr}

/-- A coroutine keeps what nobody takes from it. -/
theorem Owns.kept (owns : m.Owns er) {after : Machine} {held : Owner → Prop}
    (keeps : m.kernel.Keeps after.kernel held) (mine : held (.routine er))
    (connFd : (after.routines er).connFd = (m.routines er).connFd)
    (closedConn : (after.routines er).closedConn = (m.routines er).closedConn)
    (waitsFor : (after.routines er).stage.waitsFor = (m.routines er).stage.waitsFor) :
    after.Owns er := by
  -- What the record says is the same, and so is what the kernel says about it.
  refine ⟨fun still => ?_, fun listening => ?_, fun fd ticket waiting => ?_⟩
  · rw [connFd]
    exact keeps.owner _ _ (owns.conn (closedConn ▸ still)) mine
  · rw [connFd] at listening
    exact owns.unlike (keeps.listeners _ listening)
  · obtain ⟨owner, events, entry⟩ := owns.waits fd ticket (waitsFor ▸ waiting)
    refine ⟨keeps.owner fd _ owner mine, events, ?_⟩
    rw [keeps.interest fd _ owner mine]
    exact entry

end Machine

section Moves

variable {m : Machine} {er : Ptr} {op : HandlerOp} {pool : Pool} {kernel : Kernel}
  {record : Routine}

/-- A call on a descriptor of one's own is such an operation. -/
theorem Machine.OwnOnly.of_call (own : m.OwnOnly er op) {call : RoutineCall}
    (calls : op.call = some call) : m.kernel.owner call.fd = some (.routine er) := by
  -- The operations that begin a call are those that name a descriptor.
  cases op with
  | transfer | connect =>
    obtain rfl := Option.some.inj calls
    exact own
  | goOn | close | socket | ret => cases calls

/-- A step of a handler takes nothing from anybody else that the program serves. -/
theorem HandlerMove.keeps (move : HandlerMove m er op pool kernel record) (owns : m.Owns er)
    (own : m.OwnOnly er op) (returns : m.ReturnOk er op) :
    m.kernel.Keeps kernel fun owner => owner ≠ .routine er ∧ owner ≠ .other := by
  -- Whatever the step changes belongs to the coroutine itself.
  have mine : ∀ {fd}, m.kernel.owner fd = some (.routine er) → ∀ owner,
      m.kernel.owner fd = some owner → ¬ (owner ≠ .routine er ∧ owner ≠ .other) := by
    intro fd owned owner found both
    obtain rfl := Option.some.inj (found.symm.trans owned)
    exact both.1 rfl
  cases move with
  | registers retval events calls => exact .register (mine (own.of_call calls))
  | returns | retries => exact .refl _ _
  | completes answer result woken =>
    exact .delete (mine (owns.waits _ _ (by rw [woken]; rfl)).1)
  | closes fd handler => exact .close (mine own)
  | opens fd handler unused => exact .give unused (by simp)
  | finishes retval handler =>
    refine Kernel.Keeps.trans (.close fun owner found both => ?_) (.orphan fun both => both.1 rfl)
    -- The trailing close meets the connection, or a number that nobody else has got since.
    cases closed : (m.routines er).closedConn with
    | false => exact mine (owns.conn closed) owner found both
    | true =>
      rcases returns closed with shut | again | stray
      · cases shut.symm.trans found
      · exact mine again owner found both
      · obtain rfl := Option.some.inj (found.symm.trans stray)
        exact both.2 rfl

/-- A coroutine that a step leaves in use still owns its connection and what it waits for. -/
theorem HandlerMove.owns_self (move : HandlerMove m er op pool kernel record)
    (current : efCoroutineCurrent m.pool = some er) (owns : m.Owns er) (own : m.OwnOnly er op)
    (busy : pool.Busy er) : (m.moved er pool kernel record).Owns er := by
  -- The step writes the record of this coroutine.
  have mine : (m.moved er pool kernel record).routines er = record := by
    simp [Machine.moved, Machine.modify_routines]
  have shared : (m.moved er pool kernel record).kernel = kernel := rfl
  obtain ⟨conn, unlike, waits⟩ := owns
  refine ⟨?_, ?_, ?_⟩ <;> rw [mine, shared]
  · intro still
    cases move with
    | registers | returns | retries => exact conn still
    | completes =>
      rw [Kernel.delete_owner]
      exact conn still
    | closes fd handler =>
      -- A connection that is not marked as closed is not the one that is closed now.
      simp only [Bool.or_eq_false_iff, decide_eq_false_iff_not] at still
      rw [efRoutineClose_owner, if_neg (Ne.symm still.2)]
      exact conn still.1
    | opens fd handler unused =>
      rw [Kernel.give_owner]
      split
      · rfl
      · exact conn still
    | finishes =>
      rw [Machine.exited_eq current] at busy
      exact absurd List.mem_cons_self busy.2
  · cases move with
    | registers | returns | retries => exact unlike
    | completes =>
      rw [Kernel.delete_owner]
      exact unlike
    | closes fd handler =>
      rw [efRoutineClose_owner]
      split
      · simp
      · exact unlike
    | opens fd handler unused =>
      rw [Kernel.give_owner]
      split
      · simp
      · exact unlike
    | finishes =>
      rw [Machine.exited_eq current] at busy
      exact absurd List.mem_cons_self busy.2
  · intro fd ticket waiting
    cases move with
    | registers retval events calls =>
      simp only [Stage.waitsFor, Option.some.injEq, Prod.mk.injEq] at waiting
      -- The call waits for its own descriptor, which it has just registered.
      obtain ⟨rfl, rfl⟩ := waiting
      exact ⟨own.of_call calls, events, by simp⟩
    | returns | completes => cases waiting
    | retries answer retval woken => exact waits fd ticket (by rw [woken]; exact waiting)
    | closes _ handler | opens _ handler =>
      rw [handler] at waiting
      cases waiting
    | finishes => cases waiting

/-- Every coroutine in use still owns what it needs after a step of one of them. -/
theorem HandlerMove.owns (move : HandlerMove m er op pool kernel record) (inv : MachineInv m)
    (current : efCoroutineCurrent m.pool = some er)
    (owns : ∀ other, m.pool.Busy other → m.Owns other) (own : m.OwnOnly er op)
    (returns : m.ReturnOk er op) (other : Ptr)
    (busy : pool.Busy other) : (m.moved er pool kernel record).Owns other := by
  -- A step that keeps the others keeps what they own.
  obtain ⟨_, older, _, _⟩ := move.pool_kept inv current
  have mine := owns er (inv.current_busy current)
  by_cases same : other = er
  · subst same
    exact move.owns_self current mine own busy
  · have theirs : (m.moved er pool kernel record).routines other = m.routines other := by
      simp [Machine.moved, Machine.modify_routines, same]
    refine (owns other (older other busy)).kept (move.keeps mine own returns) ?_
      (by rw [theirs]) (by rw [theirs]) (by rw [theirs])
    exact ⟨fun both => same (Owner.routine.inj both), by simp⟩

end Moves

end SimpleSrv.Ef
