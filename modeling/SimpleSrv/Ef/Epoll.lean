import SimpleSrv.Ef.Fiber
import SimpleSrv.Lib.Errno

/-! The descriptors of the process, and the epoll backend of the poll interface over them. -/

namespace SimpleSrv.Ef

/-- A file descriptor. -/
abbrev Fd := Int

/-- `EF_POLLIN`. -/
def efPollIn : Nat := 0x001

/-- `EF_POLLOUT`. -/
def efPollOut : Nat := 0x004

/-- `EF_POLLERR`. -/
def efPollErr : Nat := 0x008

/-- `EF_POLLHUP`. -/
def efPollHup : Nat := 0x010

/-- The `ef_poll_data_t` that a registration points to. -/
inductive PollPtr where
  /-- The one of this `ef_listen_info_t`. -/
  | listen (li : Ptr)
  /-- The one of this `ef_routine_t`. -/
  | routine (er : Ptr)
  deriving DecidableEq, Repr

/-- Whom an open descriptor belongs to, of which the program keeps no record. -/
inductive Owner where
  | listener
  /-- A connection that has been accepted and waits in a queue. -/
  | queued
  | routine (er : Ptr)
  | other
  deriving DecidableEq, Repr

/-- An entry of the interest set. -/
structure Registration where
  events : Nat
  ptr : PollPtr
  /-- The number of the call that made the entry, which the program never sees. -/
  ticket : Nat
  deriving DecidableEq, Repr

/-- The kernel's open descriptors and the interest set of the one epoll object. -/
structure Kernel where
  /-- Nothing is known of a number that is not open. -/
  owner : Fd → Option Owner
  interest : Fd → Option Registration

namespace Kernel

/-- Put an entry into the interest set. -/
def register (k : Kernel) (fd : Fd) (entry : Registration) : Kernel :=
  { k with interest := Function.update k.interest fd (some entry) }

/-- `epoll_ctl` with `EPOLL_CTL_ADD`, which the kernel may refuse for reasons of its own. -/
def add (k : Kernel) (fd : Fd) (entry : Registration) (refusal : Option Int) : Kernel × Answer :=
  if k.owner fd = none then (k, ⟨-1, ebadf⟩)
  else if k.interest fd ≠ none then (k, ⟨-1, eexist⟩)
  else
    match refusal with
    | some errno => (k, ⟨-1, errno⟩)
    | none => (k.register fd entry, ⟨0, 0⟩)

/-- `epoll_ctl` with `EPOLL_CTL_DEL`. -/
def delete (k : Kernel) (fd : Fd) : Kernel × Answer :=
  if k.interest fd = none then (k, ⟨-1, if k.owner fd = none then ebadf else enoent⟩)
  else ({ k with interest := Function.update k.interest fd none }, ⟨0, 0⟩)

/-- `close`, which also ends the registration of the descriptor. -/
def close (k : Kernel) (fd : Fd) : Kernel × Answer :=
  if k.owner fd = none then (k, ⟨-1, ebadf⟩)
  else
    ({ owner := Function.update k.owner fd none
       interest := Function.update k.interest fd none }, ⟨0, 0⟩)

/-- Give an open descriptor to its new owner. -/
def give (k : Kernel) (fd : Fd) (owner : Owner) : Kernel :=
  { k with owner := Function.update k.owner fd (some owner) }

/-- The kernel opens descriptors only under numbers that are not in use. -/
def Unused (k : Kernel) (fd : Fd) : Prop := 0 ≤ fd ∧ k.owner fd = none

instance (k : Kernel) (fd : Fd) : Decidable (k.Unused fd) := inferInstanceAs (Decidable (_ ∧ _))

/-- What `epoll_wait` reports is registered, each descriptor once, and fits the array. -/
def Reports (k : Kernel) (count : Nat) (ready : List (Fd × Nat)) : Prop :=
  ready.length ≤ count ∧ (ready.map Prod.fst).Nodup ∧ ∀ p ∈ ready, k.interest p.1 ≠ none

instance (k : Kernel) (count : Nat) (ready : List (Fd × Nat)) : Decidable (k.Reports count ready) :=
  inferInstanceAs (Decidable (_ ∧ _ ∧ _))

end Kernel

/-- `ef_event_t`, with the number of the registration that it came from. -/
structure Event where
  events : Nat
  ptr : PollPtr
  ticket : Nat
  deriving DecidableEq, Repr

/-- `ef_epoll_associate`, in the call with this number. -/
def efEpollAssociate (k : Kernel) (fd : Fd) (events : Nat) (ptr : PollPtr) (fired : Bool)
    (ticket : Nat) (refusal : Option Int) : Kernel × Answer :=
  -- Epoll keeps the registration of a descriptor whose event has fired.
  if fired then (k, ⟨0, 0⟩) else k.add fd ⟨events, ptr, ticket⟩ refusal

/-- `ef_epoll_dissociate`. -/
def efEpollDissociate (k : Kernel) (fd : Fd) (_fired _onclose : Bool) : Kernel × Answer :=
  k.delete fd

/-- `ef_epoll_unset`. -/
def efEpollUnset (k : Kernel) (_fd : Fd) (_events : Nat) : Kernel × Answer := (k, ⟨0, 0⟩)

/-- `ef_epoll_wait`, as a list of what it puts into the array of events. -/
def efEpollWait (k : Kernel) (ready : List (Fd × Nat)) : List Event :=
  ready.filterMap fun (fd, events) =>
    (k.interest fd).map fun entry => ⟨events, entry.ptr, entry.ticket⟩

/-- `ef_routine_close`. -/
def efRoutineClose (k : Kernel) (fd : Fd) : Kernel × Answer :=
  (efEpollDissociate k fd false true).1.close fd

namespace Kernel

variable {k : Kernel} {fd other : Fd}

/-- A registration opens or closes no descriptor. -/
@[simp] theorem register_owner (entry : Registration) : (k.register fd entry).owner = k.owner := rfl

/-- Only the registered number gets a new entry. -/
@[simp] theorem register_interest (entry : Registration) :
    (k.register fd entry).interest other = if other = fd then some entry else k.interest other := by
  -- The interest set is updated in one place.
  simp only [register, Function.update_apply]

/-- Who owns a number is not what the instance watches it for. -/
@[simp] theorem give_interest (owner : Owner) : (k.give fd owner).interest = k.interest := rfl

/-- Only the number given away gets a new owner. -/
@[simp] theorem give_owner (owner : Owner) :
    (k.give fd owner).owner other = if other = fd then some owner else k.owner other := by
  -- The table of descriptors is updated in one place.
  simp only [give, Function.update_apply]

/-- Nor does the removal of an entry open or close a descriptor. -/
@[simp] theorem delete_owner : (k.delete fd).1.owner = k.owner := by
  -- Whether or not there is an entry, no descriptor is opened or closed.
  unfold delete
  split <;> rfl

/-- A deletion leaves no entry at its number, and every other entry as it was. -/
@[simp] theorem delete_interest :
    (k.delete fd).1.interest other = if other = fd then none else k.interest other := by
  -- A deletion without an entry fails, and leaves none.
  by_cases absent : k.interest fd = none
  · simp only [delete, if_pos absent]
    split
    · rename_i same
      rw [same, absent]
    · rfl
  · simp only [delete, if_neg absent, Function.update_apply]

/-- An entry is added to the interest set, or nothing happens and the answer is negative. -/
theorem add_cases (k : Kernel) (fd : Fd) (entry : Registration) (refusal : Option Int) :
    (k.owner fd ≠ none ∧ k.interest fd = none ∧
        k.add fd entry refusal = (k.register fd entry, ⟨0, 0⟩)) ∨
      ∃ errno, k.add fd entry refusal = (k, ⟨-1, errno⟩) := by
  -- The cases are the errors of the kernel in the order in which it checks for them.
  unfold add
  split
  · exact .inr ⟨_, rfl⟩
  · rename_i opened
    split
    · exact .inr ⟨_, rfl⟩
    · rename_i absent
      cases refusal with
      | some errno => exact .inr ⟨_, rfl⟩
      | none => exact .inl ⟨opened, by simpa using absent, rfl⟩

end Kernel

/-- After `ef_routine_close` the number is not open, and every other number is as before. -/
@[simp] theorem efRoutineClose_owner (k : Kernel) (fd other : Fd) :
    (efRoutineClose k fd).1.owner other = if other = fd then none else k.owner other := by
  -- A number that is not open stays as it is.
  by_cases shut : k.owner fd = none
  · simp only [efRoutineClose, efEpollDissociate, Kernel.close, Kernel.delete_owner, if_pos shut]
    split
    · rename_i same
      rw [same, shut]
    · rfl
  · simp only [efRoutineClose, efEpollDissociate, Kernel.close, Kernel.delete_owner, if_neg shut,
      Function.update_apply]

/-- After `ef_routine_close` the number is not registered, and every other entry is as before. -/
@[simp] theorem efRoutineClose_interest (k : Kernel) (fd other : Fd) :
    (efRoutineClose k fd).1.interest other = if other = fd then none else k.interest other := by
  -- The entry is deleted before the number is given back.
  by_cases shut : k.owner fd = none
  · simp only [efRoutineClose, efEpollDissociate, Kernel.close, Kernel.delete_owner, if_pos shut,
      Kernel.delete_interest]
  · simp only [efRoutineClose, efEpollDissociate, Kernel.close, Kernel.delete_owner, if_neg shut,
      Function.update_apply, Kernel.delete_interest]
    split <;> rfl

end SimpleSrv.Ef
