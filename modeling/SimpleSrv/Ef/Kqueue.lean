import Mathlib.Algebra.Ring.Nat
import SimpleSrv.Ef.Epoll

/-! The kqueue backend of the poll interface, with the table that it keeps of its own filters. -/

namespace SimpleSrv.Ef

/-- The filters in use, `EVFILT_READ` and `EVFILT_WRITE`. -/
inductive Filter where
  | read | write
  deriving DecidableEq, Repr

/-- The direction that stands for a filter in the calls of the framework. -/
def Filter.events : Filter → Nat
  | .read => efPollIn
  | .write => efPollOut

/-- A change that `EV_SET` describes, of a descriptor and a filter. -/
inductive Change where
  | add (fd : Nat) (filter : Filter) (udata : PollPtr)
  | delete (fd : Nat) (filter : Filter)
  deriving DecidableEq, Repr

/-- The filters of a kernel queue, each with its `udata`. -/
abbrev Filters := Nat → Filter → Option PollPtr

namespace Filters

/-- Write one entry. -/
def set (q : Filters) (fd : Nat) (filter : Filter) (entry : Option PollPtr) : Filters :=
  Function.update q fd (Function.update (q fd) filter entry)

/-- Make a change, where nothing is returned for a filter that is not there. -/
def change (q : Filters) : Change → Option Filters
  -- Adding a filter that is there already replaces its `udata`.
  | .add fd filter udata => some (q.set fd filter (some udata))
  | .delete fd filter => if (q fd filter).isSome then some (q.set fd filter none) else none

/-- The kernel forgets the filters of a descriptor that is closed. -/
def closed (q : Filters) (fd : Nat) : Filters := Function.update q fd fun _ => none

end Filters

/-- `kevent` with changes only, which the kernel may refuse for reasons of its own. -/
def kevent (q : Filters) (refused : Bool) (changes : List Change) : Filters × Int :=
  if refused then (q, -1) else applied q changes
where
  /-- Make the changes in their order, up to the first that fails. -/
  applied (q : Filters) : List Change → Filters × Int
    | [] => (q, 0)
    | change :: rest =>
      match q.change change with
      | none => (q, -1)
      | some after => applied after rest

/-- `ef_kqueue_item_t`. -/
structure KqueueItem where
  read : Nat
  write : Nat
  deriving DecidableEq, Repr

/-- An entry that is filled with zeros. -/
def KqueueItem.zero : KqueueItem := ⟨0, 0⟩

/-- `ef_kqueue_t`, of whose array of events only the length matters. -/
structure EfKqueue where
  cap : Nat
  items : List KqueueItem
  events : Nat

/-- How the two calls of `realloc` would end, and what new memory holds before it is written. -/
structure Reallocs where
  items : Bool
  events : Bool
  garbage : Nat → KqueueItem

/-- `ef_kqueue_create`, as far as no allocation fails. -/
def efKqueueCreate (cap : Nat) : EfKqueue :=
  let cap := if cap < 128 then 128 else cap
  { cap := cap, items := List.replicate cap .zero, events := cap }

/-- The largest number of times that an `int` can be doubled, and once more to see it. -/
def maxDoublings : Nat := 32

/-- The loop that doubles `cap` until it exceeds `fd`, where an overflow has no defined result. -/
def growCap (fd : Nat) : Nat → Nat → Option Nat
  | 0, _ => none
  | doublings + 1, cap =>
    if cap ≤ fd then
      if cap * 2 < 2 ^ 31 then growCap fd doublings (cap * 2) else none
    else some cap

/-- `realloc` of the items, the new part holding whatever was in memory. -/
def reallocItems (items : List KqueueItem) (cap : Nat) (garbage : Nat → KqueueItem) :
    List KqueueItem :=
  items.take cap ++ (List.range (cap - items.length)).map garbage

/-- `memset` of the items from one index up to another to zero. -/
def zeroItems (items : List KqueueItem) (first last : Nat) : List KqueueItem :=
  items.take first ++ List.replicate (last - first) .zero ++ items.drop last

/-- `ef_kqueue_expand`, with its return value. -/
def efKqueueExpand (ep : EfKqueue) (fd : Nat) (reallocs : Reallocs) : Option (EfKqueue × Int) :=
  if ep.cap > fd then some (ep, 0)
  else
    (growCap fd maxDoublings ep.cap).map fun cap =>
      if reallocs.items then
        let items := zeroItems (reallocItems ep.items cap reallocs.garbage) ep.cap cap
        if reallocs.events then ({ cap := cap, items := items, events := cap }, 0)
        else ({ ep with items := items }, -1)
      else (ep, -1)

/-- The changes that `ef_kqueue_associate` asks for. -/
def associateChanges (fd events : Nat) (ptr : PollPtr) : List Change :=
  (if events &&& efPollIn ≠ 0 then [.add fd .read ptr] else []) ++
    (if events &&& efPollOut ≠ 0 then [.add fd .write ptr] else [])

/-- The entry that `ef_kqueue_associate` stores. -/
def associateItem (item : KqueueItem) (events : Nat) : KqueueItem :=
  let item := if events &&& efPollIn ≠ 0 then { item with read := 1 } else item
  if events &&& efPollOut ≠ 0 then { item with write := 1 } else item

/-- The changes that `ef_kqueue_dissociate` asks for. -/
def dissociateChanges (fd : Nat) (item : KqueueItem) : List Change :=
  (if item.read ≠ 0 then [.delete fd .read] else []) ++
    (if item.write ≠ 0 then [.delete fd .write] else [])

/--
`ef_kqueue_associate`, with the kernel's filters and the return value.

Nothing is returned where the capacity overflows or an index is out of bounds.
-/
def efKqueueAssociate (ep : EfKqueue) (q : Filters) (fd events : Nat) (ptr : PollPtr) (fired : Bool)
    (reallocs : Reallocs) (refused : Bool) : Option (EfKqueue × Filters × Int) :=
  -- Kqueue keeps the filter of a descriptor whose event has fired.
  if fired then some (ep, q, 0)
  else
    (if fd ≥ ep.cap then efKqueueExpand ep fd reallocs else some (ep, 0)).bind fun (ep, expanded) =>
      if expanded < 0 then some (ep, q, -1)
      else
        ep.items[fd]?.map fun item =>
          let (q, changed) := kevent q refused (associateChanges fd events ptr)
          if changed < 0 then (ep, q, -1)
          else ({ ep with items := ep.items.set fd (associateItem item events) }, q, 0)

/--
`ef_kqueue_dissociate`, with the kernel's filters and the return value.

Nothing is returned where an index is out of bounds.
-/
def efKqueueDissociate (ep : EfKqueue) (q : Filters) (fd : Nat) (_fired onclose refused : Bool) :
    Option (EfKqueue × Filters × Int) :=
  if fd ≥ ep.cap then some (ep, q, 0)
  else
    ep.items[fd]?.map fun item =>
      let cleared := { ep with items := ep.items.set fd .zero }
      -- The close that follows ends the registrations, so the kernel is not asked.
      if onclose then (cleared, q, 0)
      else
        let (q, changed) := kevent q refused (dissociateChanges fd item)
        if changed < 0 then (ep, q, -1) else (cleared, q, 0)

end SimpleSrv.Ef
