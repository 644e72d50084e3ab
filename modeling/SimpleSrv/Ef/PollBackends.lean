import SimpleSrv.Ef.KqueueLaws

/-! The two backends of the poll interface, driven by the same calls, and when they agree. -/

namespace SimpleSrv.Ef

/-- A call of the interface, or the opening of a descriptor in between. -/
inductive PollCall where
  | opened (fd : Nat)
  /-- `associate` for one direction, with what new memory would hold before it is written. -/
  | associate (fd : Nat) (filter : Filter) (ptr : PollPtr) (garbage : Nat → KqueueItem)
  | dissociate (fd : Nat) (fired : Bool)
  /-- The calls of `dissociate` and `close` in `ef_routine_close`. -/
  | close (fd : Nat)

/-- Both backends in processes with the same open descriptors, which `kernel` records. -/
structure Backends where
  kernel : Kernel
  ep : EfKqueue
  filters : Filters

/-- What `epoll_wait` can report for a descriptor and a direction. -/
def Kernel.reportable (k : Kernel) (fd : Fd) (filter : Filter) : Option PollPtr :=
  (k.interest fd).bind fun entry =>
    if entry.events &&& filter.events ≠ 0 then some entry.ptr else none

namespace Backends

/-- Two fresh poll objects, as long as no descriptor is open. -/
def fresh (cap : Nat) : Backends :=
  ⟨⟨fun _ => none, fun _ => none⟩, efKqueueCreate cap, fun _ _ => none⟩

/--
Make one call on both backends, and tell whether both succeed or both fail.

Memory is always available, and the kernels refuse numbers that are not open.
Nothing is returned where the call of the kqueue backend is undefined.
-/
def call (b : Backends) : PollCall → Option (Backends × Bool)
  | .opened fd => some ({ b with kernel := b.kernel.give fd .other }, true)
  | .associate fd filter ptr garbage =>
    let (kernel, answer) := efEpollAssociate b.kernel fd filter.events ptr false 0 none
    let refused := decide (b.kernel.owner fd = none)
    (efKqueueAssociate b.ep b.filters fd filter.events ptr false ⟨true, true, garbage⟩ refused).map
      fun (ep, filters, value) => (⟨kernel, ep, filters⟩, decide (answer.value < 0 ↔ value < 0))
  | .dissociate fd fired =>
    (efKqueueDissociate b.ep b.filters fd fired false false).map fun (ep, filters, _) =>
      (⟨(efEpollDissociate b.kernel fd fired false).1, ep, filters⟩, true)
  | .close fd =>
    (efKqueueDissociate b.ep b.filters fd false true false).map fun (ep, filters, _) =>
      (⟨(efRoutineClose b.kernel fd).1, ep, filters.closed fd⟩, true)

/-- Both backends can report the same pointers for the same descriptors and directions. -/
def SameReports (b : Backends) : Prop :=
  ∀ (fd : Nat) (filter : Filter), b.kernel.reportable fd filter = b.filters fd filter

/-- Every one of these calls is answered alike and leaves the same to be reported. -/
def Agree : Backends → List PollCall → Prop
  | _, [] => True
  | b, call :: rest => ∃ after, b.call call = some (after, true) ∧ after.SameReports ∧
      Agree after rest

end Backends

/-- The purpose of the interface: who waits for which open descriptor. -/
structure Waits where
  opened : Nat → Bool
  entry : Nat → Option (Filter × PollPtr)

namespace Waits

/-- Nobody waits, and nothing is open. -/
def none : Waits := ⟨fun _ => false, fun _ => .none⟩

/-- What a call means for those who wait. -/
def call (w : Waits) : PollCall → Waits
  | .opened fd => { w with opened := Function.update w.opened fd true }
  | .associate fd filter ptr _ =>
    if w.opened fd then { w with entry := Function.update w.entry fd (some (filter, ptr)) } else w
  | .dissociate fd _ => { w with entry := Function.update w.entry fd .none }
  | .close fd => ⟨Function.update w.opened fd false, Function.update w.entry fd .none⟩

/-- Whom an event of a descriptor and a direction is for. -/
def report (w : Waits) (fd : Nat) (filter : Filter) : Option PollPtr :=
  (w.entry fd).bind fun (direction, ptr) => if direction = filter then some ptr else .none

end Waits

/-- Doubling the capacity exceeds the descriptor before it exceeds the range of an `int`. -/
def InReach (cap fd : Nat) : Prop := ∃ k, fd < cap * 2 ^ k ∧ cap * 2 ^ k < 2 ^ 31

/-- Nobody waits for the descriptor of an `associate` yet, and its number is in reach. -/
def Waits.Takes (cap : Nat) (w : Waits) : PollCall → Prop
  | .associate fd _ _ _ => w.entry fd = .none ∧ InReach cap fd
  | _ => True

/-- At no time is there more than one who waits for a descriptor. -/
def Waits.OneEach (cap : Nat) : Waits → List PollCall → Prop
  | _, [] => True
  | w, call :: rest => w.Takes cap call ∧ (w.call call).OneEach cap rest

/-- The two backends hold what the interface is for, with a table that has grown by doubling. -/
structure Refines (cap : Nat) (w : Waits) (b : Backends) : Prop where
  opened : ∀ fd : Nat, b.kernel.owner fd = none ↔ w.opened fd = false
  epoll : ∀ fd : Nat, b.kernel.interest fd =
    (w.entry fd).map fun (filter, ptr) => ⟨filter.events, ptr, 0⟩
  kqueue : ∀ fd filter, b.filters fd filter = w.report fd filter
  alive : ∀ fd, w.entry fd ≠ none → w.opened fd = true
  table : KqueueOk b.ep b.filters
  grown : ∃ j, b.ep.cap = cap * 2 ^ j

/-- Whether a capacity is found does not depend on the doublings that have been made before. -/
theorem growCap_isSome_iff {cap fd j : Nat} (positive : 0 < cap) (outside : cap * 2 ^ j ≤ fd)
    (fits : cap * 2 ^ j < 2 ^ 31) :
    (growCap fd maxDoublings (cap * 2 ^ j)).isSome ↔ InReach cap fd := by
  -- The doublings of one call continue those of the calls before.
  constructor
  · intro found
    obtain ⟨new, grown⟩ := Option.isSome_iff_exists.mp found
    obtain ⟨above, _, below, k, same⟩ := growCap_spec fits grown
    have all : new = cap * 2 ^ (j + k) := by
      rw [same, Nat.pow_add, Nat.mul_assoc]
    exact ⟨j + k, all ▸ above, all ▸ below⟩
  · rintro ⟨k, above, below⟩
    -- The doublings that are still to come are those beyond the ones made before.
    have later : j < k := by
      have larger : cap * 2 ^ j < cap * 2 ^ k := by omega
      exact (Nat.pow_lt_pow_iff_right (by decide)).mp (Nat.lt_of_mul_lt_mul_left larger)
    obtain ⟨m, rfl⟩ := Nat.exists_eq_add_of_lt later
    have all : cap * 2 ^ j * 2 ^ (m + 1) = cap * 2 ^ (j + m + 1) := by
      rw [Nat.mul_assoc, ← Nat.pow_add]
      rfl
    have few : j + m + 1 < 31 := by
      have least : 2 ^ (j + m + 1) ≤ cap * 2 ^ (j + m + 1) := Nat.le_mul_of_pos_left _ positive
      exact (Nat.pow_lt_pow_iff_right (by decide)).mp (Nat.lt_of_le_of_lt least below)
    have few' : m + 1 < maxDoublings := by
      unfold maxDoublings
      omega
    exact growCap_isSome few' (Nat.mul_pos positive (Nat.two_pow_pos j)) (all ▸ above) (all ▸ below)

namespace KqueueOk

variable {ep : EfKqueue} {q : Filters} {cap j fd : Nat}

/-- With memory at hand, `ef_kqueue_associate` makes room for a number in reach. -/
theorem associate_inReach (ok : KqueueOk ep q) (positive : 0 < cap) (size : ep.cap = cap * 2 ^ j)
    (reach : InReach cap fd) (garbage : Nat → KqueueItem) (filter : Filter) (ptr : PollPtr)
    (refused : Bool) :
    ∃ after, KqueueOk after q ∧ fd < after.cap ∧ (∃ i, after.cap = cap * 2 ^ i) ∧
      efKqueueAssociate ep q fd filter.events ptr false ⟨true, true, garbage⟩ refused =
        some (if refused then (after, q, -1) else
          ({ after with items := after.items.set fd (associateItem (q.item fd) filter.events) },
            q.set fd filter (some ptr), 0)) := by
  -- Below the capacity there is an entry already.
  by_cases inside : fd < ep.cap
  · exact ⟨ep, ok, inside, ⟨j, size⟩, ok.associate_inside inside filter ptr _ refused⟩
  · -- The table grows first, and then has an entry for the descriptor.
    have outside := Nat.le_of_not_lt inside
    have found := (growCap_isSome_iff positive (size ▸ outside) (size ▸ ok.fits)).mpr reach
    obtain ⟨new, grown⟩ := Option.isSome_iff_exists.mp found
    rw [← size] at grown
    obtain ⟨after, expanded, expands, ok', _, lucky⟩ :=
      ok.expand outside grown ⟨true, true, garbage⟩
    obtain ⟨rfl, same⟩ := lucky rfl rfl
    obtain ⟨above, _, _, k, bigger⟩ := growCap_spec ok.fits grown
    have inside' : fd < after.cap := same ▸ above
    refine ⟨after, ok', inside', ⟨j + k, ?_⟩, ?_⟩
    · rw [same, bigger, size, Nat.mul_assoc, ← Nat.pow_add]
    · rw [associate_outside outside expands (.inr inside'), if_neg (by decide),
        ok'.associate_inside inside']

/-- For a number that is out of reach, the capacity overflows. -/
theorem associate_outOfReach (ok : KqueueOk ep q) (positive : 0 < cap) (size : ep.cap = cap * 2 ^ j)
    (reach : ¬ InReach cap fd) (events : Nat) (ptr : PollPtr) (reallocs : Reallocs)
    (refused : Bool) :
    efKqueueAssociate ep q fd events ptr false reallocs refused = none := by
  -- A number below some capacity of the table would have been in reach.
  have outside : ep.cap ≤ fd := by
    by_contra inside
    exact reach ⟨j, size ▸ Nat.lt_of_not_le inside, size ▸ ok.fits⟩
  -- So the table has to grow, and the loop finds no capacity.
  have stuck : growCap fd maxDoublings ep.cap = none := by
    rw [← Option.not_isSome_iff_eq_none, size,
      growCap_isSome_iff positive (size ▸ outside) (size ▸ ok.fits)]
    exact reach
  unfold efKqueueAssociate efKqueueExpand
  rw [if_neg Bool.false_ne_true, if_pos outside, if_neg (Nat.not_lt.mpr outside), stuck]
  rfl

/-- `ef_kqueue_dissociate` with the kernel's consent leaves no filter of the descriptor. -/
theorem dissociated (ok : KqueueOk ep q) (fd : Nat) (fired onclose : Bool) :
    ∃ after filters value, efKqueueDissociate ep q fd fired onclose false =
        some (after, filters, value) ∧
      after.cap = ep.cap ∧ filters.closed fd = q.closed fd ∧ (onclose ∨ filters = q.closed fd) ∧
      KqueueOk after (q.closed fd) := by
  -- Below the capacity the table knows what to delete.
  by_cases inside : fd < ep.cap
  · rw [ok.dissociate_inside inside]
    cases onclose with
    | true => exact ⟨_, _, _, rfl, rfl, rfl, .inl rfl, ok.cleared inside⟩
    | false =>
      refine ⟨_, _, _, rfl, rfl, ?_, .inr rfl, ok.cleared inside⟩
      simp [Filters.closed]
  · -- There is nothing to dissociate from the capacity on.
    have same := ok.closed_outside (Nat.le_of_not_lt inside)
    refine ⟨ep, q, 0, ?_, rfl, rfl, .inr same.symm, same.symm ▸ ok⟩
    simp [efKqueueDissociate, Nat.le_of_not_lt inside]

end KqueueOk

namespace Refines

variable {cap : Nat} {w : Waits} {b : Backends}

/-- Fresh poll objects, for which nobody waits. -/
theorem initial {size : Nat} (fits : size < 2 ^ 31) :
    Refines (efKqueueCreate size).cap .none (.fresh size) :=
  ⟨fun _ => by simp [Backends.fresh, Waits.none], fun _ => rfl, fun _ _ => rfl,
    fun _ waits => absurd rfl waits, .initial fits, 0, by simp [Backends.fresh]⟩

/-- Two backends that hold the same report the same. -/
theorem sameReports (refines : Refines cap w b) : b.SameReports := by
  -- Both registers are read through the same entry.
  intro fd filter
  rw [refines.kqueue, Kernel.reportable, refines.epoll, Waits.report]
  cases w.entry fd with
  | none => rfl
  | some waiting =>
    -- The bits of the two directions are different.
    obtain ⟨direction, ptr⟩ := waiting
    cases direction <;> cases filter <;> simp [Filter.events, efPollIn, efPollOut]

/-- Opening a descriptor changes nothing that is waited for. -/
theorem opens (refines : Refines cap w b) (fd : Nat) :
    Refines cap (w.call (.opened fd)) { b with kernel := b.kernel.give fd .other } := by
  -- Neither entries nor filters mention the descriptor table of the process.
  refine { refines with opened := fun other => ?_, alive := fun other waits => ?_ }
  · by_cases same : other = fd
    · simp [Waits.call, same]
    · have apart : (other : Int) ≠ fd := by omega
      simpa [Waits.call, same, apart] using refines.opened other
  · by_cases same : other = fd
    · simp [Waits.call, same]
    · simpa [Waits.call, same] using refines.alive other waits

/-- Whatever a backend does about one descriptor, those of the others stay. -/
theorem emptied (refines : Refines cap w b) (fd : Nat) (other : Nat) (filter : Filter) :
    (b.filters.closed fd) other filter =
      Waits.report { w with entry := Function.update w.entry fd none } other filter := by
  -- The rows of the others are equal before, and one row is empty on both sides.
  by_cases same : other = fd
  · simp [Filters.closed, Waits.report, same]
  · simpa [Filters.closed, Waits.report, same] using refines.kqueue other filter

/-- Dissociating succeeds on both sides, or does nothing on both. -/
theorem dissociates (refines : Refines cap w b) (fd : Nat) (fired : Bool) :
    ∃ after, b.call (.dissociate fd fired) = some (after, true) ∧
      Refines cap (w.call (.dissociate fd fired)) after := by
  -- The kqueue backend deletes the filters, since its table knows which there are.
  obtain ⟨ep, filters, value, done, size, _, gone, table⟩ :=
    refines.table.dissociated fd fired false
  obtain rfl := gone.resolve_left Bool.false_ne_true
  have answered : b.call (.dissociate fd fired) =
      some (⟨(efEpollDissociate b.kernel fd fired false).1, ep, b.filters.closed fd⟩, true) := by
    simp only [Backends.call, done, Option.map_some]
  refine ⟨_, answered, ?_⟩
  refine ⟨fun other => ?_, fun other => ?_, refines.emptied fd, fun other waits => ?_, table, ?_⟩
  · simpa [efEpollDissociate, Waits.call] using refines.opened other
  · by_cases same : other = fd
    · simp [efEpollDissociate, Waits.call, same]
    · have apart : (other : Int) ≠ fd := by omega
      simpa [efEpollDissociate, Waits.call, same, apart] using refines.epoll other
  · -- Those who wait afterwards have waited before.
    have old : w.entry other ≠ none := by
      intro absent
      by_cases same : other = fd <;> simp [Waits.call, same, absent] at waits
    exact refines.alive other old
  · exact size ▸ refines.grown

/-- Closing ends the registrations of the descriptor on both sides. -/
theorem closes (refines : Refines cap w b) (fd : Nat) :
    ∃ after, b.call (.close fd) = some (after, true) ∧ Refines cap (w.call (.close fd)) after := by
  -- The kernel drops filters with the descriptor, while the table is cleared by the backend.
  obtain ⟨ep, filters, value, done, size, gone, _, table⟩ :=
    refines.table.dissociated fd false true
  have answered : b.call (.close fd) =
      some (⟨(efRoutineClose b.kernel fd).1, ep, filters.closed fd⟩, true) := by
    simp only [Backends.call, done, Option.map_some]
  refine ⟨_, answered, ?_⟩
  refine ⟨fun other => ?_, fun other => ?_, fun other filter => ?_, fun other waits => ?_, ?_, ?_⟩
  · by_cases same : other = fd
    · simp [Waits.call, same]
    · have apart : (other : Int) ≠ fd := by omega
      simpa [Waits.call, same, apart] using refines.opened other
  · by_cases same : other = fd
    · simp [Waits.call, same]
    · have apart : (other : Int) ≠ fd := by omega
      simpa [Waits.call, same, apart] using refines.epoll other
  · rw [gone]
    exact refines.emptied fd other filter
  · by_cases same : other = fd
    · simp [Waits.call, same] at waits
    · simpa [Waits.call, same] using refines.alive other (by simpa [Waits.call, same] using waits)
  · rw [gone]
    exact table
  · exact size ▸ refines.grown

/-- What `ef_epoll_associate` does for a descriptor of an associated kernel. -/
theorem epoll_associate (refines : Refines cap w b) (fd : Nat) (filter : Filter) (ptr : PollPtr) :
    efEpollAssociate b.kernel fd filter.events ptr false 0 none =
      if w.opened fd = false then (b.kernel, ⟨-1, ebadf⟩)
      else if w.entry fd ≠ none then (b.kernel, ⟨-1, eexist⟩)
      else (b.kernel.register fd ⟨filter.events, ptr, 0⟩, ⟨0, 0⟩) := by
  -- The kernel checks first that the descriptor is open, and then that it is new.
  have entry : b.kernel.interest fd ≠ none ↔ w.entry fd ≠ none := by
    rw [refines.epoll fd, ne_eq, Option.map_eq_none_iff]
  simp only [efEpollAssociate, Bool.false_eq_true, if_false, Kernel.add, refines.opened fd, entry]

/-- Both kernels refuse exactly the descriptors that are not open. -/
theorem refused (refines : Refines cap w b) (fd : Nat) :
    decide (b.kernel.owner fd = none) = !w.opened fd := by
  -- The owner of a descriptor is the kernel's record of its being open.
  rw [Bool.eq_iff_iff, decide_eq_true_iff, refines.opened fd, Bool.not_eq_true']

/-- Associating a descriptor that nobody waits for is answered alike. -/
theorem associates (refines : Refines cap w b) (positive : 0 < cap) {fd : Nat} {filter : Filter}
    {ptr : PollPtr} {garbage : Nat → KqueueItem}
    (takes : w.Takes cap (.associate fd filter ptr garbage)) :
    ∃ after, b.call (.associate fd filter ptr garbage) = some (after, true) ∧
      Refines cap (w.call (.associate fd filter ptr garbage)) after := by
  -- Room is made in the table before either kernel is asked.
  obtain ⟨absent, reach⟩ := takes
  obtain ⟨j, size⟩ := refines.grown
  obtain ⟨ep, table, inside, grown, done⟩ := refines.table.associate_inReach positive size reach
    garbage filter ptr (decide (b.kernel.owner fd = none))
  cases shut : w.opened fd with
  | false =>
    -- Neither kernel knows the descriptor, but the table may have grown.
    have refused : decide (b.kernel.owner fd = none) = true := by rw [refines.refused, shut]; rfl
    have epoll := refines.epoll_associate fd filter ptr
    rw [if_pos shut] at epoll
    rw [refused, if_pos rfl] at done
    refine ⟨_, by simp [Backends.call, epoll, refused, done]; rfl, ?_⟩
    simp only [Waits.call, shut, Bool.false_eq_true, if_false]
    exact { refines with table := table, grown := grown }
  | true =>
    -- Both kernels register the descriptor, of which nothing was known.
    have refused : decide (b.kernel.owner fd = none) = false := by rw [refines.refused, shut]; rfl
    have epoll := refines.epoll_associate fd filter ptr
    rw [if_neg (by rw [shut]; exact Bool.noConfusion), if_neg (by simp [absent])] at epoll
    rw [refused, if_neg Bool.false_ne_true] at done
    refine ⟨_, by simp [Backends.call, epoll, refused, done]; rfl, ?_⟩
    simp only [Waits.call, shut, if_true]
    refine ⟨refines.opened, fun other => ?_, fun other direction => ?_, fun other waits => ?_,
      table.added inside filter ptr, grown⟩
    · by_cases same : other = fd
      · simp [same]
      · have apart : (other : Int) ≠ fd := by omega
        simpa [same, apart] using refines.epoll other
    · by_cases same : other = fd
      · -- The filter of the other direction was absent, as nobody waited.
        have row := refines.kqueue fd direction
        subst same
        cases filter <;> cases direction <;> simp_all [Filters.set, Waits.report]
      · simpa [Filters.set, Waits.report, same] using refines.kqueue other direction
    · by_cases same : other = fd
      · rw [same, shut]
      · exact refines.alive other (by simpa [same] using waits)

/-- Associating a descriptor that somebody waits for is answered differently, or undefined. -/
theorem differs (refines : Refines cap w b) (positive : 0 < cap) {fd : Nat} {filter : Filter}
    {ptr : PollPtr} {garbage : Nat → KqueueItem}
    (doubled : ¬ w.Takes cap (.associate fd filter ptr garbage)) (after : Backends) :
    b.call (.associate fd filter ptr garbage) ≠ some (after, true) := by
  -- Where the number is in reach, it is the second waiter that makes the difference.
  obtain ⟨j, size⟩ := refines.grown
  by_cases reach : InReach cap fd
  · have waiting : w.entry fd ≠ none := fun absent => doubled ⟨absent, reach⟩
    have opened := refines.alive fd waiting
    have refused : decide (b.kernel.owner fd = none) = false := by rw [refines.refused, opened]; rfl
    obtain ⟨ep, _, _, _, done⟩ := refines.table.associate_inReach positive size reach garbage filter
      ptr (decide (b.kernel.owner fd = none))
    -- One kernel answers `EEXIST`, and the other replaces what it has.
    have epoll := refines.epoll_associate fd filter ptr
    rw [if_neg (by rw [opened]; exact Bool.noConfusion), if_pos waiting] at epoll
    rw [refused, if_neg Bool.false_ne_true] at done
    simp [Backends.call, epoll, refused, done]
  · -- Otherwise the kqueue backend computes a capacity that overflows.
    have undefined := refines.table.associate_outOfReach positive size reach filter.events ptr
      ⟨true, true, garbage⟩ (decide (b.kernel.owner fd = none))
    simp [Backends.call, undefined]

/-- A call that the interface takes is answered alike, and both backends hold what it means. -/
theorem step (refines : Refines cap w b) (positive : 0 < cap) {call : PollCall}
    (takes : w.Takes cap call) :
    ∃ after, b.call call = some (after, true) ∧ Refines cap (w.call call) after := by
  -- The calls are taken one by one.
  cases call with
  | opened fd => exact ⟨_, rfl, refines.opens fd⟩
  | associate fd filter ptr garbage => exact refines.associates positive takes
  | dissociate fd fired => exact refines.dissociates fd fired
  | close fd => exact refines.closes fd

/-- From backends that hold the same, calls agree exactly if no descriptor has two who wait. -/
theorem agree_iff (refines : Refines cap w b) (positive : 0 < cap) (calls : List PollCall) :
    b.Agree calls ↔ w.OneEach cap calls := by
  -- The induction follows the calls, with the two states generalised.
  induction calls generalizing w b with
  | nil => exact Iff.rfl
  | cons call rest ih =>
    by_cases takes : w.Takes cap call
    · -- A call that is taken leads to states of the same kind.
      obtain ⟨after, answered, refines'⟩ := refines.step positive takes
      constructor
      · rintro ⟨other, answered', _, agree⟩
        rw [answered, Option.some.injEq, Prod.mk.injEq] at answered'
        obtain ⟨rfl, _⟩ := answered'
        exact ⟨takes, (ih refines').mp agree⟩
      · rintro ⟨_, one⟩
        exact ⟨after, answered, refines'.sameReports, (ih refines').mpr one⟩
    · constructor
      · -- A call that is not taken is an associate, as the others are always taken.
        rintro ⟨after, answered, _⟩
        cases call with
        | associate fd filter ptr garbage =>
          exact absurd answered (refines.differs positive takes _)
        | opened | dissociate | close => exact absurd trivial takes
      · rintro ⟨one, _⟩
        exact absurd one takes

end Refines

/-- The two poll backends agree exactly as long as nobody waits for a descriptor a second time. -/
theorem poll_backends_agree_iff {cap : Nat} (fits : cap < 2 ^ 31) (calls : List PollCall) :
    (Backends.fresh cap).Agree calls ↔ Waits.none.OneEach (efKqueueCreate cap).cap calls :=
  (Refines.initial fits).agree_iff (KqueueOk.initial fits).positive calls

/-- One routine waits to read from a descriptor, and another one to write to it. -/
def readerAndWriter : List PollCall :=
  [.opened 5, .associate 5 .read (.routine 1) fun _ => .zero,
    .associate 5 .write (.routine 2) fun _ => .zero]

/-- Only one of the backends takes the second of these routines. -/
theorem kqueue_alone_takes_both : ¬ (Backends.fresh 128).Agree readerAndWriter := by
  rintro ⟨first, opened, _, second, reads, _, third, writes, _⟩
  -- The states are those that the calls compute, and the answers to the last call differ.
  obtain rfl := (Prod.ext_iff.mp (Option.some.inj opened)).1
  obtain rfl := (Prod.ext_iff.mp (Option.some.inj reads)).1
  have answers : true = false := (Prod.ext_iff.mp (Option.some.inj writes)).2.symm
  exact Bool.noConfusion answers

/-- As long as the descriptor is closed in between, both routines may wait. -/
theorem poll_backends_agree_one_after_other :
    (Backends.fresh 128).Agree [.opened 5, .associate 5 .read (.routine 1) fun _ => .zero, .close 5,
      .opened 5, .associate 5 .write (.routine 2) fun _ => .zero] := by
  -- The number is below the first capacity, and nobody waits for it at either time.
  have reach : InReach 128 5 := ⟨0, by decide, by decide⟩
  refine (poll_backends_agree_iff (by decide) _).mpr ⟨trivial, ⟨rfl, reach⟩, trivial, trivial, ?_⟩
  exact ⟨⟨rfl, reach⟩, trivial⟩

end SimpleSrv.Ef
