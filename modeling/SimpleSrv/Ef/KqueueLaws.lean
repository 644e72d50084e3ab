import SimpleSrv.Lib.Run
import SimpleSrv.Ef.Kqueue

/-! The table of the kqueue backend mirrors the kernel's filters, whatever calls fail. -/

namespace SimpleSrv.Ef

/-- The entry that describes the filters of a descriptor. -/
def Filters.item (q : Filters) (fd : Nat) : KqueueItem :=
  ⟨if (q fd .read).isSome then 1 else 0, if (q fd .write).isSome then 1 else 0⟩

/-- The table describes the kernel's filters, and both arrays are as long as `cap` says. -/
structure KqueueOk (ep : EfKqueue) (q : Filters) : Prop where
  positive : 0 < ep.cap
  fits : ep.cap < 2 ^ 31
  items : ep.cap ≤ ep.items.length
  events : ep.cap ≤ ep.events
  /-- An entry is 1 where the kernel has a filter, and 0 elsewhere. -/
  mirror : ∀ fd item, ep.items[fd]? = some item → item = q.item fd
  /-- No descriptor from the capacity on has a filter. -/
  known : ∀ fd filter, ep.cap ≤ fd → q fd filter = none

/-- A capacity that has been found exceeds the descriptor, and is a multiple of the old one. -/
theorem growCap_spec {fd new : Nat} : ∀ {doublings cap : Nat}, cap < 2 ^ 31 →
    growCap fd doublings cap = some new →
    fd < new ∧ cap ≤ new ∧ new < 2 ^ 31 ∧ ∃ k, new = cap * 2 ^ k
  | 0, _, _, grown => by cases grown
  | doublings + 1, cap, fits, grown => by
    -- Each round of the loop doubles the capacity once.
    rw [growCap] at grown
    split at grown
    · split at grown
      · rename_i room
        -- The rounds that follow start from twice the capacity, which the guard keeps in range.
        obtain ⟨above, larger, below, k, same⟩ := growCap_spec room grown
        refine ⟨above, by omega, below, k + 1, ?_⟩
        rw [same, Nat.pow_succ]
        grind
      · cases grown
    · rename_i enough
      -- A capacity beyond the descriptor is returned as it is.
      obtain rfl := Option.some.inj grown
      exact ⟨by omega, Nat.le_refl _, fits, 0, by omega⟩

/-- A capacity is found if doubling can exceed the descriptor before it overflows. -/
theorem growCap_isSome {fd : Nat} : ∀ {k doublings cap : Nat}, k < doublings → 0 < cap →
    fd < cap * 2 ^ k → cap * 2 ^ k < 2 ^ 31 → (growCap fd doublings cap).isSome
  | 0, doublings + 1, cap, _, _, above, _ => by
    -- The capacity is beyond the descriptor already, so the loop ends at once.
    rw [growCap, if_neg (by omega)]
    rfl
  | k + 1, doublings + 1, cap, enough, positive, above, fits => by
    rw [growCap]
    split
    · -- The rest of the doublings starts from twice the capacity.
      have shift : cap * 2 * 2 ^ k = cap * 2 ^ (k + 1) := by
        rw [Nat.pow_succ]
        grind
      -- This round is no overflow, since the last of the doublings is none.
      have once : cap * 2 ≤ cap * 2 * 2 ^ k := Nat.le_mul_of_pos_right _ (Nat.two_pow_pos k)
      rw [← shift] at above fits
      rw [if_pos (by omega)]
      exact growCap_isSome (Nat.lt_of_succ_lt_succ enough) (by omega) above fits
    · rfl

/-- Doubling exceeds a descriptor below half of the range of an `int` without an overflow. -/
theorem exists_doublings {fd cap : Nat} (positive : 0 < cap) (fits : cap < 2 ^ 31)
    (small : fd < 2 ^ 30) : ∃ k, k < maxDoublings ∧ fd < cap * 2 ^ k ∧ cap * 2 ^ k < 2 ^ 31 := by
  -- The induction is on the distance to an exponent that is certainly large enough.
  have search : ∀ n k, n + k = 31 → cap * 2 ^ k < 2 ^ 31 →
      ∃ k, k < maxDoublings ∧ fd < cap * 2 ^ k ∧ cap * 2 ^ k < 2 ^ 31 := by
    intro n
    induction n with
    | zero =>
      intro k last below
      obtain rfl : k = 31 := by omega
      -- After so many doublings even a capacity of one would be out of range.
      have large : 2 ^ 31 ≤ cap * 2 ^ 31 := Nat.le_mul_of_pos_left _ positive
      omega
    | succ n ih =>
      intro k rest below
      by_cases enough : fd < cap * 2 ^ k
      · exact ⟨k, by unfold maxDoublings; omega, enough, below⟩
      · -- Twice a capacity that the descriptor is not below is at most twice the descriptor.
        have double : cap * 2 ^ (k + 1) = 2 * (cap * 2 ^ k) := by
          rw [Nat.pow_succ]
          grind
        exact ih (k + 1) (by omega) (by omega)
  exact search 31 0 rfl (by omega)

/-- A reallocation yields as many entries as it was asked for. -/
theorem length_reallocItems (items : List KqueueItem) (cap : Nat) (garbage : Nat → KqueueItem) :
    (reallocItems items cap garbage).length = cap := by
  -- What is missing behind the old entries is new.
  simp only [reallocItems, List.length_append, List.length_take, List.length_map,
    List.length_range]
  omega

/-- A table that has grown has the old entries up to the old capacity, and zeros behind them. -/
theorem expanded_eq {items : List KqueueItem} {first last : Nat} (garbage : Nat → KqueueItem)
    (inside : first ≤ items.length) (grows : first ≤ last) :
    zeroItems (reallocItems items last garbage) first last =
      items.take first ++ List.replicate (last - first) .zero := by
  -- Zeros are written behind the old entries, so nothing of the new memory is left.
  have nothing : (reallocItems items last garbage).drop last = [] :=
    List.drop_of_length_le (Nat.le_of_eq (length_reallocItems _ _ _))
  -- The entries that are kept are among those that the reallocation has copied.
  have kept : (reallocItems items last garbage).take first = items.take first := by
    have copied : first ≤ (items.take last).length := by
      rw [List.length_take]
      omega
    rw [reallocItems, List.take_append_of_le_length copied, List.take_take, Nat.min_eq_left grows]
  rw [zeroItems, nothing, kept, List.append_nil]

namespace Filters

variable {q : Filters} {fd other : Nat}

/-- A filter that is added shows in the entry of its descriptor. -/
theorem item_set (filter : Filter) (ptr : PollPtr) :
    (q.set fd filter (some ptr)).item fd = associateItem (q.item fd) filter.events := by
  -- One of the two fields becomes 1, and the other stays.
  cases filter <;> simp [item, set, associateItem, Filter.events, efPollIn, efPollOut]

/-- A descriptor that is closed has an empty entry, and the others keep theirs. -/
theorem item_closed : (q.closed fd).item other = if other = fd then .zero else q.item other := by
  -- Closing empties the row of this descriptor and no other.
  by_cases same : other = fd
  · -- Neither direction has a filter any more.
    subst same
    simp [item, closed, KqueueItem.zero]
  · simp [item, closed, same]

/-- Where the table mirrors the filters, dissociating deletes what there is, and nothing else. -/
theorem kevent_dissociate (refused : Bool) :
    kevent q refused (dissociateChanges fd (q.item fd)) =
      if refused then (q, -1) else (q.closed fd, 0) := by
  -- A refused change list does nothing, so only the other case computes.
  cases refused with
  | true => rfl
  | false =>
    -- Rows that have no filter in either direction are all the same.
    have emptied : ∀ row : Filter → Option PollPtr, row .read = none → row .write = none →
        Function.update q fd row = q.closed fd := by
      intro row read write
      have same : row = fun _ => none := by
        funext filter
        cases filter with
        | read => exact read
        | write => exact write
      rw [same, closed]
    -- The four cases are those of the two filters of the descriptor.
    cases read : q fd .read <;> cases write : q fd .write <;>
      simp only [kevent, dissociateChanges, item, read, write, kevent.applied, change, set,
        Function.update_self, Function.update_idem, Option.isSome, Bool.false_eq_true, if_true,
        if_false, ne_eq, not_true_eq_false, Nat.one_ne_zero, not_false_eq_true, List.nil_append,
        List.append_nil, List.cons_append, reduceCtorEq, Function.update_of_ne]
    · -- Nothing was registered, so no change is made and the row is empty as it is.
      have same := emptied (q fd) read write
      rw [Function.update_eq_self] at same
      exact Prod.ext same rfl
    · exact Prod.ext (emptied _ (by simp [read]) (by simp)) rfl
    · exact Prod.ext (emptied _ (by simp) (by simp [write])) rfl
    · exact Prod.ext (emptied _ (by simp) (by simp)) rfl

end Filters

/-- A call of the backend as the framework makes it, one direction at a time. -/
inductive KqueueCall where
  | associate (fd : Nat) (filter : Filter) (ptr : PollPtr) (fired : Bool) (reallocs : Reallocs)
      (refused : Bool)
  | dissociate (fd : Nat) (fired refused : Bool)
  /-- The calls of `dissociate` and `close` in `ef_routine_close`. -/
  | close (fd : Nat)

/-- The descriptor of a call. -/
def KqueueCall.fd : KqueueCall → Nat
  | .associate fd .. | .dissociate fd .. | .close fd => fd

/-- The backend and the kernel after a call, where nothing is known after an undefined one. -/
def kqueueStep (s : EfKqueue × Filters) : KqueueCall → Option (EfKqueue × Filters)
  | .associate fd filter ptr fired reallocs refused =>
    (efKqueueAssociate s.1 s.2 fd filter.events ptr fired reallocs refused).map fun (ep, q, _) =>
      (ep, q)
  | .dissociate fd fired refused =>
    (efKqueueDissociate s.1 s.2 fd fired false refused).map fun (ep, q, _) => (ep, q)
  | .close fd =>
    (efKqueueDissociate s.1 s.2 fd false true false).map fun (ep, q, _) => (ep, q.closed fd)

/-- The descriptors of a process are small numbers. -/
def SmallFd (_ : EfKqueue × Filters) (call : KqueueCall) : Prop := call.fd < 2 ^ 30

instance (s : EfKqueue × Filters) (call : KqueueCall) : Decidable (SmallFd s call) :=
  inferInstanceAs (Decidable (_ < _))

namespace KqueueOk

variable {ep : EfKqueue} {q : Filters} {fd : Nat}

/-- A new backend has a table of zeros, and the kernel has no filters. -/
theorem initial {cap : Nat} (fits : cap < 2 ^ 31) :
    KqueueOk (efKqueueCreate cap) fun _ _ => none := by
  -- The capacity that was asked for is raised to 128 where it is smaller.
  have least : 128 ≤ (efKqueueCreate cap).cap ∧ (efKqueueCreate cap).cap < 2 ^ 31 := by
    simp only [efKqueueCreate]
    split <;> omega
  refine ⟨by omega, least.2, ?_, Nat.le_refl _, ?_, fun _ _ _ => rfl⟩
  · simp [efKqueueCreate]
  · intro fd item found
    -- Every entry of the new table is zero, and so is the description of no filters.
    simp only [efKqueueCreate, List.getElem?_replicate] at found
    obtain ⟨_, same⟩ := Option.ite_none_right_eq_some.mp found
    exact (Option.some.inj same).symm

/-- An entry within the capacity exists, and it is the mirror of the filters. -/
theorem getElem? (ok : KqueueOk ep q) (inside : fd < ep.cap) :
    ep.items[fd]? = some (q.item fd) := by
  -- The table is at least as long as its capacity.
  have long := ok.items
  obtain ⟨item, found⟩ : ∃ item, ep.items[fd]? = some item :=
    ⟨_, List.getElem?_eq_getElem (by omega)⟩
  rw [found, ok.mirror fd item found]

/-- Whether or not the two reallocations succeed, the table keeps mirroring the filters. -/
theorem expand (ok : KqueueOk ep q) {cap : Nat} (outside : ep.cap ≤ fd)
    (grown : growCap fd maxDoublings ep.cap = some cap) (reallocs : Reallocs) :
    ∃ after expanded, efKqueueExpand ep fd reallocs = some (after, expanded) ∧
      KqueueOk after q ∧ (expanded < 0 ∨ fd < after.cap) ∧
      (reallocs.items = true → reallocs.events = true → expanded = 0 ∧ after.cap = cap) := by
  -- The new capacity is that of the loop, which is larger than the old one and in range.
  obtain ⟨above, larger, below, _⟩ := growCap_spec ok.fits grown
  have items := ok.items
  have positive := ok.positive
  have table := expanded_eq reallocs.garbage items larger
  obtain ⟨grownItems, same⟩ : ∃ items,
      zeroItems (reallocItems ep.items cap reallocs.garbage) ep.cap cap = items := ⟨_, rfl⟩
  rw [same] at table
  have length : cap ≤ grownItems.length := by
    rw [table, List.length_append, List.length_take, List.length_replicate]
    omega
  -- The new entries belong to descriptors that have no filters yet.
  have mirror : ∀ i item, grownItems[i]? = some item → item = q.item i := by
    intro i item found
    rw [table] at found
    by_cases old : i < ep.cap
    · rw [List.getElem?_append_left (by rw [List.length_take]; omega),
        List.getElem?_take_of_lt old] at found
      -- An entry below the old capacity is the old entry.
      exact ok.mirror i item found
    · rw [List.getElem?_append_right (by rw [List.length_take]; omega),
        List.getElem?_replicate] at found
      -- Any other entry is zero, and its descriptor is beyond what the old table knew.
      obtain ⟨_, same⟩ := Option.ite_none_right_eq_some.mp found
      rw [← Option.some.inj same, Filters.item, ok.known i .read (by omega),
        ok.known i .write (by omega)]
      rfl
  unfold efKqueueExpand
  rw [if_neg (by omega), grown, Option.map_some]
  -- Either reallocation may fail, and the second is not tried where the first has failed.
  cases reallocs.items with
  | false => exact ⟨ep, -1, rfl, ok, .inl (by decide), by simp⟩
  | true =>
    cases reallocs.events with
    | false =>
      -- The longer table stays although the capacity is the old one.
      refine ⟨{ ep with items := grownItems }, -1, by simp [same], ?_, .inl (by decide), by simp⟩
      exact ⟨positive, ok.fits, Nat.le_trans larger length, ok.events, mirror, ok.known⟩
    | true =>
      refine ⟨⟨cap, grownItems, cap⟩, 0, by simp [same], ?_, .inr above, by simp⟩
      exact ⟨Nat.lt_of_lt_of_le positive larger, below, length, Nat.le_refl _, mirror,
        fun i filter outside' => ok.known i filter (Nat.le_trans larger outside')⟩

/-- A write to one entry of the table follows a change of that descriptor's filters. -/
theorem written (ok : KqueueOk ep q) (inside : fd < ep.cap) {q' : Filters}
    (others : ∀ other filter, other ≠ fd → q' other filter = q other filter) :
    KqueueOk { ep with items := ep.items.set fd (q'.item fd) } q' := by
  -- The lengths are the old ones, so only the entries need a look.
  refine ⟨ok.positive, ok.fits, ?_, ok.events, ?_, ?_⟩
  · simpa using ok.items
  · intro i item found
    by_cases here : i = fd
    · subst here
      -- The entry that is written is what the new filters say.
      have long := ok.items
      rw [List.getElem?_set_self (by omega)] at found
      exact (Option.some.inj found).symm
    · -- Any other entry is the old one, of a descriptor whose filters have not changed.
      rw [List.getElem?_set_ne (Ne.symm here)] at found
      rw [ok.mirror i item found, Filters.item, Filters.item, others i .read here,
        others i .write here]
  · intro i filter outside
    -- A descriptor from the capacity on is not the one that is written.
    have apart : i ≠ fd := by
      rintro rfl
      exact absurd outside (Nat.not_le.mpr inside)
    rw [others i filter apart]
    exact ok.known i filter outside

/-- The table after a filter has been added. -/
theorem added (ok : KqueueOk ep q) (inside : fd < ep.cap) (filter : Filter) (ptr : PollPtr) :
    KqueueOk { ep with items := ep.items.set fd (associateItem (q.item fd) filter.events) }
      (q.set fd filter (some ptr)) := by
  -- The entry is the one that the added filter leads to.
  rw [← Filters.item_set filter ptr]
  refine ok.written inside fun other filter apart => ?_
  simp [Filters.set, apart]

/-- The table after the filters of a descriptor have gone. -/
theorem cleared (ok : KqueueOk ep q) (inside : fd < ep.cap) :
    KqueueOk { ep with items := ep.items.set fd .zero } (q.closed fd) := by
  -- The entry is that of a descriptor without filters.
  have zero : (q.closed fd).item fd = .zero := Filters.item_closed.trans (if_pos rfl)
  rw [← zero]
  refine ok.written inside fun other filter apart => ?_
  simp [Filters.closed, apart]

/-- Closing a descriptor from the capacity on changes nothing, as it has no filters. -/
theorem closed_outside (ok : KqueueOk ep q) (outside : ep.cap ≤ fd) : q.closed fd = q := by
  -- The row of such a descriptor is empty before it is emptied.
  have none_there : q fd = fun _ => none := funext fun filter => ok.known fd filter outside
  rw [Filters.closed, ← none_there, Function.update_eq_self]

/-- What `ef_kqueue_associate` does for a descriptor that the table has an entry for. -/
theorem associate_inside (ok : KqueueOk ep q) (inside : fd < ep.cap) (filter : Filter)
    (ptr : PollPtr) (reallocs : Reallocs) (refused : Bool) :
    efKqueueAssociate ep q fd filter.events ptr false reallocs refused =
      some (if refused then (ep, q, -1) else
        ({ ep with items := ep.items.set fd (associateItem (q.item fd) filter.events) },
          q.set fd filter (some ptr), 0)) := by
  -- One direction is asked for, which is a single change.
  have one : associateChanges fd filter.events ptr = [.add fd filter ptr] := by
    cases filter <;> rfl
  unfold efKqueueAssociate
  rw [if_neg Bool.false_ne_true, if_neg (Nat.not_le.mpr inside), Option.bind_some]
  simp only [Int.lt_irrefl, if_false, ok.getElem? inside, Option.map_some, one]
  cases refused <;> rfl

/-- What `ef_kqueue_associate` does for a descriptor that the table has to grow for. -/
theorem associate_outside {after : EfKqueue} {expanded : Int} {reallocs : Reallocs}
    (outside : ep.cap ≤ fd) (grown : efKqueueExpand ep fd reallocs = some (after, expanded))
    (enough : expanded < 0 ∨ fd < after.cap) (filter : Filter) (ptr : PollPtr) (refused : Bool) :
    efKqueueAssociate ep q fd filter.events ptr false reallocs refused =
      if expanded < 0 then some (after, q, -1)
      else efKqueueAssociate after q fd filter.events ptr false reallocs refused := by
  -- The call ends with the attempt to grow, if that fails.
  by_cases failed : expanded < 0
  · rw [if_pos failed]
    unfold efKqueueAssociate
    rw [if_neg Bool.false_ne_true, if_pos outside, grown, Option.bind_some]
    exact if_pos failed
  · -- The rest of the call finds the entry in the table that has grown.
    have inside : fd < after.cap := enough.resolve_left failed
    rw [if_neg failed]
    unfold efKqueueAssociate
    rw [if_neg Bool.false_ne_true, if_pos outside, grown, if_neg (Nat.not_le.mpr inside)]
    simp only [Option.bind_some, failed, Int.lt_irrefl, Bool.false_eq_true, if_false]

/-- What `ef_kqueue_dissociate` does for a descriptor that the table has an entry for. -/
theorem dissociate_inside (ok : KqueueOk ep q) (inside : fd < ep.cap)
    (fired onclose refused : Bool) :
    efKqueueDissociate ep q fd fired onclose refused =
      some (if onclose then ({ ep with items := ep.items.set fd .zero }, q, 0)
        else if refused then (ep, q, -1)
        else ({ ep with items := ep.items.set fd .zero }, q.closed fd, 0)) := by
  -- The change list is made from the entry that the table has.
  unfold efKqueueDissociate
  rw [if_neg (Nat.not_le.mpr inside), ok.getElem? inside, Option.map_some]
  simp only [Filters.kevent_dissociate]
  cases onclose <;> cases refused <;> rfl

/-- Every call on a descriptor that is not too large is defined and keeps the mirror. -/
theorem step {s : EfKqueue × Filters} (ok : KqueueOk s.1 s.2) {call : KqueueCall}
    (small : SmallFd s call) : ∃ t, kqueueStep s call = some t ∧ KqueueOk t.1 t.2 := by
  -- Each call is either for a descriptor within the capacity or for one that is not.
  obtain ⟨ep, q⟩ := s
  cases call with
  | associate fd filter ptr fired reallocs refused =>
    cases fired with
    -- A filter that has fired is registered still, and nothing is done.
    | true => exact ⟨(ep, q), rfl, ok⟩
    | false =>
      by_cases inside : fd < ep.cap
      · have call := ok.associate_inside inside filter ptr reallocs refused
        simp only [kqueueStep, call, Option.map_some]
        cases refused with
        | true => exact ⟨_, rfl, ok⟩
        | false => exact ⟨_, rfl, ok.added inside filter ptr⟩
      · -- The number of the descriptor is small enough for a capacity to be found.
        obtain ⟨k, count, above, fits⟩ := exists_doublings ok.positive ok.fits small
        obtain ⟨cap, grown⟩ := Option.isSome_iff_exists.mp
          (growCap_isSome count ok.positive above fits)
        obtain ⟨after, expanded, expands, ok', enough, _⟩ :=
          ok.expand (Nat.le_of_not_lt inside) grown reallocs
        have call := @associate_outside ep q fd after expanded reallocs
          (Nat.le_of_not_lt inside) expands enough filter ptr refused
        simp only [kqueueStep, call]
        split
        · exact ⟨_, rfl, ok'⟩
        · -- Where the table has grown, the call goes on as one within the capacity.
          rename_i succeeded
          have inside := enough.resolve_left succeeded
          rw [ok'.associate_inside inside, Option.map_some]
          cases refused with
          | true => exact ⟨_, rfl, ok'⟩
          | false => exact ⟨_, rfl, ok'.added inside filter ptr⟩
  | dissociate fd fired refused =>
    by_cases inside : fd < ep.cap
    · have call := ok.dissociate_inside inside fired false refused
      simp only [kqueueStep, call, Option.map_some]
      cases refused with
      | true => exact ⟨_, rfl, ok⟩
      | false => exact ⟨_, rfl, ok.cleared inside⟩
    · -- What the table has no entry for has no filters either.
      refine ⟨(ep, q), ?_, ok⟩
      simp [kqueueStep, efKqueueDissociate, Nat.le_of_not_lt inside]
  | close fd =>
    by_cases inside : fd < ep.cap
    · have call := ok.dissociate_inside inside false true false
      simp only [kqueueStep, call, Option.map_some]
      exact ⟨_, rfl, ok.cleared inside⟩
    · refine ⟨(ep, q.closed fd), ?_, ?_⟩
      · simp [kqueueStep, efKqueueDissociate, Nat.le_of_not_lt inside]
      · -- The kernel had nothing to drop for the closed descriptor.
        rw [ok.closed_outside (Nat.le_of_not_lt inside)]
        exact ok

/-- Only filters that are registered are ever deleted. -/
theorem deletes_registered (ok : KqueueOk ep q) {item : KqueueItem}
    (found : ep.items[fd]? = some item) {filter : Filter} {other : Nat}
    (issued : .delete other filter ∈ dissociateChanges fd item) :
    other = fd ∧ q fd filter ≠ none := by
  -- The entry is the description of the kernel's filters.
  obtain rfl := ok.mirror fd item found
  -- A delete is asked for exactly where the entry says 1, which is where a filter is.
  cases read : q fd .read <;> cases write : q fd .write <;>
    simp [dissociateChanges, Filters.item, read, write] at issued
  · obtain ⟨rfl, rfl⟩ := issued
    simp [write]
  · obtain ⟨rfl, rfl⟩ := issued
    simp [read]
  · rcases issued with ⟨rfl, rfl⟩ | ⟨rfl, rfl⟩
    · simp [read]
    · simp [write]

end KqueueOk

/--
The table of the kqueue backend mirrors the kernel over every sequence of calls.

The calls of `kevent` and of `realloc` may fail at any time, each on its own.
Every further call is defined, so it stays within the table, and deletes registered filters only.
-/
theorem kqueue_mirrors_kernel {cap : Nat} (fits : cap < 2 ^ 31) {calls : List KqueueCall}
    {s : EfKqueue × Filters}
    (run : Run kqueueStep SmallFd (efKqueueCreate cap, fun _ _ => none) calls s) :
    KqueueOk s.1 s.2 ∧ (∀ call, SmallFd s call → ∃ t, kqueueStep s call = some t) ∧
      ∀ fd item filter other, s.1.items[fd]? = some item →
        .delete other filter ∈ dissociateChanges fd item → other = fd ∧ s.2 fd filter ≠ none := by
  -- The mirror holds in every state of the run, and all else is read off it.
  have ok : KqueueOk s.1 s.2 := by
    -- A call that is defined leads to the one state that its step lemma speaks of.
    have preserved : ∀ t call u, KqueueOk t.1 t.2 → SmallFd t call → kqueueStep t call = some u →
        KqueueOk u.1 u.2 := by
      intro t call u ok small stepped
      obtain ⟨after, defined, kept⟩ := ok.step small
      rw [defined, Option.some.injEq] at stepped
      exact stepped ▸ kept
    exact @Run.invariant _ _ _ _ (fun s => KqueueOk s.1 s.2) _ _ _ run (.initial fits) preserved
  refine ⟨ok, fun call small => ?_, fun fd item filter other found issued => ?_⟩
  · obtain ⟨t, defined, _⟩ := ok.step small
    exact ⟨t, defined⟩
  · exact ok.deletes_registered found issued

/-- Calls whose failures leave a table that is longer than its capacity, which then shrinks. -/
def unluckyCalls : List KqueueCall :=
  let garbage : Nat → KqueueItem := fun _ => ⟨7, 7⟩
  [.associate 3 .read (.routine 1) false ⟨true, true, garbage⟩ false,
    .associate 400 .write (.routine 2) false ⟨true, false, garbage⟩ false,
    .associate 200 .write (.routine 2) false ⟨true, true, garbage⟩ false,
    .dissociate 3 true true, .close 200]

/-- After such calls a single filter is left, and all that is said above holds of it. -/
theorem kqueue_mirrors_kernel_unlucky :
    ∃ s : EfKqueue × Filters, s.1.cap = 256 ∧ s.1.items.length = 256 ∧
      s.2 3 .read = some (.routine 1) ∧ KqueueOk s.1 s.2 := by
  -- The run is computed, with no descriptor too large for the table.
  obtain ⟨s, ran⟩ : ∃ s, execute kqueueStep SmallFd (efKqueueCreate 16, fun _ _ => none)
      unluckyCalls = some s := ⟨_, rfl⟩
  have facts : (execute kqueueStep SmallFd (efKqueueCreate 16, fun _ _ => none) unluckyCalls).map
      (fun s => (s.1.cap, s.1.items.length, s.2 3 .read)) =
        some (256, 256, some (.routine 1)) := by decide +kernel
  rw [ran, Option.map_some, Option.some.injEq, Prod.mk.injEq, Prod.mk.injEq] at facts
  obtain ⟨cap, length, left⟩ := facts
  exact ⟨s, cap, length, left, (kqueue_mirrors_kernel (by decide) (.of_execute ran)).1⟩

end SimpleSrv.Ef
