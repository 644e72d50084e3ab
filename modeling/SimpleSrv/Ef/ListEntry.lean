import Mathlib.Data.List.InsertIdx
import SimpleSrv.Lib.Ring
import SimpleSrv.Ef.Fiber

/-! The intrusive lists: what each operation on the links does to the sequences of entries. -/

namespace SimpleSrv.Ef

open Function Links

/-- The two links of each `ef_list_entry_t`, by its address. -/
abbrev ListHeap := Links Ptr

/-- `ef_list_empty`. -/
def efListEmpty (m : ListHeap) (head : Ptr) : Prop := m.next head = head

instance (m : ListHeap) (head : Ptr) : Decidable (efListEmpty m head) :=
  inferInstanceAs (Decidable (_ = _))

/-- `ef_list_init`. -/
def efListInit (m : ListHeap) (head : Ptr) : ListHeap :=
  let m := m.setPrev head head
  m.setNext head head

/-- `ef_list_remove`. -/
def efListRemove (m : ListHeap) (entry : Ptr) : ListHeap :=
  let m := m.setPrev (m.next entry) (m.prev entry)
  m.setNext (m.prev entry) (m.next entry)

/-- `ef_list_insert_before`. -/
def efListInsertBefore (m : ListHeap) (current entry : Ptr) : ListHeap :=
  let m := m.setNext entry current
  let m := m.setNext (m.prev current) entry
  let m := m.setPrev entry (m.prev current)
  m.setPrev current entry

/-- `ef_list_insert_after`. -/
def efListInsertAfter (m : ListHeap) (current entry : Ptr) : ListHeap :=
  let m := m.setNext entry (m.next current)
  let m := m.setNext current entry
  let m := m.setPrev entry current
  m.setPrev (m.next entry) entry

/-- `ef_list_entry_before`. -/
def efListEntryBefore (m : ListHeap) (current : Ptr) : Ptr := m.prev current

/-- `ef_list_entry_after`. -/
def efListEntryAfter (m : ListHeap) (current : Ptr) : Ptr := m.next current

/-- `ef_list_remove_before`, with the entry that it returns, or nothing for a null pointer. -/
def efListRemoveBefore (m : ListHeap) (current : Ptr) : ListHeap × Option Ptr :=
  if efListEmpty m current then (m, none)
  else
    let entry := m.prev current
    let m := m.setPrev current (m.prev entry)
    let m := m.setNext (m.prev current) current
    (m, some entry)

/-- `ef_list_remove_after`, with the entry that it returns, or nothing for a null pointer. -/
def efListRemoveAfter (m : ListHeap) (current : Ptr) : ListHeap × Option Ptr :=
  if efListEmpty m current then (m, none)
  else
    let entry := m.next current
    let m := m.setNext current (m.next entry)
    let m := m.setPrev (m.next current) current
    (m, some entry)

/-- Every list has a head, which is no entry, and is found from there. -/
abbrev Shape := Ptr → Option (List Ptr)

/-- The body of a walk that removes some of the entries that it visits. -/
def removing (removes stops : Ptr → Bool) (m : ListHeap) (entry : Ptr) : Option ListHeap :=
  if stops entry then none
  else if removes entry then some (efListRemove m entry) else some m

/-- The body of a walk that moves the entries that it visits to the front of another list. -/
def moving (stops : Ptr → Bool) (other : Ptr) (m : ListHeap) (entry : Ptr) : Option ListHeap :=
  if stops entry then none else some (efListInsertAfter (efListRemove m entry) other entry)

/-- An entry is still in its list after a walk has visited it. -/
def stays (removes stops : Ptr → Bool) (entry : Ptr) : Bool := stops entry || !removes entry

/-- A walk has visited the first of these entries, once each, and left early only where it stops. -/
structure Walks (stops : Ptr → Bool) (entries visited rest : List Ptr) : Prop where
  split : entries = visited ++ rest
  all : (∀ entry ∈ entries, stops entry = false) → rest = []

/-- What the removal of a neighbour has done to a list. -/
structure RemovesNeighbour (m m' : ListHeap) (shape : Shape) (head neighbour : Ptr)
    (entries : List Ptr) (removed : Option Ptr) : Prop where
  /-- Only the head of a list without entries has no neighbour. -/
  null : removed = none ↔ entries = []
  unchanged : entries = [] → m' = m
  returned : entries ≠ [] → removed = some neighbour
  shorter : entries ≠ [] → neighbour ≠ head →
    m'.Rings (update shape head (some (entries.erase neighbour)))
  /-- Where the head itself is the neighbour, the entries go on as a ring without it. -/
  headless : ∀ first rest, entries = first :: rest → neighbour = head →
    m'.Rings (update (update shape head none) first (some rest))

/-- What the operations do to the lists of a heap, and what its traversals visit. -/
structure ListLaws (m : ListHeap) (shape : Shape) : Prop where
  init : ∀ head, OffRings shape head → (efListInit m head).Rings (update shape head (some []))
  empty : ∀ head entries current, shape head = some entries → current ∈ head :: entries →
    (efListEmpty m current ↔ entries = [])
  insertBefore : ∀ head entries current entry, shape head = some entries →
    current ∈ head :: entries → OffRings shape entry →
    (efListInsertBefore m current entry).Rings
      (update shape head (some (placeBefore current entry entries)))
  insertAfter : ∀ head entries current entry, shape head = some entries →
    current ∈ head :: entries → OffRings shape entry →
    (efListInsertAfter m current entry).Rings
      (update shape head (some (placeAfter head current entry entries)))
  remove : ∀ head entries entry, shape head = some entries → entry ∈ entries →
    (efListRemove m entry).Rings (update shape head (some (entries.erase entry)))
  removeBefore : ∀ head entries current, shape head = some entries → current ∈ head :: entries →
    RemovesNeighbour m (efListRemoveBefore m current).1 shape head (efListEntryBefore m current)
      entries (efListRemoveBefore m current).2
  removeAfter : ∀ head entries current, shape head = some entries → current ∈ head :: entries →
    RemovesNeighbour m (efListRemoveAfter m current).1 shape head (efListEntryAfter m current)
      entries (efListRemoveAfter m current).2
  /-- The neighbours of a node are those that its list says, the head coming at both ends. -/
  neighbours : ∀ head entries, shape head = some entries →
    efListEntryAfter m head = entries.headD head ∧
    efListEntryBefore m head = entries.getLastD head ∧
    ∀ before current after, entries = before ++ current :: after →
      efListEntryAfter m current = after.headD head ∧
      efListEntryBefore m current = before.getLastD head
  forward : ∀ head entries removes stops, shape head = some entries →
    ∃ visited rest final, Walks stops entries visited rest ∧
      traverse efListEntryAfter (removing removes stops) head (entries.length + 1) m
        (efListEntryAfter m head) = some (visited, final) ∧
      final.Rings (update shape head (some (visited.filter (stays removes stops) ++ rest)))
  backward : ∀ head entries removes stops, shape head = some entries →
    ∃ visited rest final, Walks stops entries.reverse visited rest ∧
      traverse efListEntryBefore (removing removes stops) head (entries.length + 1) m
        (efListEntryBefore m head) = some (visited, final) ∧
      final.Rings
        (update shape head (some (visited.filter (stays removes stops) ++ rest).reverse))
  moves : ∀ head entries other others stops, shape head = some entries →
    shape other = some others → head ≠ other →
    ∃ visited rest final, Walks stops entries visited rest ∧
      traverse efListEntryAfter (moving stops other) head (entries.length + 1) m
        (efListEntryAfter m head) = some (visited, final) ∧
      final.Rings (update (update shape head (some (visited.filter stops ++ rest))) other
        (some ((visited.filter fun entry => !stops entry).reverse ++ others)))

section Operations

variable {m : ListHeap} {shape : Shape} {head current entry : Ptr} {entries : List Ptr}

/-- An entry comes between a node and the one after it. -/
theorem efListInsertAfter_inserts (apart : entry ≠ current) (after : entry ≠ m.next current) :
    m.Inserts (efListInsertAfter m current entry) current entry := by
  -- The third assignment reads back what the first one has written.
  have read : update (update m.next entry (m.next current)) current entry entry =
      m.next current := by
    rw [update_of_ne apart, update_self]
  unfold efListInsertAfter
  constructor
  · constructor
    · simp
    · simp [read, update_of_ne after]
  · constructor
    · simpa using read
    · simp [read]
  · intro b other fresh
    simp [update_of_ne other, update_of_ne fresh]
  · intro b other fresh
    simp [read, update_of_ne other, update_of_ne fresh]

/-- An entry comes between a node and the one before it. -/
theorem efListInsertBefore_inserts (apart : entry ≠ current) (before : entry ≠ m.prev current)
    (linked : m.next (m.prev current) = current) :
    m.Inserts (efListInsertBefore m current entry) (m.prev current) entry := by
  -- The four assignments are read back one by one.
  unfold efListInsertBefore
  constructor
  · constructor
    · simp
    · simp [update_of_ne apart]
  · constructor
    · simp [update_of_ne before, linked]
    · simp [linked]
  · intro b other fresh
    simp [update_of_ne other, update_of_ne fresh]
  · intro b other fresh
    rw [linked] at other
    simp [update_of_ne other, update_of_ne fresh]

/-- The neighbours of an entry are linked with each other. -/
theorem efListRemove_removes (apart : m.next entry ≠ entry) :
    m.Removes (efListRemove m entry) entry := by
  -- The second assignment must not read the link that the first one wrote.
  unfold efListRemove
  have read : update m.prev (m.next entry) (m.prev entry) entry = m.prev entry :=
    update_of_ne apart.symm _ _
  constructor
  · constructor
    · simp [read]
    · simp
  · intro b other
    simp [read, update_of_ne other]
  · intro b other
    simp [update_of_ne other]

/-- What comes after a node is removed as an entry is. -/
theorem efListRemoveAfter_eq (linked : m.prev (m.next current) = current)
    (occupied : ¬ efListEmpty m current) :
    efListRemoveAfter m current = (efListRemove m (m.next current), some (m.next current)) := by
  unfold efListRemoveAfter efListRemove
  rw [if_neg occupied]
  -- Both write the same two links, in either order.
  have read : update m.prev (m.next (m.next current)) current (m.next current) = current := by
    by_cases own : m.next current = m.next (m.next current)
    · rw [← own, update_self]
    · rw [update_of_ne own, linked]
  simp [setPrev, setNext, linked, read]

/-- What comes before a node is removed as an entry is. -/
theorem efListRemoveBefore_eq (linked : m.next (m.prev current) = current)
    (occupied : ¬ efListEmpty m current) :
    efListRemoveBefore m current = (efListRemove m (m.prev current), some (m.prev current)) := by
  -- Only a node that is alone is its own previous one.
  unfold efListRemoveBefore efListRemove
  rw [if_neg occupied]
  have other : m.prev current ≠ current := fun same =>
    occupied ((congrArg m.next same).symm.trans linked)
  simp [setPrev, setNext, linked, update_of_ne other]

/-- A node that starts a list of its own belongs to no other. -/
theorem efListInit_rings (rings : m.Rings shape) (off : OffRings shape head) :
    (efListInit m head).Rings (update shape head (some [])) := by
  have ring : (efListInit m head).Ring head [] := by
    apply Ring.singleton_iff.mpr
    exact ⟨by simp [efListInit], by simp [efListInit]⟩
  apply rings.change ring
  intro other l there _ a member
  -- The nodes of the other lists are not the new head.
  have apart : a ≠ head := fun same => off other l there (same ▸ member)
  exact ⟨by simpa using apart, by simp [efListInit, apart], by simp [efListInit, apart]⟩

/-- A node is its own neighbour exactly in a list without entries. -/
theorem efListEmpty_iff (ring : m.Ring head entries) (member : current ∈ head :: entries) :
    efListEmpty m current ↔ entries = [] := by
  -- Seen from the node, the list has no other nodes exactly if it has no entries.
  obtain ⟨others, turned, here⟩ := ring.enter member
  have next := turned.next_head
  have same : others = [] ↔ entries = [] := by
    rcases here with ⟨_, rfl⟩ | ⟨before, after, rfl, rfl⟩
    · exact Iff.rfl
    · simp
  rw [← same]
  cases others with
  | nil => exact iff_of_true next rfl
  | cons first rest =>
    have apart : current ≠ first := fun same =>
      (List.nodup_cons.mp turned.nodup).1 (same ▸ .head _)
    exact iff_of_false (fun empty => apart (empty.symm.trans next)) (by simp)

/-- An entry that is on no list is put before a node. -/
theorem efListInsertBefore_rings (rings : m.Rings shape) (here : shape head = some entries)
    (member : current ∈ head :: entries) (off : OffRings shape entry) :
    (efListInsertBefore m current entry).Rings
      (update shape head (some (placeBefore current entry entries))) := by
  have ring := rings.ring head entries here
  have fresh := off head entries here
  have inserts : m.Inserts (efListInsertBefore m current entry) (m.prev current) entry := by
    apply efListInsertBefore_inserts
    · exact fun same => fresh (same ▸ member)
    · exact fun same => fresh (same ▸ ring.prev_mem member)
    · exact ring.next_prev member
  apply rings.insert here (ring.prev_mem member) off inserts
  · exact ring.insert_before member fresh inserts
  · exact fun b inside => List.eq_or_mem_of_mem_insertIdx inside

/-- An entry that is on no list is put behind a node. -/
theorem efListInsertAfter_rings (rings : m.Rings shape) (here : shape head = some entries)
    (member : current ∈ head :: entries) (off : OffRings shape entry) :
    (efListInsertAfter m current entry).Rings
      (update shape head (some (placeAfter head current entry entries))) := by
  have ring := rings.ring head entries here
  have fresh := off head entries here
  have inserts : m.Inserts (efListInsertAfter m current entry) current entry := by
    apply efListInsertAfter_inserts
    · exact fun same => fresh (same ▸ member)
    · exact fun same => fresh (same ▸ ring.next_mem member)
  apply rings.insert here member off inserts
  · exact ring.insert_after member fresh inserts
  · exact fun b inside => List.eq_or_mem_of_mem_insertIdx inside

/-- An entry is removed from its list. -/
theorem efListRemove_rings (rings : m.Rings shape) (here : shape head = some entries)
    (member : entry ∈ entries) :
    (efListRemove m entry).Rings (update shape head (some (entries.erase entry))) := by
  have ring := rings.ring head entries here
  have inside : entry ∈ head :: entries := List.mem_cons_of_mem _ member
  -- A list with an entry has two nodes at least, so the entry is not its own neighbour.
  have apart : ¬ efListEmpty m entry := fun empty =>
    List.ne_nil_of_mem member ((efListEmpty_iff ring inside).mp empty)
  exact rings.remove_entry here member (efListRemove_removes apart)

/-- An entry that has been removed is on no list. -/
theorem offRings_removed (rings : m.Rings shape) (here : shape head = some entries)
    (member : entry ∈ entries) :
    OffRings (update shape head (some (entries.erase entry))) entry := by
  -- No entry stands in its list twice, nor in two of the lists.
  have nodup := (rings.ring head entries here).nodup
  have inside : entry ∈ head :: entries := List.mem_cons_of_mem _ member
  intro other l there
  by_cases same : other = head
  · subst same
    rw [update_self] at there
    obtain rfl := Option.some.inj there
    rw [List.mem_cons, not_or]
    have distinct := List.nodup_cons.mp nodup
    exact ⟨fun same => distinct.1 (same ▸ member), distinct.2.not_mem_erase⟩
  · rw [update_of_ne same] at there
    exact rings.disjoint head entries other l here there (Ne.symm same) entry inside

/-- A neighbour that is removed is an entry, or the head itself. -/
theorem removesNeighbour (rings : m.Rings shape) (here : shape head = some entries)
    (member : current ∈ head :: entries) {neighbour : Ptr}
    (inside : neighbour ∈ head :: entries) {result : ListHeap × Option Ptr}
    (vacant : efListEmpty m current → result = (m, none))
    (removed : ¬ efListEmpty m current → result = (efListRemove m neighbour, some neighbour)) :
    RemovesNeighbour m result.1 shape head neighbour entries result.2 := by
  -- In a list without entries nothing is removed, and otherwise the neighbour is.
  have ring := rings.ring head entries here
  have empty := efListEmpty_iff ring member
  have filled : entries ≠ [] → result = (efListRemove m neighbour, some neighbour) := fun some_ =>
    removed fun none_ => some_ (empty.mp none_)
  constructor
  · constructor
    · intro null
      by_contra some_
      rw [filled some_] at null
      cases null
    · intro none_
      rw [vacant (empty.mpr none_)]
  · intro none_
    rw [vacant (empty.mpr none_)]
  · intro some_
    rw [filled some_]
  · intro some_ apart
    rw [filled some_]
    exact efListRemove_rings rings here ((List.mem_cons.mp inside).resolve_left apart)
  · rintro first rest rfl rfl
    rw [filled (List.cons_ne_nil _ _)]
    -- The head is removed as an entry would be.
    have apart : ¬ efListEmpty m neighbour := fun alone =>
      List.cons_ne_nil _ _ ((efListEmpty_iff ring inside).mp alone)
    exact rings.remove_head here (efListRemove_removes apart)

/-- What comes before a node is removed, unless the node is alone. -/
theorem efListRemoveBefore_removes (rings : m.Rings shape) (here : shape head = some entries)
    (member : current ∈ head :: entries) :
    RemovesNeighbour m (efListRemoveBefore m current).1 shape head (efListEntryBefore m current)
      entries (efListRemoveBefore m current).2 := by
  -- The test comes first, and the previous node is one of the list.
  have ring := rings.ring head entries here
  apply removesNeighbour rings here member (ring.prev_mem member)
  · exact fun empty => if_pos empty
  · exact efListRemoveBefore_eq (ring.next_prev member)

/-- What comes after a node is removed, unless the node is alone. -/
theorem efListRemoveAfter_removes (rings : m.Rings shape) (here : shape head = some entries)
    (member : current ∈ head :: entries) :
    RemovesNeighbour m (efListRemoveAfter m current).1 shape head (efListEntryAfter m current)
      entries (efListRemoveAfter m current).2 := by
  -- The test comes first, and the next node is one of the list.
  have ring := rings.ring head entries here
  apply removesNeighbour rings here member (ring.next_mem member)
  · exact fun empty => if_pos empty
  · exact efListRemoveAfter_eq (ring.linked_next member).2

/-- The neighbours of an entry are those that the sequence says. -/
theorem entry_neighbours {before after : List Ptr}
    (ring : m.Ring head (before ++ current :: after)) :
    efListEntryAfter m current = after.headD head ∧
      efListEntryBefore m current = before.getLastD head := by
  -- The list is turned to the entry, where what follows it comes first.
  have next := ring.turn.next_head
  have prev := ring.turn.prev_head
  constructor
  · refine next.trans ?_
    cases after <;> rfl
  · refine prev.trans ?_
    rcases List.eq_nil_or_concat before with rfl | ⟨first, last, rfl⟩
    · rw [List.getLastD_concat]
      rfl
    · have split : after ++ head :: (first ++ [last]) = (after ++ head :: first) ++ [last] := by
        simp
      rw [List.concat_eq_append, split, List.getLastD_concat, List.getLastD_concat]

end Operations

section Walking

variable {m after : ListHeap} {shape : Shape} {head other a : Ptr} {removes stops : Ptr → Bool}
  {entries others kept todo done : List Ptr}

/-- The entries of a walk that have been visited without a stop, before the others. -/
structure Unstopped (stops : Ptr → Bool) (entries done todo : List Ptr) : Prop where
  split : entries = done ++ todo
  unstopped : ∀ entry ∈ done, stops entry = false

/-- A walk goes on behind an entry that it does not stop at. -/
theorem Unstopped.next (before : Unstopped stops entries done (a :: todo))
    (goes : stops a = false) : Unstopped stops entries (done ++ [a]) todo where
  split := by rw [before.split, List.append_assoc, List.singleton_append]
  unstopped := fun entry member => by
    rcases List.mem_append.mp member with member | member
    · exact before.unstopped entry member
    · exact List.mem_singleton.mp member ▸ goes

/-- A walk that leaves early has stopped at the last entry that it has visited. -/
theorem Unstopped.stopped (before : Unstopped stops entries done (a :: todo))
    (left : stops a = true) : Walks stops entries (done ++ [a]) todo where
  split := by rw [before.split, List.append_assoc, List.singleton_append]
  all := fun none => by
    have goes := none a (before.split ▸ List.mem_append_right _ (.head _))
    rw [left] at goes
    cases goes

/-- The entries that stay are those that are not removed, as long as the walk has not stopped. -/
theorem Unstopped.filter_stays (before : Unstopped stops entries done todo) :
    done.filter (stays removes stops) = done.filter fun entry => !removes entry := by
  apply List.filter_congr
  intro entry member
  rw [stays, before.unstopped entry member, Bool.false_or]

/-- A body that removes some entries removes this one or leaves everything as it is. -/
theorem removing_rings (rings : m.Rings (update shape head (some (kept ++ a :: todo))))
    (goes : removing removes stops m a = some after) :
    stops a = false ∧ after.Rings (update shape head
      (some (kept ++ [a].filter (fun entry => !removes entry) ++ todo))) := by
  obtain ⟨unstopped, goes⟩ := Option.ite_none_left_eq_some.mp goes
  refine ⟨by simpa using unstopped, ?_⟩
  have ring := rings.ring head _ (update_self ..)
  cases remove : removes a with
  | true =>
    rw [remove, if_pos rfl] at goes
    obtain rfl := Option.some.inj goes
    have shorter := efListRemove_rings rings (update_self ..) (List.mem_append_right _ (.head _))
    -- The entry stands only behind those that are kept.
    have fresh : a ∉ kept := fun early => ring.place (List.mem_cons_of_mem _ early)
    rw [update_idem, List.erase_append_right _ fresh, List.erase_cons_head] at shorter
    simpa [remove] using shorter
  | false =>
    rw [remove, if_neg Bool.false_ne_true] at goes
    obtain rfl := Option.some.inj goes
    simpa [remove] using rings

/-- How the lists look when a walk has visited some entries, and others are left. -/
abbrev Progress := List Ptr → List Ptr → Shape

/--
A walk whose body takes the lists from one stage to the next visits the entries in their order.

It comes to the last stage, or to the stage of an entry that it stops at.
-/
theorem walk_visits {advance : ListHeap → Ptr → Ptr} {body : ListHeap → Ptr → Option ListHeap}
    {stage : Progress}
    (saved : ∀ m a done todo, m.Rings (stage done (a :: todo)) →
      a ≠ head ∧ advance m a = todo.headD head)
    (steps : ∀ m a done todo after, m.Rings (stage done (a :: todo)) → body m a = some after →
      stops a = false ∧ after.Rings (stage (done ++ [a]) todo))
    (leaves : ∀ m a, body m a = none → stops a = true) (start : m.Rings (stage [] entries)) :
    ∃ visited rest final, Walks stops entries visited rest ∧
      traverse advance body head (entries.length + 1) m (entries.headD head) =
        some (visited, final) ∧
      ∃ done last, visited = done ++ last ∧ (∀ entry ∈ last, stops entry = true) ∧
        Unstopped stops entries done (last ++ rest) ∧ final.Rings (stage done (last ++ rest)) := by
  -- What holds before each round is the stage of the entries that are done and left.
  let holds : ListHeap → List Ptr → Prop := fun m todo =>
    ∃ done, Unstopped stops entries done todo ∧ m.Rings (stage done todo)
  have next : ∀ m a todo, holds m (a :: todo) → a ≠ head ∧ advance m a = todo.headD head :=
    fun m a todo ⟨done, _, rings⟩ => saved m a done todo rings
  have kept : ∀ m a todo after, holds m (a :: todo) → body m a = some after →
      holds after todo := by
    rintro m a todo after ⟨done, before, rings⟩ goes
    obtain ⟨unstopped, rings⟩ := steps m a done todo after rings goes
    exact ⟨done ++ [a], before.next unstopped, rings⟩
  have first : holds m entries := ⟨[], ⟨rfl, fun _ none => by cases none⟩, start⟩
  rcases traverse_visits next kept first (Nat.lt_succ_self _) with
    ⟨final, walked, done, before, rings⟩ |
    ⟨visited, a, rest, final, split, left, walked, done, before, rings⟩
  · obtain rfl : entries = done := by simpa using before.split
    refine ⟨entries, [], final, ⟨(List.append_nil _).symm, fun _ => rfl⟩, walked, ?_⟩
    exact ⟨entries, [], (List.append_nil _).symm, fun _ none => (by cases none), before, rings⟩
  · obtain rfl : visited = done := List.append_cancel_right (split.symm.trans before.split)
    have stopped : stops a = true := leaves final a left
    refine ⟨visited ++ [a], rest, final, before.stopped stopped, walked, ?_⟩
    exact ⟨visited, [a], rfl, by simpa using stopped, before, rings⟩

/-- Of the entries that were visited, those at which the walk has stopped stay in any case. -/
theorem filter_stays {last : List Ptr} (before : Unstopped stops entries done todo)
    (stopped : ∀ entry ∈ last, stops entry = true) :
    (done ++ last).filter (stays removes stops) =
      (done.filter fun entry => !removes entry) ++ last := by
  rw [List.filter_append, before.filter_stays]
  congr 1
  apply List.filter_eq_self.mpr
  intro entry member
  rw [stays, stopped entry member, Bool.true_or]

/-- Of the entries that were visited, only those without a stop pass as such. -/
theorem filter_stops {last : List Ptr} (before : Unstopped stops entries done todo)
    (stopped : ∀ entry ∈ last, stops entry = true) :
    (done ++ last).filter stops = last ∧
      ((done ++ last).filter fun entry => !stops entry) = done := by
  -- The entries of the first part have no stop, and those of the last have one.
  have unstopped := before.unstopped
  constructor
  · rw [List.filter_append, List.filter_eq_self.mpr stopped]
    simpa using unstopped
  · rw [List.filter_append, List.filter_eq_self.mpr (by simpa using unstopped)]
    simpa using stopped

/-- A body with stops leaves a walk only at one of them. -/
theorem removing_leaves (left : removing removes stops m a = none) : stops a = true := by
  by_contra goes
  simp only [removing, if_neg goes] at left
  split at left <;> cases left

/-- A walk that follows the links forward visits the entries in their order. -/
theorem forward_visits (rings : m.Rings shape) (here : shape head = some entries)
    (removes stops : Ptr → Bool) :
    ∃ visited rest final, Walks stops entries visited rest ∧
      traverse efListEntryAfter (removing removes stops) head (entries.length + 1) m
        (efListEntryAfter m head) = some (visited, final) ∧
      final.Rings (update shape head (some (visited.filter (stays removes stops) ++ rest))) := by
  -- What is left of the list are the kept ones of those behind the walk, and those ahead of it.
  let stage : Progress := fun done todo =>
    update shape head (some ((done.filter fun entry => !removes entry) ++ todo))
  have saved : ∀ m a done todo, m.Rings (stage done (a :: todo)) →
      a ≠ head ∧ efListEntryAfter m a = todo.headD head := by
    intro m a done todo rings
    have ring := rings.ring head _ (update_self ..)
    exact ⟨fun same => ring.place (same ▸ .head _), (entry_neighbours ring).1⟩
  have steps : ∀ m a done todo after, m.Rings (stage done (a :: todo)) →
      removing removes stops m a = some after →
      stops a = false ∧ after.Rings (stage (done ++ [a]) todo) := by
    intro m a done todo after rings goes
    simpa only [stage, List.filter_append] using removing_rings rings goes
  have start : m.Rings (stage [] entries) := by
    simpa only [stage, List.filter_nil, List.nil_append, ← here, update_eq_self] using rings
  have first : efListEntryAfter m head = entries.headD head :=
    (rings.ring head entries here).next_head
  obtain ⟨visited, rest, final, walks, walked, done, last, rfl, stopped, before, rings⟩ :=
    walk_visits saved steps (fun m a => removing_leaves) start
  refine ⟨done ++ last, rest, final, walks, first ▸ walked, ?_⟩
  rwa [filter_stays before stopped, List.append_assoc]

/-- A walk that follows the links back visits the entries from the last one on. -/
theorem backward_visits (rings : m.Rings shape) (here : shape head = some entries)
    (removes stops : Ptr → Bool) :
    ∃ visited rest final, Walks stops entries.reverse visited rest ∧
      traverse efListEntryBefore (removing removes stops) head (entries.length + 1) m
        (efListEntryBefore m head) = some (visited, final) ∧
      final.Rings
        (update shape head (some (visited.filter (stays removes stops) ++ rest).reverse)) := by
  -- The list is read from its end, where the kept ones of those that were visited stand.
  let stage : Progress := fun done todo =>
    update shape head (some ((done.filter fun entry => !removes entry) ++ todo).reverse)
  have split : ∀ (kept : List Ptr) (a : Ptr) (todo : List Ptr),
      (kept ++ a :: todo).reverse = todo.reverse ++ a :: kept.reverse := by simp
  have saved : ∀ m a done todo, m.Rings (stage done (a :: todo)) →
      a ≠ head ∧ efListEntryBefore m a = todo.headD head := by
    intro m a done todo rings
    have ring := rings.ring head _ (update_self ..)
    rw [split] at ring
    refine ⟨fun same => ring.place (same ▸ .head _), (entry_neighbours ring).2.trans ?_⟩
    cases todo <;> simp
  have steps : ∀ m a done todo after, m.Rings (stage done (a :: todo)) →
      removing removes stops m a = some after →
      stops a = false ∧ after.Rings (stage (done ++ [a]) todo) := by
    intro m a done todo after rings goes
    simp only [stage, split] at rings
    obtain ⟨unstopped, shorter⟩ := removing_rings rings goes
    refine ⟨unstopped, ?_⟩
    cases remove : removes a <;> simpa [stage, List.filter_append, remove] using shorter
  have start : m.Rings (stage [] entries.reverse) := by
    simpa only [stage, List.filter_nil, List.nil_append, List.reverse_reverse, ← here,
      update_eq_self] using rings
  have first : efListEntryBefore m head = entries.reverse.headD head := by
    refine (rings.ring head entries here).prev_head.trans ?_
    rcases List.eq_nil_or_concat entries with rfl | ⟨before, b, rfl⟩ <;> simp
  obtain ⟨visited, rest, final, walks, walked, done, last, rfl, stopped, before, rings⟩ :=
    walk_visits saved steps (fun m a => removing_leaves) start
  rw [List.length_reverse] at walked
  refine ⟨done ++ last, rest, final, walks, first ▸ walked, ?_⟩
  rwa [filter_stays before stopped, List.append_assoc]

/-- A body that moves entries takes this one out of its list and puts it in front of the other. -/
theorem moving_rings
    (rings : m.Rings (update (update shape head (some (a :: todo))) other (some others)))
    (apart : head ≠ other) (goes : moving stops other m a = some after) :
    stops a = false ∧ after.Rings
      (update (update shape head (some todo)) other (some (a :: others))) := by
  obtain ⟨unstopped, goes⟩ := Option.ite_none_left_eq_some.mp goes
  refine ⟨by simpa using unstopped, ?_⟩
  obtain rfl := Option.some.inj goes
  have here : update (update shape head (some (a :: todo))) other (some others) head =
      some (a :: todo) := by rw [update_of_ne apart, update_self]
  have shorter := efListRemove_rings rings here (.head _)
  have off := offRings_removed rings here (.head _)
  rw [List.erase_cons_head] at shorter off
  have there : update (update (update shape head (some (a :: todo))) other (some others)) head
      (some todo) other = some others := by rw [update_of_ne apart.symm, update_self]
  -- The entry is on no list between its removal and its insertion.
  have longer := efListInsertAfter_rings shorter there (.head _) off
  rw [placeAfter_head] at longer
  rw [update_comm apart, update_idem, update_comm apart.symm, update_idem] at longer
  exact longer

/-- A walk that moves entries visits them in their order, and so they arrive in reverse. -/
theorem moves_visits (rings : m.Rings shape) (here : shape head = some entries)
    (there : shape other = some others) (apart : head ≠ other) (stops : Ptr → Bool) :
    ∃ visited rest final, Walks stops entries visited rest ∧
      traverse efListEntryAfter (moving stops other) head (entries.length + 1) m
        (efListEntryAfter m head) = some (visited, final) ∧
      final.Rings (update (update shape head (some (visited.filter stops ++ rest))) other
        (some ((visited.filter fun entry => !stops entry).reverse ++ others))) := by
  -- The entries that are done stand in front of the other list, the last one first.
  let stage : Progress := fun done todo =>
    update (update shape head (some todo)) other (some (done.reverse ++ others))
  have saved : ∀ m a done todo, m.Rings (stage done (a :: todo)) →
      a ≠ head ∧ efListEntryAfter m a = todo.headD head := by
    intro m a done todo rings
    have own : stage done (a :: todo) head = some (a :: todo) := by
      show update (update shape head _) other _ head = _
      rw [update_of_ne apart, update_self]
    have ring : m.Ring head ([] ++ a :: todo) := rings.ring head _ own
    exact ⟨fun same => ring.place (same ▸ .head _), (entry_neighbours ring).1⟩
  have steps : ∀ m a done todo after, m.Rings (stage done (a :: todo)) →
      moving stops other m a = some after →
      stops a = false ∧ after.Rings (stage (done ++ [a]) todo) := by
    intro m a done todo after rings goes
    simpa only [stage, List.reverse_append, List.reverse_singleton, List.singleton_append,
      List.cons_append, List.nil_append] using moving_rings rings apart goes
  have leaves : ∀ m a, moving stops other m a = none → stops a = true := by
    intro m a left
    by_contra goes
    rw [moving, if_neg goes] at left
    cases left
  have start : m.Rings (stage [] entries) := by
    simpa only [stage, List.reverse_nil, List.nil_append, ← here, ← there, update_eq_self]
      using rings
  have first : efListEntryAfter m head = entries.headD head :=
    (rings.ring head entries here).next_head
  obtain ⟨visited, rest, final, walks, walked, done, last, rfl, stopped, before, rings⟩ :=
    walk_visits saved steps leaves start
  obtain ⟨stops_last, stops_done⟩ := filter_stops before stopped
  refine ⟨done ++ last, rest, final, walks, first ▸ walked, ?_⟩
  rwa [stops_last, stops_done]

end Walking

/-- The lists of a heap behave as the sequences of their entries. -/
theorem listLaws_of_rings {m : ListHeap} {shape : Shape} (rings : m.Rings shape) :
    ListLaws m shape where
  init := fun head off => efListInit_rings rings off
  empty := fun head entries current here member =>
    efListEmpty_iff (rings.ring head entries here) member
  insertBefore := fun head entries current entry here member off =>
    efListInsertBefore_rings rings here member off
  insertAfter := fun head entries current entry here member off =>
    efListInsertAfter_rings rings here member off
  remove := fun head entries entry here member => efListRemove_rings rings here member
  removeBefore := fun head entries current here member =>
    efListRemoveBefore_removes rings here member
  removeAfter := fun head entries current here member =>
    efListRemoveAfter_removes rings here member
  neighbours := fun head entries here => by
    have ring := rings.ring head entries here
    refine ⟨ring.next_head, ring.prev_head, ?_⟩
    rintro before current after rfl
    exact entry_neighbours ring
  forward := fun head entries removes stops here => forward_visits rings here removes stops
  backward := fun head entries removes stops here => backward_visits rings here removes stops
  moves := fun head entries other others stops here there apart =>
    moves_visits rings here there apart stops

/-- The head 1 with the entries 2 and 3, and the head 5 with 6, 7 and 8. -/
def twoRings : ListHeap where
  prev := fun a =>
    match a with
    | 1 => 3 | 2 => 1 | 3 => 2
    | 5 => 8 | 6 => 5 | 7 => 6 | 8 => 7
    | _ => a
  next := fun a =>
    match a with
    | 1 => 2 | 2 => 3 | 3 => 1
    | 5 => 6 | 6 => 7 | 7 => 8 | 8 => 5
    | _ => a

/-- The lists of these two heads are the only ones. -/
def twoRingsShape : Shape := fun head =>
  if head = 1 then some [2, 3] else if head = 5 then some [6, 7, 8] else none

/-- A list of this heap is one of the two. -/
theorem twoRingsShape_cases {head : Ptr} {entries : List Ptr}
    (here : twoRingsShape head = some entries) :
    (head = 1 ∧ entries = [2, 3]) ∨ (head = 5 ∧ entries = [6, 7, 8]) := by
  unfold twoRingsShape at here
  split at here
  · exact .inl ⟨‹_›, (Option.some.inj here).symm⟩
  · obtain ⟨five, same⟩ := Option.ite_none_right_eq_some.mp here
    exact .inr ⟨five, (Option.some.inj same).symm⟩

/-- The nodes of each list are linked as a ring, and the rings share no node. -/
theorem twoRings_rings : twoRings.Rings twoRingsShape := by
  constructor
  · intro head entries here
    obtain ⟨rfl, rfl⟩ | ⟨rfl, rfl⟩ := twoRingsShape_cases here
    · refine ⟨?_, by decide⟩
      show List.IsChain twoRings.Linked [1, 2, 3, 1]
      simp [Links.Linked, twoRings]
    · refine ⟨?_, by decide⟩
      show List.IsChain twoRings.Linked [5, 6, 7, 8, 5]
      simp [Links.Linked, twoRings]
  · intro head entries other others here there apart
    obtain ⟨rfl, rfl⟩ | ⟨rfl, rfl⟩ := twoRingsShape_cases here <;>
      obtain ⟨rfl, rfl⟩ | ⟨rfl, rfl⟩ := twoRingsShape_cases there
    · exact absurd rfl apart
    · decide
    · decide
    · exact absurd rfl apart

/-- So every operation on either of these lists does there what the laws say. -/
theorem twoRings_laws : ListLaws twoRings twoRingsShape :=
  listLaws_of_rings twoRings_rings

/-- The head 1 with the entry 2, while all other nodes are alone. -/
def pairHeap : ListHeap where
  prev := fun a => if a = 1 then 2 else if a = 2 then 1 else a
  next := fun a => if a = 1 then 2 else if a = 2 then 1 else a

/-- The list of that head is the only one. -/
def pairShape : Shape := fun head => if head = 1 then some [2] else none

/-- The two nodes are linked as a ring. -/
theorem pairHeap_rings : pairHeap.Rings pairShape := by
  -- There is one list only.
  have only : ∀ head entries, pairShape head = some entries → head = 1 ∧ entries = [2] := by
    intro head entries here
    obtain ⟨rfl, same⟩ := Option.ite_none_right_eq_some.mp here
    exact ⟨rfl, (Option.some.inj same).symm⟩
  constructor
  · intro head entries here
    obtain ⟨rfl, rfl⟩ := only head entries here
    refine ⟨?_, by decide⟩
    show List.IsChain pairHeap.Linked [1, 2, 1]
    rw [List.isChain_cons_cons, List.isChain_pair]
    exact ⟨⟨rfl, rfl⟩, ⟨rfl, rfl⟩⟩
  · intro head entries other others here there apart
    exact absurd ((only _ _ here).1.trans (only _ _ there).1.symm) apart

/--
What comes before the only entry is the head, whose removal leaves it on no ring.

Its links still lead to the entry, which is linked with itself.
-/
theorem removeBefore_takes_head : pairHeap.Rings pairShape ∧ pairShape 1 = some [2] ∧
    (efListRemoveBefore pairHeap 2).2 = some 1 ∧
      ¬ ∃ entries, (efListRemoveBefore pairHeap 2).1.Ring 1 entries := by
  refine ⟨pairHeap_rings, rfl, by decide, ?_⟩
  rintro ⟨entries, ring⟩
  have next : (efListRemoveBefore pairHeap 2).1.next 1 = 2 := by decide
  -- The entry follows the head, so it would be linked back to it, and not with itself.
  have prev := (ring.linked_next (.head _)).2
  rw [next] at prev
  exact absurd prev (by decide)

end SimpleSrv.Ef
