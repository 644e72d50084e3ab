import SimpleSrv.Ef.PollBackends

/-! The table of the kqueue backend under calls with any `int`, negative ones included. -/

namespace SimpleSrv.Ef

namespace EfKqueue

/-- What an index of the array leads to, with what memory holds outside of it. -/
def readItem (ep : EfKqueue) (stray : Int → KqueueItem) (fd : Int) : KqueueItem :=
  if fd < 0 then stray fd else ep.items[fd.toNat]?.getD (stray fd)

/-- A store at an index, which changes something else where the index is out of bounds. -/
def writeItem (ep : EfKqueue) (fd : Int) (item : KqueueItem) : EfKqueue :=
  if fd < 0 then ep else { ep with items := ep.items.set fd.toNat item }

/-- The entry of a descriptor, which is empty from the capacity on. -/
def entry (ep : EfKqueue) (fd : Nat) : KqueueItem :=
  if fd < ep.cap then ep.items[fd]?.getD .zero else .zero

/-- The capacity is a positive `int`, and the array is as long as it says. -/
structure Sized (ep : EfKqueue) : Prop where
  positive : 0 < ep.cap
  fits : ep.cap < 2 ^ 31
  items : ep.cap ≤ ep.items.length

end EfKqueue

/-- `kevent` with changes of one descriptor, all of which fail for a negative number. -/
def keventInt (q : Filters) (refused : Bool) (fd : Int) (changes : List Change) : Filters × Int :=
  if fd < 0 ∧ changes ≠ [] then (q, -1) else kevent q refused changes

/-- What a call of the backend does. -/
structure TableCall where
  ep : EfKqueue
  filters : Filters
  value : Int
  /-- The indices it reads or writes, each with the capacity at that time. -/
  touched : List (Int × Nat)

/-- `ef_kqueue_associate` for any `int`, where nothing is returned if the capacity overflows. -/
def efKqueueAssociateInt (stray : Int → KqueueItem) (ep : EfKqueue) (q : Filters) (fd : Int)
    (events : Nat) (ptr : PollPtr) (fired : Bool) (reallocs : Reallocs) (refused : Bool) :
    Option TableCall :=
  if fired then some ⟨ep, q, 0, []⟩
  else
    (if fd ≥ ep.cap then efKqueueExpand ep fd.toNat reallocs else some (ep, 0)).map
      fun (ep, expanded) =>
        if expanded < 0 then ⟨ep, q, -1, []⟩
        else
          let item := ep.readItem stray fd
          let (q, changed) := keventInt q refused fd (associateChanges fd.toNat events ptr)
          if changed < 0 then ⟨ep, q, -1, [(fd, ep.cap)]⟩
          else ⟨ep.writeItem fd (associateItem item events), q, 0, [(fd, ep.cap), (fd, ep.cap)]⟩

/-- `ef_kqueue_dissociate` for any `int`. -/
def efKqueueDissociateInt (stray : Int → KqueueItem) (ep : EfKqueue) (q : Filters) (fd : Int)
    (_fired onclose refused : Bool) : TableCall :=
  if fd ≥ ep.cap then ⟨ep, q, 0, []⟩
  else if onclose then ⟨ep.writeItem fd .zero, q, 0, [(fd, ep.cap)]⟩
  else
    let item := ep.readItem stray fd
    let (q, changed) := keventInt q refused fd (dissociateChanges fd.toNat item)
    if changed < 0 then ⟨ep, q, -1, [(fd, ep.cap)]⟩
    else ⟨ep.writeItem fd .zero, q, 0, [(fd, ep.cap), (fd, ep.cap)]⟩

/-- A call of the backend with an `int`. -/
inductive TableOp where
  | associate (fd : Int) (events : Nat) (ptr : PollPtr) (fired : Bool) (reallocs : Reallocs)
      (refused : Bool)
  | dissociate (fd : Int) (fired onclose refused : Bool)

namespace TableOp

/-- What a call does, where an overflow has no defined result. -/
def call (stray : Int → KqueueItem) (ep : EfKqueue) (q : Filters) : TableOp → Option TableCall
  | .associate fd events ptr fired reallocs refused =>
    efKqueueAssociateInt stray ep q fd events ptr fired reallocs refused
  | .dissociate fd fired onclose refused =>
    some (efKqueueDissociateInt stray ep q fd fired onclose refused)

/-- The allocations of a call succeed, and the kernel refuses no end of a registration. -/
def Undisturbed : TableOp → Prop
  | .associate _ _ _ _ reallocs _ => reallocs.items = true ∧ reallocs.events = true
  | .dissociate _ _ _ refused => refused = false

/-- The descriptor of a call. -/
def fd : TableOp → Int
  | .associate fd .. | .dissociate fd .. => fd

/-- The descriptor that a call has to find room for. -/
def needs : TableOp → Option Int
  | .associate fd _ _ fired _ _ => if fired then none else some fd
  | .dissociate _ _ _ _ => none

/-- The table is not used, or the number is not negative and within the reach of doubling. -/
def Served (ep : EfKqueue) : TableOp → Prop
  | .associate fd _ _ fired _ _ => fired = true ∨ (0 ≤ fd ∧ InReach ep.cap fd.toNat)
  | .dissociate fd _ _ _ => 0 ≤ fd

end TableOp

/-- A table that calls and expansions have made out of a new one, whatever failed on the way. -/
inductive Grown : EfKqueue → Prop
  | create (cap : Nat) (fits : cap < 2 ^ 31) : Grown (efKqueueCreate cap)
  | expand {ep after : EfKqueue} (grown : Grown ep) (fd : Nat) (reallocs : Reallocs) (value : Int)
      (expanded : efKqueueExpand ep fd reallocs = some (after, value)) : Grown after
  | call {ep : EfKqueue} (grown : Grown ep) (op : TableOp) (stray : Int → KqueueItem) (q : Filters)
      (call : TableCall) (called : op.call stray ep q = some call) : Grown call.ep

/-- A call is defined, stays within its table, and leaves no trace of a failure. -/
def SafeCall (stray : Int → KqueueItem) (ep : EfKqueue) (q : Filters) (op : TableOp) : Prop :=
  ∃ call, op.call stray ep q = some call ∧
    (∀ touch ∈ call.touched, 0 ≤ touch.1 ∧ touch.1 < touch.2) ∧
    (call.value = 0 → ∀ fd ∈ op.needs, fd < call.ep.cap) ∧
    (call.value ≠ 0 → call.value = -1 ∧ ∀ fd, call.ep.entry fd = ep.entry fd)

/-- An expansion keeps all entries, and a successful one makes room for the descriptor. -/
theorem EfKqueue.Sized.expanded {ep after : EfKqueue} {fd : Nat} {reallocs : Reallocs}
    {value : Int} (sized : ep.Sized)
    (expanded : efKqueueExpand ep fd reallocs = some (after, value)) :
    after.Sized ∧ (∀ i, after.entry i = ep.entry i) ∧
      ((value = 0 ∧ fd < after.cap) ∨
        (value = -1 ∧ ¬ (reallocs.items = true ∧ reallocs.events = true))) := by
  -- The cases are the early return, the success and the two failures.
  have items := sized.items
  have positive := sized.positive
  unfold efKqueueExpand at expanded
  by_cases inside : ep.cap > fd
  · rw [if_pos inside] at expanded
    cases expanded
    exact ⟨sized, fun _ => rfl, .inl ⟨rfl, inside⟩⟩
  · rw [if_neg inside] at expanded
    obtain ⟨cap, grown, made⟩ := Option.map_eq_some_iff.mp expanded
    -- The capacity that the loop has found is larger than the old one and in range.
    obtain ⟨above, larger, below, _⟩ := growCap_spec sized.fits grown
    have table := expanded_eq reallocs.garbage items larger
    obtain ⟨longer, same⟩ : ∃ items,
        zeroItems (reallocItems ep.items cap reallocs.garbage) ep.cap cap = items := ⟨_, rfl⟩
    simp only [same] at made
    rw [same] at table
    have length : longer.length = cap := by
      rw [table, List.length_append, List.length_take, List.length_replicate]
      omega
    -- Up to the old capacity the entries are the old ones, and from there on they are empty.
    have kept : ∀ i, i < ep.cap → longer[i]? = ep.items[i]? := by
      intro i old
      rw [table, List.getElem?_append_left (by rw [List.length_take]; omega),
        List.getElem?_take_of_lt old]
    have fresh : ∀ i, ¬ i < ep.cap → longer[i]?.getD .zero = .zero := by
      intro i new
      rw [table, List.getElem?_append_right (by rw [List.length_take]; omega),
        List.getElem?_replicate]
      split
      · rfl
      · rfl
    by_cases moved : reallocs.items = true
    · by_cases second : reallocs.events = true
      · simp only [moved, second, if_true, Prod.mk.injEq] at made
        obtain ⟨rfl, rfl⟩ := made
        refine ⟨⟨by show 0 < cap; omega, below, by show cap ≤ longer.length; omega⟩, ?_,
          .inl ⟨rfl, above⟩⟩
        intro i
        show (if i < cap then longer[i]?.getD .zero else .zero) =
          if i < ep.cap then ep.items[i]?.getD .zero else .zero
        by_cases old : i < ep.cap
        · rw [if_pos (by omega), if_pos old, kept i old]
        · rw [if_neg old, fresh i old]
          split
          · rfl
          · rfl
      · simp only [moved, second, if_true, Bool.false_eq_true, if_false, Prod.mk.injEq] at made
        obtain ⟨rfl, rfl⟩ := made
        refine ⟨⟨positive, sized.fits, by show ep.cap ≤ longer.length; omega⟩, ?_,
          .inr ⟨rfl, fun lucky => second lucky.2⟩⟩
        intro i
        show (if i < ep.cap then longer[i]?.getD .zero else .zero) =
          if i < ep.cap then ep.items[i]?.getD .zero else .zero
        by_cases old : i < ep.cap
        · rw [if_pos old, if_pos old, kept i old]
        · rw [if_neg old, if_neg old]
    · simp only [moved, Bool.false_eq_true, if_false, Prod.mk.injEq] at made
      obtain ⟨rfl, rfl⟩ := made
      exact ⟨sized, fun _ => rfl, .inr ⟨rfl, fun lucky => moved lucky.1⟩⟩

/-- A store into the table changes no length. -/
theorem EfKqueue.Sized.written {ep : EfKqueue} (sized : ep.Sized) (fd : Int) (item : KqueueItem) :
    (ep.writeItem fd item).Sized := by
  -- A store outside of the array changes nothing, and one inside no length.
  unfold EfKqueue.writeItem
  split
  · exact sized
  · exact ⟨sized.positive, sized.fits, by simpa using sized.items⟩

section

variable {stray : Int → KqueueItem} {ep : EfKqueue} {q : Filters} {call : TableCall}

/-- The part of `ef_kqueue_associate` that makes room, and what it leaves. -/
theorem EfKqueue.Sized.room {fd : Int} {reallocs : Reallocs} {mid : EfKqueue} {expanded : Int}
    (sized : ep.Sized)
    (made : (if fd ≥ ep.cap then efKqueueExpand ep fd.toNat reallocs else some (ep, 0)) =
      some (mid, expanded)) :
    mid.Sized ∧ (∀ i, mid.entry i = ep.entry i) ∧
      ((expanded = 0 ∧ fd < mid.cap) ∨
        (expanded = -1 ∧ 0 ≤ fd ∧ ¬ (reallocs.items = true ∧ reallocs.events = true))) := by
  -- The table is expanded only for a number that is beyond it.
  have positive := sized.positive
  split at made
  · rename_i outside
    obtain ⟨sized', same, ended⟩ := sized.expanded made
    refine ⟨sized', same, ?_⟩
    rcases ended with ⟨zero, above⟩ | failed
    · exact .inl ⟨zero, by omega⟩
    · exact .inr ⟨failed.1, by omega, failed.2⟩
  · rename_i inside
    cases made
    exact ⟨sized, fun _ => rfl, .inl ⟨rfl, by omega⟩⟩

/-- What a call of `ef_kqueue_associate` does that comes to the table. -/
theorem EfKqueue.Sized.associated {fd : Int} {events : Nat} {ptr : PollPtr} {reallocs : Reallocs}
    {refused : Bool} (sized : ep.Sized)
    (called : efKqueueAssociateInt stray ep q fd events ptr false reallocs refused = some call) :
    call.ep.Sized ∧ (∀ touch ∈ call.touched, touch.1 = fd ∧ fd < touch.2) ∧
      (fd < 0 → call.touched ≠ []) ∧ (call.value = 0 → fd < call.ep.cap) ∧
      (call.value ≠ 0 → call.value = -1 ∧ ∀ i, call.ep.entry i = ep.entry i) := by
  -- The call ends without room, with the refusal of the kernel, or with a store.
  simp only [efKqueueAssociateInt, Bool.false_eq_true, if_false] at called
  obtain ⟨⟨mid, expanded⟩, made, ended⟩ := Option.map_eq_some_iff.mp called
  obtain ⟨sized', same, room⟩ := sized.room made
  rcases room with ⟨zero, above⟩ | ⟨failed, natural, _⟩
  · simp only [zero, show ¬ (0 : Int) < 0 by omega, if_false] at ended
    obtain ⟨answer, asked⟩ : ∃ answer, keventInt q refused fd
        (associateChanges fd.toNat events ptr) = answer := ⟨_, rfl⟩
    rw [asked] at ended
    by_cases rejected : answer.2 < 0
    · rw [if_pos rejected] at ended
      rw [← ended]
      exact ⟨sized', by simpa using above, by simp, by simp, fun _ => ⟨rfl, same⟩⟩
    · rw [if_neg rejected] at ended
      rw [← ended]
      have cap : (mid.writeItem fd (associateItem (mid.readItem stray fd) events)).cap =
          mid.cap := by
        unfold EfKqueue.writeItem
        split
        · rfl
        · rfl
      exact ⟨sized'.written fd _, by simpa using above, by simp, fun _ => by
        show fd < ((mid.writeItem fd _).cap : Int)
        rw [cap]
        exact above, fun failed => absurd rfl failed⟩
  · simp only [failed, show (-1 : Int) < 0 by omega, if_true] at ended
    rw [← ended]
    exact ⟨sized', by simp, fun negative => absurd natural (by omega), by simp,
      fun _ => ⟨rfl, same⟩⟩

/-- What a call of `ef_kqueue_dissociate` does. -/
theorem EfKqueue.Sized.dissociated (sized : ep.Sized) (fd : Int) (fired onclose refused : Bool)
    (made : efKqueueDissociateInt stray ep q fd fired onclose refused = call) :
    call.ep.Sized ∧ (∀ touch ∈ call.touched, touch.1 = fd ∧ fd < touch.2) ∧
      (fd < 0 → call.touched ≠ []) ∧ (call.value ≠ 0 → call.value = -1 ∧ call.ep = ep) := by
  -- The call ends before the table, with a refusal, or with a store.
  have positive := sized.positive
  unfold efKqueueDissociateInt at made
  by_cases outside : fd ≥ ep.cap
  · rw [if_pos outside] at made
    rw [← made]
    exact ⟨sized, by simp, fun negative => by omega, by simp⟩
  · rw [if_neg outside] at made
    have inside : fd < ep.cap := by omega
    by_cases closing : onclose = true
    · rw [if_pos closing] at made
      rw [← made]
      exact ⟨sized.written fd _, by simpa using inside, by simp, by simp⟩
    · rw [if_neg closing] at made
      obtain ⟨answer, asked⟩ : ∃ answer, keventInt q refused fd
          (dissociateChanges fd.toNat (ep.readItem stray fd)) = answer := ⟨_, rfl⟩
      simp only [asked] at made
      by_cases rejected : answer.2 < 0
      · rw [if_pos rejected] at made
        rw [← made]
        exact ⟨sized, by simpa using inside, by simp, by simp⟩
      · rw [if_neg rejected] at made
        rw [← made]
        exact ⟨sized.written fd _, by simpa using inside, by simp, by simp⟩

/-- Every call leaves a table of a proper size. -/
theorem EfKqueue.Sized.called (sized : ep.Sized) {op : TableOp}
    (called : op.call stray ep q = some call) : call.ep.Sized := by
  -- The two functions are taken one by one.
  cases op with
  | associate fd events ptr fired reallocs refused =>
    cases fired with
    | true =>
      cases called
      exact sized
    | false => exact (sized.associated called).1
  | dissociate fd fired onclose refused =>
    exact (sized.dissociated fd fired onclose refused (Option.some.inj called)).1

/-- Every table that can come about has a proper size. -/
theorem Grown.sized (grown : Grown ep) : ep.Sized := by
  -- The induction is on the calls that have led to the table.
  induction grown with
  | create cap fits =>
    have ok := KqueueOk.initial fits
    exact ⟨ok.positive, ok.fits, ok.items⟩
  | expand _ fd reallocs value expanded ih => exact (ih.expanded expanded).1
  | call _ op stray q call called ih => exact ih.called called

/-- A call that comes to the table is defined exactly while doubling reaches its descriptor. -/
theorem EfKqueue.Sized.associate_isSome_iff (sized : ep.Sized) {fd : Int} (natural : 0 ≤ fd)
    (events : Nat) (ptr : PollPtr) (reallocs : Reallocs) (refused : Bool) :
    (efKqueueAssociateInt stray ep q fd events ptr false reallocs refused).isSome ↔
      InReach ep.cap fd.toNat := by
  -- Only the doubling of the capacity can go wrong.
  simp only [efKqueueAssociateInt, Bool.false_eq_true, if_false, Option.isSome_map]
  by_cases outside : fd ≥ ep.cap
  · have beyond : ¬ ep.cap > fd.toNat := by omega
    have found : (growCap fd.toNat maxDoublings (ep.cap * 2 ^ 0)).isSome ↔
        InReach ep.cap fd.toNat :=
      growCap_isSome_iff sized.positive (by omega) (by simpa using sized.fits)
    rw [if_pos outside, efKqueueExpand, if_neg beyond, Option.isSome_map, ← found]
    simp
  · rw [if_neg outside]
    refine ⟨fun _ => ⟨0, ?_, ?_⟩, fun _ => rfl⟩
    · omega
    · simpa using sized.fits

end

section

variable {ep : EfKqueue} {q : Filters} {fd : Nat}

/-- Within the array a read finds what is there. -/
theorem EfKqueue.readItem_natCast {item : KqueueItem} (found : ep.items[fd]? = some item)
    (stray : Int → KqueueItem) : ep.readItem stray fd = item := by
  have natural : ¬ (fd : Int) < 0 := by omega
  simp [readItem, natural, found]

/-- A store at a descriptor changes the array. -/
theorem EfKqueue.writeItem_natCast (item : KqueueItem) :
    ep.writeItem fd item = { ep with items := ep.items.set fd item } := by
  have natural : ¬ (fd : Int) < 0 := by omega
  simp [writeItem, natural]

/-- Changes of a descriptor are what the kernel is asked for. -/
theorem keventInt_natCast (refused : Bool) (changes : List Change) :
    keventInt q refused fd changes = kevent q refused changes := by
  have natural : ¬ ((fd : Int) < 0 ∧ changes ≠ []) := by omega
  rw [keventInt, if_neg natural]

/-- Only the entry that is stored to changes. -/
theorem EfKqueue.Sized.entry_writeItem (sized : ep.Sized) (inside : fd < ep.cap)
    (item : KqueueItem) (i : Nat) :
    (ep.writeItem fd item).entry i = if i = fd then item else ep.entry i := by
  -- The entry is stored within the capacity.
  have long := sized.items
  rw [writeItem_natCast]
  show (if i < ep.cap then (ep.items.set fd item)[i]?.getD .zero else .zero) =
    if i = fd then item else if i < ep.cap then ep.items[i]?.getD .zero else .zero
  by_cases here : i = fd
  · rw [here, if_pos inside, if_pos rfl, List.getElem?_set_self (by omega)]
    rfl
  · rw [if_neg here, List.getElem?_set_ne (Ne.symm here)]

/-- Within the capacity a read finds the entry. -/
theorem EfKqueue.Sized.readItem_eq (sized : ep.Sized) (inside : fd < ep.cap)
    (stray : Int → KqueueItem) : ep.readItem stray fd = ep.entry fd := by
  -- The array is as long as the capacity says.
  have long := sized.items
  have found : ep.items[fd]? = some ep.items[fd] := List.getElem?_eq_getElem (by omega)
  rw [readItem_natCast found, entry, if_pos inside, found]
  rfl

/-- For a number that is no negative one the call is the one that is known already. -/
theorem efKqueueAssociateInt_natCast (sized : ep.Sized) (stray : Int → KqueueItem) (events : Nat)
    (ptr : PollPtr) (fired : Bool) (reallocs : Reallocs) (refused : Bool) :
    (efKqueueAssociateInt stray ep q fd events ptr fired reallocs refused).map
        (fun call => (call.ep, call.filters, call.value)) =
      efKqueueAssociate ep q fd events ptr fired reallocs refused := by
  unfold efKqueueAssociateInt efKqueueAssociate
  cases fired with
  | true => rfl
  | false =>
    simp only [Bool.false_eq_true, if_false, Option.map_map, Int.toNat_natCast, ge_iff_le,
      Int.ofNat_le]
    -- Both find the same room for the entry.
    cases made : if ep.cap ≤ fd then efKqueueExpand ep fd reallocs else some (ep, 0) with
    | none => rfl
    | some room =>
      obtain ⟨mid, expanded⟩ := room
      have same : (if (fd : Int) ≥ ep.cap then efKqueueExpand ep (fd : Int).toNat reallocs
          else some (ep, 0)) = some (mid, expanded) := by simpa using made
      obtain ⟨sized', _, ended⟩ := sized.room same
      have long := sized'.items
      simp only [Option.map_some, Option.bind_some, Function.comp]
      rcases ended with ⟨zero, above⟩ | ⟨failed, _⟩
      · obtain ⟨item, found⟩ : ∃ item, mid.items[fd]? = some item :=
          ⟨_, List.getElem?_eq_getElem (by omega)⟩
        simp only [zero, show ¬ (0 : Int) < 0 by omega, if_false, found, Option.map_some,
          EfKqueue.readItem_natCast found, EfKqueue.writeItem_natCast, keventInt_natCast]
        split
        · rfl
        · rfl
      · simp only [failed, show (-1 : Int) < 0 by omega, if_true]

/-- The same holds of the call that ends a registration. -/
theorem efKqueueDissociateInt_natCast (sized : ep.Sized) (stray : Int → KqueueItem)
    (fired onclose refused : Bool) :
    efKqueueDissociate ep q fd fired onclose refused =
      some ((efKqueueDissociateInt stray ep q fd fired onclose refused).ep,
        (efKqueueDissociateInt stray ep q fd fired onclose refused).filters,
        (efKqueueDissociateInt stray ep q fd fired onclose refused).value) := by
  -- Both compare the number with the capacity and then read the same entry.
  have long := sized.items
  unfold efKqueueDissociateInt efKqueueDissociate
  simp only [ge_iff_le, Int.ofNat_le]
  by_cases outside : ep.cap ≤ fd
  · simp only [if_pos outside]
  · obtain ⟨item, found⟩ : ∃ item, ep.items[fd]? = some item :=
      ⟨_, List.getElem?_eq_getElem (by omega)⟩
    simp only [if_neg outside, found, Option.map_some, EfKqueue.readItem_natCast found,
      EfKqueue.writeItem_natCast, keventInt_natCast, Int.toNat_natCast]
    cases onclose with
    | true => rfl
    | false =>
      simp only [Bool.false_eq_true, if_false]
      split
      · rfl
      · rfl

/-- What an undisturbed call answers and leaves, seen through the entries of its table. -/
theorem EfKqueue.Sized.associate_entries (sized : ep.Sized) {stray : Int → KqueueItem}
    {events : Nat} {ptr : PollPtr} {reallocs : Reallocs} {refused : Bool} {call : TableCall}
    (lucky : reallocs.items = true ∧ reallocs.events = true)
    (called : efKqueueAssociateInt stray ep q fd events ptr false reallocs refused = some call) :
    let asked := kevent q refused (associateChanges fd events ptr)
    call.filters = asked.1 ∧ call.value = (if asked.2 < 0 then -1 else 0) ∧
      ∀ i, call.ep.entry i = if ¬ asked.2 < 0 ∧ i = fd then associateItem (ep.entry fd) events
        else ep.entry i := by
  -- Without a failing `realloc` there is room for the entry.
  simp only [efKqueueAssociateInt, Bool.false_eq_true, if_false] at called
  obtain ⟨⟨mid, expanded⟩, made, ended⟩ := Option.map_eq_some_iff.mp called
  obtain ⟨sized', same, room⟩ := sized.room made
  obtain ⟨zero, above⟩ := room.resolve_right fun unlucky => unlucky.2.2 lucky
  have inside : fd < mid.cap := by omega
  simp only [zero, show ¬ (0 : Int) < 0 by omega, if_false, Int.toNat_natCast,
    keventInt_natCast, sized'.readItem_eq inside, same] at ended
  by_cases rejected : (kevent q refused (associateChanges fd events ptr)).2 < 0
  · rw [if_pos rejected] at ended
    rw [← ended]
    simpa [rejected] using same
  · rw [if_neg rejected] at ended
    rw [← ended]
    refine ⟨rfl, by rw [if_neg rejected], fun i => ?_⟩
    show (mid.writeItem fd _).entry i = _
    rw [sized'.entry_writeItem inside, same]
    by_cases here : i = fd
    · rw [if_pos here, if_pos ⟨rejected, here⟩]
    · rw [if_neg here, if_neg fun both => here both.2]

/-- What an undisturbed end of a registration leaves. -/
theorem EfKqueue.Sized.dissociate_entries (sized : ep.Sized) (stray : Int → KqueueItem)
    (fired onclose : Bool) :
    let call := efKqueueDissociateInt stray ep q fd fired onclose false
    let asked := kevent q false (dissociateChanges fd (ep.entry fd))
    call.filters = (if onclose then q else asked.1) ∧
      call.value = (if onclose ∨ ¬ asked.2 < 0 then 0 else -1) ∧
      ∀ i, call.ep.entry i = if (onclose ∨ ¬ asked.2 < 0) ∧ i = fd then .zero
        else ep.entry i := by
  -- The cases are a number within the capacity and one beyond it.
  by_cases inside : fd < ep.cap
  · have within : ¬ (fd : Int) ≥ ep.cap := by omega
    simp only [efKqueueDissociateInt, if_neg within, sized.readItem_eq inside, keventInt_natCast,
      Int.toNat_natCast]
    cases onclose with
    | true =>
      refine ⟨rfl, rfl, fun i => ?_⟩
      show (ep.writeItem fd .zero).entry i = _
      rw [sized.entry_writeItem inside]
      simp
    | false =>
      simp only [Bool.false_eq_true, if_false, false_or]
      by_cases rejected : (kevent q false (dissociateChanges fd (ep.entry fd))).2 < 0
      · simp [rejected]
      · simp only [rejected, if_false, not_false_eq_true, if_true, true_and]
        exact fun i => sized.entry_writeItem inside .zero i
  · -- Beyond the capacity there is no entry, and so nothing to ask the kernel for.
    have beyond : (fd : Int) ≥ ep.cap := by omega
    have empty : ep.entry fd = .zero := if_neg inside
    simp only [efKqueueDissociateInt, if_pos beyond, empty]
    refine ⟨by cases onclose <;> rfl, by cases onclose <;> rfl, fun i => ?_⟩
    by_cases here : i = fd
    · rw [here, empty]
      split
      · rfl
      · rfl
    · rw [if_neg fun both => here both.2]

/-- Later calls do not tell tables with the same entries apart, and keep their entries the same. -/
theorem same_entries_alike {other : EfKqueue} (sized : ep.Sized) (sized' : other.Sized)
    (same : ∀ i, other.entry i = ep.entry i) {op : TableOp} (natural : 0 ≤ op.fd)
    (undisturbed : op.Undisturbed) {stray stray' : Int → KqueueItem} {call call' : TableCall}
    (called : op.call stray ep q = some call) (called' : op.call stray' other q = some call') :
    call'.value = call.value ∧ call'.filters = call.filters ∧
      ∀ i, call'.ep.entry i = call.ep.entry i := by
  -- What a call answers and leaves is a function of the entries.
  cases op with
  | associate fd events ptr fired reallocs refused =>
    obtain ⟨fd, rfl⟩ := Int.eq_ofNat_of_zero_le natural
    cases fired with
    | true =>
      cases called
      cases called'
      exact ⟨rfl, rfl, same⟩
    | false =>
      obtain ⟨filters, value, entries⟩ := sized.associate_entries undisturbed called
      obtain ⟨filters', value', entries'⟩ := sized'.associate_entries undisturbed called'
      refine ⟨value'.trans value.symm, filters'.trans filters.symm, fun i => ?_⟩
      rw [entries, entries', same, same]
  | dissociate fd fired onclose refused =>
    obtain ⟨fd, rfl⟩ := Int.eq_ofNat_of_zero_le natural
    cases undisturbed
    cases called
    cases called'
    obtain ⟨filters, value, entries⟩ := sized.dissociate_entries stray fired onclose
    obtain ⟨filters', value', entries'⟩ := sized'.dissociate_entries stray' fired onclose
    rw [same] at filters' value' entries'
    refine ⟨value'.trans value.symm, filters'.trans filters.symm, fun i => ?_⟩
    rw [entries, entries', same]

end

/--
A call is safe exactly when its number is not negative and doubling reaches it without an overflow.

An `associate` for an event that has fired does not come to the table, and is always safe.
-/
theorem table_call_safe_iff (stray : Int → KqueueItem) (ep : EfKqueue) (q : Filters) (op : TableOp)
    (grown : Grown ep) : SafeCall stray ep q op ↔ op.Served ep := by
  -- The cases are the two functions, and for the first one the flag of a fired event.
  have sized := grown.sized
  cases op with
  | associate fd events ptr fired reallocs refused =>
    cases fired with
    | true =>
      refine ⟨fun _ => .inl rfl, fun _ => ⟨⟨ep, q, 0, []⟩, rfl, ?_, ?_, ?_⟩⟩
      · simp
      · simp [TableOp.needs]
      · simp
    | false =>
      constructor
      · intro safe
        obtain ⟨call, called, touched, _⟩ := safe
        obtain ⟨_, indices, negative, _⟩ := sized.associated called
        -- A negative number is the index of an entry that the call uses.
        have natural : 0 ≤ fd := by
          by_contra below
          obtain ⟨touch, mem⟩ := List.exists_mem_of_ne_nil _ (negative (by omega))
          have index := (indices touch mem).1
          have bound := (touched touch mem).1
          omega
        have defined : (efKqueueAssociateInt stray ep q fd events ptr false reallocs
            refused).isSome := Option.isSome_iff_exists.mpr ⟨call, called⟩
        exact .inr ⟨natural, (sized.associate_isSome_iff natural _ _ _ _).mp defined⟩
      · intro served
        obtain ⟨natural, reach⟩ := served.resolve_left (by simp)
        have defined : (efKqueueAssociateInt stray ep q fd events ptr false reallocs
            refused).isSome := (sized.associate_isSome_iff natural _ _ _ _).mpr reach
        obtain ⟨call, called⟩ := Option.isSome_iff_exists.mp defined
        obtain ⟨_, indices, _, covered, failed⟩ := sized.associated called
        refine ⟨call, called, ?_, ?_, failed⟩
        · intro touch mem
          obtain ⟨index, bound⟩ := indices touch mem
          exact ⟨by omega, by omega⟩
        · intro zero other needed
          have same : fd = other := Option.some.inj needed
          exact same ▸ covered zero
  | dissociate fd fired onclose refused =>
    obtain ⟨call, made⟩ : ∃ call,
        efKqueueDissociateInt stray ep q fd fired onclose refused = call := ⟨_, rfl⟩
    obtain ⟨_, indices, negative, failed⟩ := sized.dissociated fd fired onclose refused made
    constructor
    · intro safe
      obtain ⟨other, called, touched, _⟩ := safe
      have same : call = other := made.symm.trans (Option.some.inj called)
      rw [← same] at touched
      by_contra below
      obtain ⟨touch, mem⟩ := List.exists_mem_of_ne_nil _ (negative (Int.not_le.mp below))
      have index := (indices touch mem).1
      have bound := (touched touch mem).1
      exact below (show 0 ≤ fd by omega)
    · intro natural
      refine ⟨call, congrArg some made, ?_, ?_, ?_⟩
      · intro touch mem
        obtain ⟨index, bound⟩ := indices touch mem
        have positive : 0 ≤ fd := natural
        exact ⟨by omega, by omega⟩
      · intro _ other needed
        cases needed
      · intro nonzero
        obtain ⟨value, same⟩ := failed nonzero
        exact ⟨value, fun i => by rw [same]⟩

/-- Number 5 in a new table is served as it should be. -/
theorem table_call_safe_five :
    SafeCall (fun _ => .zero) (efKqueueCreate 1024) (fun _ _ => none)
        (.dissociate 5 true false false) ↔
      TableOp.Served (efKqueueCreate 1024) (.dissociate 5 true false false) :=
  table_call_safe_iff (fun _ => .zero) (efKqueueCreate 1024) (fun _ _ => none)
    (.dissociate 5 true false false) (.create 1024 (by omega))

/-- The close of a socket that could not be made stores an entry in front of the array. -/
theorem table_call_unsafe :
    ¬ ∀ (stray : Int → KqueueItem) (ep : EfKqueue) (q : Filters) (op : TableOp),
      Grown ep → SafeCall stray ep q op := by
  intro claimed
  -- The number is negative, and the comparison with the capacity lets it pass.
  obtain ⟨call, called, touched, _⟩ := claimed (fun _ => .zero) (efKqueueCreate 1024)
    (fun _ _ => none) (.dissociate (-1) false true false) (.create 1024 (by omega))
  have made := Option.some.inj called
  have mem : ((-1 : Int), 1024) ∈ call.touched := by
    rw [← made]
    exact .head _
  exact absurd (touched _ mem).1 (by decide)

end SimpleSrv.Ef
