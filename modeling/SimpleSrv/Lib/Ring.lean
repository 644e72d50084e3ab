import Mathlib.Data.List.Chain
import Mathlib.Data.List.Nodup
import Mathlib.Logic.Function.Basic

/-! Nodes with a link each way, the rings that they form, and what a change at one place does. -/

namespace SimpleSrv

/-- A link to the previous and one to the next node, for each node. -/
structure Links (α : Type*) where
  prev : α → α
  next : α → α

section Places

variable {α : Type*} [DecidableEq α] {c : α} {before : List α}

/-- Put an item behind the head of a list or behind one of its entries. -/
def placeAfter (head c x : α) (entries : List α) : List α :=
  entries.insertIdx ((head :: entries).idxOf c) x

/-- Put an item before an entry of a list, or behind all of them if there is no such entry. -/
def placeBefore (c x : α) (entries : List α) : List α := entries.insertIdx (entries.idxOf c) x

/-- An item that goes behind the first ones of a list comes before the others. -/
theorem insertIdx_append {α : Type*} (before after : List α) (x : α) :
    (before ++ after).insertIdx before.length x = before ++ x :: after := by
  -- The position counts down along the items that stay in front.
  induction before with
  | nil => rfl
  | cons a before ih =>
    rw [List.cons_append, List.length_cons, List.insertIdx_succ_cons, ih, List.cons_append]

/-- An item is put before the place where the other one stands first. -/
theorem placeBefore_eq (fresh : c ∉ before) (x : α) (after : List α) :
    placeBefore c x (before ++ c :: after) = before ++ x :: c :: after := by
  have index : (before ++ c :: after).idxOf c = before.length := by
    rw [List.idxOf_append_of_notMem fresh, List.idxOf_cons_self, Nat.add_zero]
  rw [placeBefore, index, insertIdx_append]

/-- Without the other item, the new one comes last. -/
theorem placeBefore_eq_append (fresh : c ∉ before) (x : α) :
    placeBefore c x before = before ++ [x] := by
  rw [placeBefore, List.idxOf_eq_length fresh, List.insertIdx_length_self]

/-- Behind the head, an item comes first. -/
theorem placeAfter_head (head x : α) (entries : List α) :
    placeAfter head head x entries = x :: entries := by
  rw [placeAfter, List.idxOf_cons_self, List.insertIdx_zero]

/-- An item is put behind the place where the other one stands first. -/
theorem placeAfter_eq {head : α} (fresh : c ∉ head :: before) (x : α) (after : List α) :
    placeAfter head c x (before ++ c :: after) = before ++ c :: x :: after := by
  -- The position behind the item counts the head, the items before it and itself.
  have index : (head :: (before ++ c :: after)).idxOf c = (before ++ [c]).length := by
    rw [← List.cons_append, List.idxOf_append_of_notMem fresh, List.idxOf_cons_self]
    simp
  have split : before ++ c :: after = (before ++ [c]) ++ after := by simp
  rw [placeAfter, index, split, insertIdx_append]
  simp

end Places

namespace Links

variable {α : Type*}

section Assignments

variable [DecidableEq α]

/-- An assignment to the link of a node to its previous one. -/
def setPrev (m : Links α) (a b : α) : Links α := { m with prev := Function.update m.prev a b }

/-- An assignment to the link of a node to its next one. -/
def setNext (m : Links α) (a b : α) : Links α := { m with next := Function.update m.next a b }

variable (m : Links α) (a b : α)

/-- An assignment to `prev` leaves the other links alone. -/
@[simp] theorem setPrev_next : (m.setPrev a b).next = m.next := rfl

/-- It shows at its own node only. -/
@[simp] theorem setPrev_prev : (m.setPrev a b).prev = Function.update m.prev a b := rfl

/-- An assignment to `next` shows at its own node only. -/
@[simp] theorem setNext_next : (m.setNext a b).next = Function.update m.next a b := rfl

/-- It leaves the other links alone. -/
@[simp] theorem setNext_prev : (m.setNext a b).prev = m.prev := rfl

/--
A walk over the entries of a ring, with those that it has visited.

It takes the neighbour of each entry before the body runs, which may leave the walk there.
-/
def traverse (advance : Links α → α → α) (body : Links α → α → Option (Links α)) (head : α) :
    Nat → Links α → α → Option (List α × Links α)
  | 0, _, _ => none
  | rounds + 1, m, a =>
    if a = head then some ([], m)
    else
      match body m a with
      | none => some ([a], m)
      | some after =>
        (traverse advance body head rounds after (advance m a)).map fun (visited, final) =>
          (a :: visited, final)

end Assignments

/-- The two nodes are linked with each other, in this order. -/
def Linked (m : Links α) (a b : α) : Prop := m.next a = b ∧ m.prev b = a

/-- One cycle that leads from the head along all the entries, once each, and back to the head. -/
structure Ring (m : Links α) (head : α) (entries : List α) : Prop where
  chain : (head :: (entries ++ [head])).IsChain m.Linked
  nodup : (head :: entries).Nodup

/-- A node is put behind another one, where only the links at that place change. -/
structure Inserts (m m' : Links α) (a x : α) : Prop where
  left : m'.Linked a x
  right : m'.Linked x (m.next a)
  next : ∀ b, b ≠ a → b ≠ x → m'.next b = m.next b
  prev : ∀ b, b ≠ m.next a → b ≠ x → m'.prev b = m.prev b

/-- The neighbours of a node are linked with each other, and nothing else changes. -/
structure Removes (m m' : Links α) (x : α) : Prop where
  closed : m'.Linked (m.prev x) (m.next x)
  next : ∀ b, b ≠ m.prev x → m'.next b = m.next b
  prev : ∀ b, b ≠ m.next x → m'.prev b = m.prev b

/-- A chain of links remains one where the links of its nodes do not change. -/
theorem chain_congr {m m' : Links α} {first : α} {nodes : List α} {last : α}
    (chain : (first :: (nodes ++ [last])).IsChain m.Linked)
    (next : ∀ a ∈ first :: nodes, m'.next a = m.next a)
    (prev : ∀ a ∈ nodes ++ [last], m'.prev a = m.prev a) :
    (first :: (nodes ++ [last])).IsChain m'.Linked := by
  -- The links lead forward from all nodes but the last, and back from all but the first.
  induction nodes generalizing first with
  | nil =>
    rw [List.nil_append, List.isChain_pair] at chain ⊢
    exact ⟨(next first (by simp)).trans chain.1, (prev last (by simp)).trans chain.2⟩
  | cons second rest ih =>
    rw [List.cons_append, List.isChain_cons_cons] at chain ⊢
    obtain ⟨linked, chain⟩ := chain
    refine ⟨⟨(next first (by simp)).trans linked.1, (prev second (by simp)).trans linked.2⟩, ?_⟩
    apply ih chain
    · exact fun a member => next a (List.mem_cons_of_mem _ member)
    · exact fun a member => prev a (List.mem_cons_of_mem _ member)

namespace Ring

variable {m m' : Links α} {head a b x : α} {entries before after : List α}

/-- A node that is linked with itself is a ring of its own. -/
theorem singleton_iff : m.Ring a [] ↔ m.Linked a a := by
  -- The chain has the one link from the node to itself.
  constructor
  · intro ring
    exact List.isChain_pair.mp ring.chain
  · intro linked
    exact ⟨List.isChain_pair.mpr linked, List.nodup_singleton a⟩

/-- The links of a ring lead from the head to the first entry. -/
theorem linked_first (ring : m.Ring a (b :: after)) : m.Linked a b :=
  (List.isChain_cons_cons.mp ring.chain).1

/-- A ring may be entered at any of its nodes. -/
theorem turn (ring : m.Ring a (before ++ b :: after)) : m.Ring b (after ++ a :: before) := by
  have chain := ring.chain
  have nodup := ring.nodup
  -- The cycle is cut at both nodes, and its two parts change places.
  rw [List.append_assoc, List.cons_append, ← List.cons_append, List.isChain_split] at chain
  constructor
  · rw [List.append_assoc, List.cons_append, ← List.cons_append, List.isChain_split]
    exact chain.symm
  · have perm : (b :: (after ++ a :: before)).Perm (a :: (before ++ b :: after)) := by
      have swap : ((b :: after) ++ (a :: before)).Perm ((a :: before) ++ (b :: after)) :=
        List.perm_append_comm
      simpa using swap
    exact perm.nodup_iff.mpr nodup

/-- A ring remains one where the links of its nodes do not change. -/
theorem congr (ring : m.Ring head entries) (next : ∀ a ∈ head :: entries, m'.next a = m.next a)
    (prev : ∀ a ∈ head :: entries, m'.prev a = m.prev a) : m'.Ring head entries := by
  refine ⟨chain_congr ring.chain next fun a member => prev a ?_, ring.nodup⟩
  simpa [or_comm] using member

/-- A node that is put behind the head becomes the first entry. -/
theorem insert (ring : m.Ring a entries) (fresh : x ∉ a :: entries)
    (inserts : m.Inserts m' a x) : m'.Ring a (x :: entries) := by
  obtain ⟨left, right, next, prev⟩ := inserts
  have nodup := ring.nodup
  have apart : x ≠ a ∧ x ∉ entries := by simpa using fresh
  refine ⟨?_, ?_⟩
  · rw [List.cons_append, List.isChain_cons_cons]
    refine ⟨left, ?_⟩
    cases entries with
    | nil =>
      -- The only node of the ring is its own neighbour on both sides.
      rw [(singleton_iff.mp ring).1] at right
      exact List.isChain_pair.mpr right
    | cons b after =>
      have linked := ring.linked_first
      rw [linked.1] at right prev
      rw [List.cons_append, List.isChain_cons_cons]
      refine ⟨right, chain_congr (List.isChain_cons_cons.mp ring.chain).2 ?_ ?_⟩
      · intro c member
        exact next c (fun same => (List.nodup_cons.mp nodup).1 (same ▸ member))
          fun same => apart.2 (same ▸ member)
      · intro c member
        have other : c ≠ b := by
          rintro rfl
          rcases List.mem_append.mp member with member | member
          · exact (List.nodup_cons.mp (List.nodup_cons.mp nodup).2).1 member
          · exact (List.nodup_cons.mp nodup).1 (List.mem_singleton.mp member ▸ .head _)
        refine prev c other fun same => ?_
        rcases List.mem_append.mp member with member | member
        · exact apart.2 (same ▸ List.mem_cons_of_mem _ member)
        · exact apart.1 (same ▸ List.mem_singleton.mp member)
  · have order : (a :: x :: entries).Perm (x :: a :: entries) := List.Perm.swap x a entries
    exact order.nodup_iff.mpr (List.nodup_cons.mpr ⟨fresh, nodup⟩)

/-- When the first entry is removed, the others stay behind the head. -/
theorem remove (ring : m.Ring a (x :: entries)) (removes : m.Removes m' x) :
    m'.Ring a entries := by
  obtain ⟨closed, next, prev⟩ := removes
  rw [ring.linked_first.2] at closed next
  have nodup := ring.nodup
  have chain : (x :: (entries ++ [a])).IsChain m.Linked :=
    (List.isChain_cons_cons.mp ring.chain).2
  refine ⟨?_, ?_⟩
  · cases entries with
    | nil =>
      -- The head is the only node that is left.
      rw [(List.isChain_pair.mp chain).1] at closed
      exact List.isChain_pair.mpr closed
    | cons b after =>
      rw [List.cons_append, List.isChain_cons_cons] at chain
      obtain ⟨linked, chain⟩ := chain
      rw [linked.1] at closed prev
      have distinct : a ∉ b :: after ∧ b ∉ after := by
        simp only [List.nodup_cons, List.mem_cons, not_or] at nodup ⊢
        exact ⟨nodup.1.2, nodup.2.2.1⟩
      rw [List.cons_append, List.isChain_cons_cons]
      refine ⟨closed, chain_congr chain ?_ ?_⟩
      · exact fun c member => next c fun same => distinct.1 (same ▸ member)
      · intro c member
        apply prev c
        rintro rfl
        rcases List.mem_append.mp member with member | member
        · exact distinct.2 member
        · exact distinct.1 (List.mem_singleton.mp member ▸ .head _)
  · simp only [List.nodup_cons, List.mem_cons, not_or] at nodup ⊢
    exact ⟨nodup.1.2, nodup.2.2⟩

/-- A ring is entered at one of its nodes, with the others behind each other from there. -/
theorem enter (ring : m.Ring head entries) (member : a ∈ head :: entries) :
    ∃ others, m.Ring a others ∧ ((a = head ∧ others = entries) ∨
      ∃ before after, entries = before ++ a :: after ∧ others = after ++ head :: before) := by
  -- An entry cuts the ring, and the head comes between what follows it and what precedes it.
  rcases List.mem_cons.mp member with rfl | member
  · exact ⟨entries, ring, .inl ⟨rfl, rfl⟩⟩
  · obtain ⟨before, after, rfl⟩ := List.append_of_mem member
    exact ⟨after ++ head :: before, ring.turn, .inr ⟨before, after, rfl, rfl⟩⟩

/-- The next node is the first entry, or the head itself. -/
theorem next_head (ring : m.Ring head entries) : m.next head = entries.headD head := by
  cases entries with
  | nil => exact (singleton_iff.mp ring).1
  | cons b after => exact ring.linked_first.1

/-- The last entry of a ring is linked with its head. -/
theorem linked_last (ring : m.Ring head (before ++ [a])) : m.Linked a head :=
  ring.turn.linked_first

/-- The previous node is the last entry, or the head itself. -/
theorem prev_head (ring : m.Ring head entries) : m.prev head = entries.getLastD head := by
  -- The list is taken from its end, which the links lead back to.
  rcases List.eq_nil_or_concat entries with rfl | ⟨before, a, rfl⟩
  · exact (singleton_iff.mp ring).2
  · rw [List.concat_eq_append] at ring ⊢
    rw [List.getLastD_concat]
    exact ring.linked_last.2

/-- What comes before a node and what comes after it are linked with it. -/
theorem linked_next (ring : m.Ring head entries) (member : a ∈ head :: entries) :
    m.Linked a (m.next a) := by
  obtain ⟨others, ring, _⟩ := ring.enter member
  cases others with
  | nil =>
    have linked := singleton_iff.mp ring
    exact linked.1.symm ▸ linked
  | cons b after =>
    have linked := ring.linked_first
    exact linked.1.symm ▸ linked

/-- The next node of a node of the ring is one of the ring. -/
theorem next_mem (ring : m.Ring head entries) (member : a ∈ head :: entries) :
    m.next a ∈ head :: entries := by
  -- Entered at the node, the ring has the next node as its first entry, or is the node alone.
  obtain ⟨others, turned, here⟩ := ring.enter member
  have next := turned.next_head
  rcases here with ⟨rfl, rfl⟩ | ⟨before, after, rfl, rfl⟩
  · cases others with
    | nil => exact next ▸ .head _
    | cons b after => exact next ▸ List.mem_cons_of_mem _ (.head _)
  · cases after with
    | nil => exact next ▸ .head _
    | cons b after =>
      rw [next]
      simp

/-- The previous node of a node of the ring is one of the ring. -/
theorem prev_mem (ring : m.Ring head entries) (member : a ∈ head :: entries) :
    m.prev a ∈ head :: entries := by
  -- Entered at the node, the ring has the previous node as its last entry.
  obtain ⟨others, turned, here⟩ := ring.enter member
  have prev := turned.prev_head
  have last : m.prev a ∈ a :: others := by
    rw [prev]
    rcases List.eq_nil_or_concat others with rfl | ⟨before, b, rfl⟩
    · exact .head _
    · simp
  rcases here with ⟨rfl, rfl⟩ | ⟨before, after, rfl, rfl⟩
  · exact last
  · simp only [List.mem_cons, List.mem_append] at last ⊢
    tauto

/-- The links of the nodes of a ring are inverse to each other. -/
theorem next_prev (ring : m.Ring head entries) (member : a ∈ head :: entries) :
    m.next (m.prev a) = a := by
  -- The last entry of the ring that starts at the node links forward to it.
  obtain ⟨others, turned, _⟩ := ring.enter member
  rw [turned.prev_head]
  rcases List.eq_nil_or_concat others with rfl | ⟨before, b, rfl⟩
  · exact (singleton_iff.mp turned).1
  · rw [List.concat_eq_append] at turned ⊢
    rw [List.getLastD_concat]
    exact turned.linked_last.1

/-- A node that is put behind the last entry, or behind the head of none, becomes the last one. -/
theorem append (ring : m.Ring a entries) (fresh : x ∉ a :: entries)
    (inserts : m.Inserts m' (m.prev a) x) : m'.Ring a (entries ++ [x]) := by
  have prev := ring.prev_head
  rcases List.eq_nil_or_concat entries with rfl | ⟨before, b, rfl⟩
  · rw [prev] at inserts
    exact ring.insert fresh inserts
  · rw [List.concat_eq_append] at ring fresh prev ⊢
    rw [List.getLastD_concat] at prev
    rw [prev] at inserts
    -- Seen from the last entry, the node is put in front of the others.
    have behind : m'.Ring b ([x] ++ a :: before) := by
      apply ring.turn.insert _ inserts
      simpa [or_comm, or_assoc, or_left_comm] using fresh
    simpa using behind.turn

/-- An entry stands only at one place of a ring, and that is not the head. -/
theorem place (ring : m.Ring head (before ++ a :: after)) : a ∉ head :: before := by
  have nodup := ring.nodup
  rw [← List.cons_append, List.nodup_append] at nodup
  exact fun member => nodup.2.2 a member a (.head _) rfl

/-- Without its head, a ring starts at what was its first entry. -/
theorem remove_head (ring : m.Ring head (b :: after)) (removes : m.Removes m' head) :
    m'.Ring b after := by
  -- The head is an entry of the ring that starts at another node.
  rcases List.eq_nil_or_concat after with rfl | ⟨first, a, rfl⟩
  · have whole : m.Ring head ([] ++ b :: []) := ring
    exact whole.turn.remove removes
  · rw [List.concat_eq_append] at ring ⊢
    -- The ring is turned to the last entry, which the head comes after.
    have whole : m.Ring head ((b :: first) ++ a :: []) := ring
    have closed : m'.Ring a ([] ++ b :: first) := whole.turn.remove removes
    simpa using closed.turn

section Places

variable [DecidableEq α] {c : α}

/-- A node is put behind any node of the ring. -/
theorem insert_after (ring : m.Ring head entries) (member : c ∈ head :: entries)
    (fresh : x ∉ head :: entries) (inserts : m.Inserts m' c x) :
    m'.Ring head (placeAfter head c x entries) := by
  obtain ⟨others, turned, ⟨rfl, rfl⟩ | ⟨before, after, rfl, rfl⟩⟩ := ring.enter member
  · rw [placeAfter_head]
    exact turned.insert fresh inserts
  · rw [placeAfter_eq ring.place]
    -- The ring is turned to the node and back.
    have behind : m'.Ring c ((x :: after) ++ head :: before) := by
      apply turned.insert _ inserts
      simpa [or_comm, or_assoc, or_left_comm] using fresh
    exact behind.turn

/-- A node is put before any node of the ring, and before the head it becomes the last entry. -/
theorem insert_before (ring : m.Ring head entries) (member : c ∈ head :: entries)
    (fresh : x ∉ head :: entries) (inserts : m.Inserts m' (m.prev c) x) :
    m'.Ring head (placeBefore c x entries) := by
  obtain ⟨others, turned, ⟨rfl, rfl⟩ | ⟨before, after, rfl, rfl⟩⟩ := ring.enter member
  · rw [placeBefore_eq_append (List.nodup_cons.mp ring.nodup).1]
    exact turned.append fresh inserts
  · rw [placeBefore_eq fun early => ring.place (List.mem_cons_of_mem _ early)]
    have last : m'.Ring c (after ++ head :: (before ++ [x])) := by
      have appended : m'.Ring c ((after ++ head :: before) ++ [x]) := by
        apply turned.append _ inserts
        simpa [or_comm, or_assoc, or_left_comm] using fresh
      simpa using appended
    simpa using last.turn

/-- An entry is removed from anywhere in the ring. -/
theorem remove_entry (ring : m.Ring head entries) (member : x ∈ entries)
    (removes : m.Removes m' x) : m'.Ring head (entries.erase x) := by
  -- The entry is the first one of the ring that starts right before it.
  obtain ⟨before, after, rfl⟩ := List.append_of_mem member
  rw [List.erase_append_right _ fun early => ring.place (List.mem_cons_of_mem _ early),
    List.erase_cons_head]
  rcases List.eq_nil_or_concat before with rfl | ⟨first, b, rfl⟩
  · exact ring.remove removes
  · rw [List.concat_eq_append, List.append_assoc, List.singleton_append] at ring ⊢
    -- The ring is turned to the node before the entry and back.
    have turned : m.Ring b (x :: (after ++ head :: first)) := ring.turn
    exact (turned.remove removes).turn

end Places

end Ring

/-- Any number of rings, each given by its head and entries, that have no node in common. -/
structure Rings (m : Links α) (shape : α → Option (List α)) : Prop where
  ring : ∀ head entries, shape head = some entries → m.Ring head entries
  disjoint : ∀ head entries other others, shape head = some entries →
    shape other = some others → head ≠ other → ∀ a ∈ head :: entries, a ∉ other :: others

/-- A node that is on no ring. -/
def OffRings (shape : α → Option (List α)) (a : α) : Prop :=
  ∀ head entries, shape head = some entries → a ∉ head :: entries

namespace Rings

variable {m m' : Links α} {shape : α → Option (List α)} {head c x : α} {entries after : List α}

/-- A node is removed from its ring, where the other rings are left alone. -/
theorem removed_apart (rings : m.Rings shape) (here : shape head = some entries)
    (member : x ∈ head :: entries) (removes : m.Removes m' x) {other : α} {l : List α}
    (there : shape other = some l) (apart : other ≠ head) {b : α} (inside : b ∈ other :: l) :
    b ∉ head :: entries ∧ m'.next b = m.next b ∧ m'.prev b = m.prev b := by
  -- Only the neighbours of the node get other links, and they are on its own ring.
  have elsewhere : b ∉ head :: entries :=
    rings.disjoint other l head entries there here apart b inside
  have ring := rings.ring head entries here
  refine ⟨elsewhere, removes.next b fun same => ?_, removes.prev b fun same => ?_⟩
  · exact elsewhere (same ▸ ring.prev_mem member)
  · exact elsewhere (same ▸ ring.next_mem member)

section Changes

variable [DecidableEq α]

/-- A ring changes, or is added, where the nodes of the others are left alone. -/
theorem change (rings : m.Rings shape) (ring : m'.Ring head after)
    (others : ∀ other l, shape other = some l → other ≠ head → ∀ a ∈ other :: l,
      a ∉ head :: after ∧ m'.next a = m.next a ∧ m'.prev a = m.prev a) :
    m'.Rings (Function.update shape head (some after)) := by
  -- Each ring afterwards is the changed one or an old one.
  have cases : ∀ other l, Function.update shape head (some after) other = some l →
      (other = head ∧ l = after) ∨ (other ≠ head ∧ shape other = some l) := by
    intro other l present
    by_cases same : other = head
    · subst same
      rw [Function.update_self] at present
      exact .inl ⟨rfl, (Option.some.inj present).symm⟩
    · rw [Function.update_of_ne same] at present
      exact .inr ⟨same, present⟩
  constructor
  · intro other l present
    rcases cases other l present with ⟨rfl, rfl⟩ | ⟨apart, present⟩
    · exact ring
    · have kept := others other l present apart
      exact (rings.ring other l present).congr (fun a member => (kept a member).2.1)
        fun a member => (kept a member).2.2
  · intro first k second l here there apart a member
    rcases cases first k here with ⟨rfl, rfl⟩ | ⟨otherFirst, oldFirst⟩
    · rcases cases second l there with ⟨rfl, _⟩ | ⟨otherSecond, oldSecond⟩
      · exact absurd rfl apart
      · exact fun shared => (others second l oldSecond otherSecond a shared).1 member
    · rcases cases second l there with ⟨rfl, rfl⟩ | ⟨_, oldSecond⟩
      · exact (others first k oldFirst otherFirst a member).1
      · exact rings.disjoint first k second l oldFirst oldSecond apart a member

/-- A ring is given up, whatever becomes of its nodes. -/
theorem forget (rings : m.Rings shape) (head : α) :
    m.Rings (Function.update shape head none) := by
  -- Each ring that is left was there before.
  have kept : ∀ other l, Function.update shape head none other = some l →
      shape other = some l := by
    intro other l present
    by_cases same : other = head
    · subst same
      rw [Function.update_self] at present
      cases present
    · rwa [Function.update_of_ne same] at present
  constructor
  · exact fun other l present => rings.ring other l (kept other l present)
  · intro first k second l here there
    exact rings.disjoint first k second l (kept first k here) (kept second l there)

/-- A node that was on no ring is put into one, behind the node `a`. -/
theorem insert (rings : m.Rings shape) {a : α} (here : shape head = some entries)
    (at_ : a ∈ head :: entries) (off : OffRings shape x) (inserts : m.Inserts m' a x)
    (ring : m'.Ring head after) (nodes : ∀ b ∈ after, b = x ∨ b ∈ entries) :
    m'.Rings (Function.update shape head (some after)) := by
  apply rings.change ring
  intro other l there apart b member
  -- The nodes of another ring are neither the new node nor its neighbours.
  have elsewhere : b ∉ head :: entries :=
    rings.disjoint other l head entries there here apart b member
  have old : b ≠ x := fun same => off other l there (same ▸ member)
  refine ⟨?_, inserts.next b ?_ old, inserts.prev b ?_ old⟩
  · intro inside
    rcases List.mem_cons.mp inside with rfl | inside
    · exact elsewhere (.head _)
    · rcases nodes b inside with same | inside
      · exact old same
      · exact elsewhere (List.mem_cons_of_mem _ inside)
  · exact fun same => elsewhere (same ▸ at_)
  · exact fun same => elsewhere (same ▸ (rings.ring head entries here).next_mem at_)

/-- An entry is removed from its ring. -/
theorem remove_entry (rings : m.Rings shape) (here : shape head = some entries)
    (member : x ∈ entries) (removes : m.Removes m' x) :
    m'.Rings (Function.update shape head (some (entries.erase x))) := by
  apply rings.change ((rings.ring head entries here).remove_entry member removes)
  intro other l there apart b inside
  have kept := rings.removed_apart here (List.mem_cons_of_mem _ member) removes there apart inside
  refine ⟨fun shared => kept.1 ?_, kept.2⟩
  rcases List.mem_cons.mp shared with rfl | shared
  · exact .head _
  · exact List.mem_cons_of_mem _ (List.mem_of_mem_erase shared)

/-- When the head itself is removed, the ring goes on from its first entry. -/
theorem remove_head (rings : m.Rings shape) (here : shape head = some (c :: after))
    (removes : m.Removes m' head) :
    m'.Rings (Function.update (Function.update shape head none) c (some after)) := by
  apply (rings.forget head).change ((rings.ring head _ here).remove_head removes)
  intro other l there _ b inside
  have apart : other ≠ head := by
    rintro rfl
    rw [Function.update_self] at there
    cases there
  rw [Function.update_of_ne apart] at there
  have kept := rings.removed_apart here (.head _) removes there apart inside
  exact ⟨fun shared => kept.1 (List.mem_cons_of_mem _ shared), kept.2⟩

end Changes

end Rings

section Traversal

variable [DecidableEq α] {advance : Links α → α → α} {body : Links α → α → Option (Links α)}
  {head : α} {holds : Links α → List α → Prop}

/--
A walk visits each entry once, in turn, and comes to its end or leaves at one of them.

It is enough that the neighbour of each entry is the next one to visit, and that the body keeps
whatever says so of those that are left.
-/
theorem traverse_visits
    (saved : ∀ m a todo, holds m (a :: todo) → a ≠ head ∧ advance m a = todo.headD head)
    (kept : ∀ m a todo after, holds m (a :: todo) → body m a = some after → holds after todo)
    {todo : List α} {m : Links α} {rounds : Nat} (start : holds m todo)
    (enough : todo.length < rounds) :
    (∃ final, traverse advance body head rounds m (todo.headD head) = some (todo, final) ∧
      holds final []) ∨
    ∃ visited a rest final, todo = visited ++ a :: rest ∧ body final a = none ∧
      traverse advance body head rounds m (todo.headD head) = some (visited ++ [a], final) ∧
      holds final (a :: rest) := by
  -- The induction is on the entries that are left, of which each round visits the first one.
  induction todo generalizing m rounds with
  | nil =>
    obtain ⟨rounds, rfl⟩ := Nat.exists_eq_add_of_lt enough
    exact .inl ⟨m, by simp [traverse], start⟩
  | cons a todo ih =>
    obtain ⟨rounds, rfl⟩ := Nat.exists_eq_add_of_lt enough
    obtain ⟨entry, next⟩ := saved m a todo start
    have unfolded : traverse advance body head ((a :: todo).length + rounds + 1) m a =
        match body m a with
        | none => some ([a], m)
        | some after =>
          (traverse advance body head ((a :: todo).length + rounds) after (advance m a)).map
            fun (visited, final) => (a :: visited, final) := by
      rw [traverse, if_neg entry]
    rw [List.headD_cons, unfolded]
    cases left : body m a with
    | none => exact .inr ⟨[], a, todo, m, rfl, left, rfl, start⟩
    | some after =>
      have shorter : todo.length < (a :: todo).length + rounds := by
        rw [List.length_cons]
        omega
      rcases ih (kept m a todo after start left) shorter with
        ⟨final, walked, ended⟩ | ⟨visited, b, rest, final, split, stops, walked, there⟩
      · refine .inl ⟨final, ?_, ended⟩
        simp only [next, walked, Option.map_some]
      · have all : a :: todo = (a :: visited) ++ b :: rest := by rw [split, List.cons_append]
        refine .inr ⟨a :: visited, b, rest, final, all, stops, ?_, there⟩
        simp only [next, walked, Option.map_some, List.cons_append]

end Traversal

end Links

end SimpleSrv
