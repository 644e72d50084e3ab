import Mathlib.Algebra.Ring.Nat
import Mathlib.Data.List.Basic

/-! Byte-addressed memory with little-endian words, and what a store leaves as it was. -/

namespace SimpleSrv

/-- A machine word. -/
abbrev Word := BitVec 64

/-- The word that eight bytes make, the least significant one coming first. -/
def joinBytes (byte : Nat → BitVec 8) : Word :=
  byte 7 ++ byte 6 ++ byte 5 ++ byte 4 ++ byte 3 ++ byte 2 ++ byte 1 ++ byte 0

/-- The bytes of a word make that word. -/
theorem joinBytes_extract (w : Word) : joinBytes (fun k => w.extractLsb' (8 * k) 8) = w := by
  -- Each bit of the word lies in one of the eight bytes.
  ext i bound
  simp only [joinBytes]
  grind

/-- A word depends on its eight bytes only. -/
theorem joinBytes_congr {first second : Nat → BitVec 8} (same : ∀ k < 8, first k = second k) :
    joinBytes first = joinBytes second := by
  -- Eight readings, one for each byte of the word.
  simp only [joinBytes, same 0 (by decide), same 1 (by decide), same 2 (by decide),
    same 3 (by decide), same 4 (by decide), same 5 (by decide), same 6 (by decide),
    same 7 (by decide)]

/-- An address behind a prefix of a region is that much closer to any other address. -/
theorem toNat_sub_add {a b : Word} {n : Nat} (inside : n ≤ (b - a).toNat) :
    (b - (a + BitVec.ofNat 64 n)).toNat = (b - a).toNat - n := by
  -- The prefix is no longer than the distance, so the subtraction does not wrap around.
  have small : n < 2 ^ 64 := Nat.lt_of_le_of_lt inside (b - a).isLt
  have order : BitVec.ofNat 64 n ≤ b - a := by
    rw [BitVec.le_def, BitVec.toNat_ofNat, Nat.mod_eq_of_lt small]
    exact inside
  rw [← BitVec.sub_sub, BitVec.toNat_sub_of_le order, BitVec.toNat_ofNat, Nat.mod_eq_of_lt small]

/-- The bytes of a region are as far from its start as their number says. -/
theorem toNat_add_sub {a : Word} {n : Nat} (small : n < 2 ^ 64) :
    (a + BitVec.ofNat 64 n - a).toNat = n := by
  -- The start cancels, and a small number is its own remainder.
  have cancel : a + BitVec.ofNat 64 n - a = BitVec.ofNat 64 n := by
    rw [BitVec.add_comm, BitVec.add_sub_cancel]
  rw [cancel, BitVec.toNat_ofNat, Nat.mod_eq_of_lt small]

/-- Memory, byte by byte. -/
abbrev Memory := Word → BitVec 8

namespace Memory

/-- Read a word. -/
def load (m : Memory) (a : Word) : Word := joinBytes fun k => m (a + BitVec.ofNat 64 k)

/-- Write a word. -/
def store (m : Memory) (a w : Word) : Memory := fun b =>
  -- The address is one of the eight behind the first one, or it keeps its byte.
  if (b - a).toNat < 8 then w.extractLsb' (8 * (b - a).toNat) 8 else m b

/-- The words that lie behind each other from this address on. -/
def Holds (m : Memory) : Word → List Word → Prop
  | _, [] => True
  | a, w :: rest => m.load a = w ∧ m.Holds (a + 8) rest

/-- Every byte of this region is as before. -/
def SameOn (m after : Memory) (a : Word) (size : Nat) : Prop :=
  ∀ b, (b - a).toNat < size → after b = m b

/-- Every byte outside this region is as before. -/
def Within (m after : Memory) (a : Word) (size : Nat) : Prop :=
  ∀ b, size ≤ (b - a).toNat → after b = m b

/-- No byte of the first region belongs to the second one. -/
def Apart (a : Word) (size : Nat) (b : Word) (other : Nat) : Prop :=
  ∀ x, (x - a).toNat < size → other ≤ (x - b).toNat

variable {m middle after : Memory} {a b w : Word} {size other : Nat}

/-- A word that has been written can be read back. -/
@[simp] theorem load_store : (m.store a w).load a = w := by
  -- Each of the eight bytes that are read is the one written at that distance.
  refine (joinBytes_congr fun k small => ?_).trans (joinBytes_extract w)
  simp only [store, toNat_add_sub (by omega : k < 2 ^ 64), small, if_true]

/-- A store changes nothing outside the word that it writes. -/
theorem within_store (m : Memory) (a w : Word) : m.Within (m.store a w) a 8 := by
  -- An address at least eight bytes behind the first one takes the other branch.
  intro b outside
  rw [store, if_neg (by omega)]

/-- Two changes within parts of a region are one change within it. -/
theorem Within.trans {c : Word} {whole : Nat} (first : m.Within middle a size)
    (second : middle.Within after b other)
    (left : ∀ x : Word, whole ≤ (x - c).toNat → size ≤ (x - a).toNat)
    (right : ∀ x : Word, whole ≤ (x - c).toNat → other ≤ (x - b).toNat) :
    m.Within after c whole := by
  -- An address outside the whole is outside each of the parts.
  intro x outside
  rw [second x (right x outside), first x (left x outside)]

/-- A change within one region leaves every region apart from it as before. -/
theorem Within.sameOn (within : m.Within after b other) (apart : Apart a size b other) :
    m.SameOn after a size :=
  fun x inside => within x (apart x inside)

/-- A part of an unchanged region is unchanged. -/
theorem SameOn.part (same : m.SameOn after a size) {skip count : Nat}
    (fits : skip + count ≤ size) : m.SameOn after (a + BitVec.ofNat 64 skip) count := by
  -- A byte of the part is within the size of the whole, skipped bytes included.
  intro x inside
  refine same x ?_
  by_cases behind : skip ≤ (x - a).toNat
  · rw [toNat_sub_add behind] at inside
    omega
  · omega

/-- A word that lies in an unchanged region is read as before. -/
theorem SameOn.load (same : m.SameOn after a size) (fits : 8 ≤ size) : after.load a = m.load a := by
  -- The eight bytes of the word are the first eight of the region.
  refine joinBytes_congr fun k small => same _ ?_
  rw [toNat_add_sub (by omega)]
  omega

/-- A store to another word does not show in this one. -/
theorem load_store_apart (apart : Apart a 8 b 8) : (m.store b w).load a = m.load a :=
  ((within_store m b w).sameOn apart).load (Nat.le_refl 8)

/-- Words in an unchanged region stay there. -/
theorem Holds.kept : ∀ {words : List Word} {a : Word}, m.Holds a words →
    m.SameOn after a (8 * words.length) → 8 * words.length ≤ 2 ^ 64 → after.Holds a words
  | [], _, _, _, _ => trivial
  | first :: rest, a, holds, same, small => by
    -- The first word fills the first eight bytes, and the others the part behind them.
    simp only [List.length_cons] at same small
    have behind : m.SameOn after (a + BitVec.ofNat 64 8) (8 * rest.length) := same.part (by omega)
    exact ⟨(same.load (by omega)).trans holds.1, holds.2.kept behind (by omega)⟩

/-- Words lie behind each other in two parts. -/
theorem holds_append : ∀ {first second : List Word} {a : Word}, m.Holds a (first ++ second) ↔
    m.Holds a first ∧ m.Holds (a + BitVec.ofNat 64 (8 * first.length)) second
  | [], second, a => by simp [Holds]
  | w :: rest, second, a => by
    -- The second part begins one word later than seen from the second word.
    have size : 8 * (rest.length + 1) = 8 + 8 * rest.length := by omega
    have place : a + 8 + BitVec.ofNat 64 (8 * rest.length) =
        a + BitVec.ofNat 64 (8 * (rest.length + 1)) := by
      rw [size, BitVec.ofNat_add, ← BitVec.add_assoc]
      rfl
    rw [List.cons_append, Holds, Holds, holds_append, place, and_assoc, List.length_cons]

/-- Pushing a word puts it before the words that lie there already. -/
theorem Holds.push {words : List Word} (holds : m.Holds a words)
    (small : 8 * words.length + 8 ≤ 2 ^ 64) (w : Word) :
    (m.store (a - 8) w).Holds (a - 8) (w :: words) := by
  have next : a - 8 + 8 = a := BitVec.sub_add_cancel a 8
  -- The new word has just been written; the others lie eight bytes behind it.
  refine ⟨load_store, ?_⟩
  rw [next]
  refine holds.kept ((within_store m (a - 8) w).sameOn fun x inside => ?_) (by omega)
  -- An address less than the whole region above the word is at least eight bytes away from it.
  bv_omega

/-- Write words downwards, the first of them right below the address. -/
def storeDown (m : Memory) (a : Word) : List Word → Memory
  | [] => m
  | w :: rest => (m.store (a - 8) w).storeDown (a - 8) rest

/-- Below an address one word further down lie the words behind the first one. -/
theorem below_succ (a : Word) (n : Nat) :
    a - 8 - BitVec.ofNat 64 (8 * n) = a - BitVec.ofNat 64 (8 * (n + 1)) := by
  -- Going down by one word and then by the others is going down once.
  have size : 8 * (n + 1) = 8 * n + 8 := by omega
  rw [size, BitVec.ofNat_add, BitVec.sub_sub, BitVec.add_comm]
  rfl

/-- Words written downwards lie on top of those that lay there before. -/
theorem Holds.storeDown : ∀ (words : List Word) {m : Memory} {a : Word} {above : List Word},
    m.Holds a above → 8 * (words.length + above.length) ≤ 2 ^ 64 →
    (m.storeDown a words).Holds (a - BitVec.ofNat 64 (8 * words.length)) (words.reverse ++ above)
  | [], _, _, _, holds, _ => by simpa [Memory.storeDown] using holds
  | w :: rest, m, a, above, holds, small => by
    -- The first word joins those that lie above the others.
    rw [List.length_cons] at small
    have pushed : (m.store (a - 8) w).Holds (a - 8) (w :: above) := holds.push (by omega) w
    have others := pushed.storeDown rest (by rw [List.length_cons]; omega)
    rw [below_succ] at others
    simpa [Memory.storeDown] using others

/-- Writing words downwards changes nothing but the region below the address. -/
theorem within_storeDown : ∀ (words : List Word) (m : Memory) (a : Word),
    8 * words.length < 2 ^ 64 →
    m.Within (m.storeDown a words) (a - BitVec.ofNat 64 (8 * words.length)) (8 * words.length)
  | [], _, _, _ => fun _ _ => rfl
  | w :: rest, m, a, small => by
    rw [List.length_cons] at small ⊢
    have others := within_storeDown rest (m.store (a - 8) w) (a - 8) (by omega)
    -- The first word is the last of the region, behind the others.
    have last : a - 8 = a - BitVec.ofNat 64 (8 * (rest.length + 1)) +
        BitVec.ofNat 64 (8 * rest.length) := by
      rw [← below_succ, BitVec.sub_add_cancel]
    have first : m.Within (m.store (a - 8) w) (a - BitVec.ofNat 64 (8 * (rest.length + 1)) +
        BitVec.ofNat 64 (8 * rest.length)) 8 := by
      rw [← last]
      exact within_store _ _ _
    -- Both writes stay in the region, the first at its upper end.
    rw [below_succ] at others
    refine first.trans others (fun x outside => ?_) fun x outside => by omega
    rw [toNat_sub_add (by omega)]
    omega

/-- Write words upwards, the first of them at the address itself. -/
def storeUp (m : Memory) (a : Word) : List Word → Memory
  | [] => m
  | w :: rest => (m.store a w).storeUp (a + 8) rest

/-- Writing words upwards changes nothing but the region from the address on. -/
theorem within_storeUp : ∀ (words : List Word) (m : Memory) (a : Word),
    8 * words.length < 2 ^ 64 → m.Within (m.storeUp a words) a (8 * words.length)
  | [], _, _, _ => fun _ _ => rfl
  | w :: rest, m, a, small => by
    rw [List.length_cons] at small ⊢
    have others := within_storeUp rest (m.store a w) (a + 8) (by omega)
    -- The first word is the first of the region, and the others lie behind it.
    refine (within_store m a w).trans others (fun x outside => by omega) fun x outside => ?_
    have behind : 8 ≤ (x - a).toNat := by omega
    have moved := toNat_sub_add (a := a) (b := x) behind
    show 8 * rest.length ≤ (x - (a + BitVec.ofNat 64 8)).toNat
    omega

/-- Words written upwards lie behind each other. -/
theorem holds_storeUp : ∀ (words : List Word) (m : Memory) (a : Word),
    8 * words.length < 2 ^ 64 → (m.storeUp a words).Holds a words
  | [], _, _, _ => trivial
  | w :: rest, m, a, small => by
    rw [List.length_cons] at small
    refine ⟨?_, holds_storeUp rest _ _ (by omega)⟩
    -- The others are written behind the first word, and do not come round to it.
    have within := within_storeUp rest (m.store a w) (a + 8) (by omega)
    have same : (m.store a w).SameOn ((m.store a w).storeUp (a + 8) rest) a 8 :=
      within.sameOn fun x inside => by
        have small' : 8 * rest.length + 8 < 2 ^ 64 := by omega
        bv_omega
    exact (same.load (Nat.le_refl 8)).trans load_store

/-- A region is unchanged exactly when each of its bytes is. -/
theorem sameOn_iff : m.SameOn after a size ↔
    ∀ k < size, after (a + BitVec.ofNat 64 k) = m (a + BitVec.ofNat 64 k) := by
  constructor
  · -- The number of a byte in the region is its distance from the start.
    intro same k inside
    refine same _ (Nat.lt_of_le_of_lt ?_ inside)
    rw [BitVec.add_comm, BitVec.add_sub_cancel, BitVec.toNat_ofNat]
    exact Nat.mod_le k _
  · -- An address of the region is the start plus its own distance.
    intro same x inside
    have place : a + BitVec.ofNat 64 (x - a).toNat = x := by
      rw [BitVec.ofNat_toNat, BitVec.setWidth_eq, BitVec.add_comm, BitVec.sub_add_cancel]
    rw [← place]
    exact same _ inside

instance : Decidable (m.SameOn after a size) := decidable_of_iff _ sameOn_iff.symm

end Memory

end SimpleSrv
