import SimpleSrv.Lib.Run
import SimpleSrv.Ef.Stack
import SimpleSrv.Ef.SwitchLaws

/-! The guard page below the stack of a fiber, over every sequence of page faults. -/

namespace SimpleSrv.Ef

/-- The routine in assembly returns the stack pointer that the layout counts on. -/
theorem efFiberInternalInit_rax (exitAddress : Word) (c : Amd64.Cpu) :
    (c.exec (Amd64.efFiberInternalInit exitAddress)).regs .rax =
      efFiberInternalInit (c.mem.load (c.regs .rdi + Amd64.fiberStackUpperOffset)) :=
  (Amd64.efFiberInternalInit_spec exitAddress c).2

/-- The stack lies as the layout in the header shows it. -/
structure LaidOut (page : PageSize) (s : Stack) : Prop where
  aligned : s.fiber.stackLower.toNat % page.bytes.toNat = 0
  /-- At least one page lies between the start of the area and the part that is mapped. -/
  guard : s.fiber.stackArea.toNat + page.bytes.toNat ≤ s.fiber.stackLower.toNat
  above : s.fiber.stackLower.toNat ≤ s.fiber.stackPtr.toNat
  below : s.fiber.stackPtr.toNat < s.fiber.stackUpper.toNat
  /-- Exactly the part from the lower boundary on may be used. -/
  mapped : ∀ a : Word, s.fiber.stackArea.toNat ≤ a.toNat →
    a.toNat < s.fiber.stackArea.toNat + s.fiber.stackSize.toNat →
    (s.access a = true ↔ s.fiber.stackLower.toNat ≤ a.toNat)

/-- An address in the reserved part, above the guard page. -/
def Stack.Expandable (page : PageSize) (s : Stack) (addr : Word) : Prop :=
  s.fiber.stackArea.toNat + page.bytes.toNat ≤ addr.toNat ∧
    addr.toNat < s.fiber.stackLower.toNat

/-- A call maps an address that may be mapped, or else it fails and changes nothing. -/
structure ExpandsRight (page : PageSize) (s : Stack) : Prop where
  grows : ∀ addr, s.Expandable page addr →
    (efFiberExpandStack page s addr true).1.access addr = true ∧
      0 ≤ (efFiberExpandStack page s addr true).2
  fails : ∀ addr mprotected, ¬ (s.Expandable page addr ∧ mprotected = true) →
    (efFiberExpandStack page s addr mprotected).1 = s ∧
      (efFiberExpandStack page s addr mprotected).2 < 0

/-- A call of `ef_fiber_expand_stack` with this address, and whether `mprotect` would succeed. -/
def expandStep (page : PageSize) (s : Stack) (call : Word × Bool) : Option Stack :=
  some (efFiberExpandStack page s call.1 call.2).1

/-- Any sequence of calls from a state on. -/
abbrev Expands (page : PageSize) (s : Stack) (calls : List (Word × Bool)) (after : Stack) : Prop :=
  Run (expandStep page) (fun _ _ => True) s calls after

/-- What every stack keeps, also one without a guard page. -/
structure StackInv (page : PageSize) (s : Stack) : Prop where
  areaAligned : s.fiber.stackArea.toNat % page.bytes.toNat = 0
  aligned : s.fiber.stackLower.toNat % page.bytes.toNat = 0
  area : s.fiber.stackArea.toNat ≤ s.fiber.stackLower.toNat
  above : s.fiber.stackLower.toNat ≤ s.fiber.stackPtr.toNat
  below : s.fiber.stackPtr.toNat < s.fiber.stackUpper.toNat
  inside : s.fiber.stackLower.toNat ≤ s.fiber.stackArea.toNat + s.fiber.stackSize.toNat
  low : s.fiber.stackArea.toNat + s.fiber.stackSize.toNat ≤ 2 ^ 63
  mapped : ∀ a : Word, s.fiber.stackArea.toNat ≤ a.toNat →
    a.toNat < s.fiber.stackArea.toNat + s.fiber.stackSize.toNat →
    (s.access a = true ↔ s.fiber.stackLower.toNat ≤ a.toNat)

variable {page : PageSize} {s t : Stack}

/-- A region in the lower half of the address space does not wrap around. -/
theorem toNat_sub_lt_iff (a : Word) {start : Word} {size : Nat}
    (low : start.toNat + size ≤ 2 ^ 63) :
    (a - start).toNat < size ↔ start.toNat ≤ a.toNat ∧ a.toNat < start.toNat + size := by
  -- An address below the start is more than half the address space away from it.
  have bound := a.isLt
  rw [BitVec.toNat_sub]
  omega

/-- The condition of an expansion says that the address lies in the reserved part. -/
theorem expandable_iff (inv : StackInv page s) (addr : Word) :
    (page.bytes.toInt ≤ (alignDown page addr - s.fiber.stackArea).toInt ∧
      (alignDown page addr).toNat < s.fiber.stackLower.toNat) ↔ s.Expandable page addr := by
  -- Both limits start a page, so the address and the start of its page are on the same side.
  have first : (s.fiber.stackArea.toNat + page.bytes.toNat) % page.bytes.toNat = 0 := by
    rw [Nat.add_mod_right]
    exact inv.areaAligned
  have guard := le_alignDown_iff first addr
  have lower := le_alignDown_iff inv.aligned addr
  have area := inv.area
  have inside := inv.inside
  have low := inv.low
  have small := page.lt_half
  have bound := (alignDown page addr).isLt
  unfold Stack.Expandable
  rw [BitVec.toInt_eq_toNat_of_lt (by omega), BitVec.toInt_eq_toNat_cond, BitVec.toNat_sub]
  omega

/-- The stack after its lower boundary has been moved down. -/
def Stack.expanded (page : PageSize) (s : Stack) (addr : Word) : Stack where
  fiber := { s.fiber with stackLower := alignDown page addr }
  access :=
    setAccess s.access (alignDown page addr) (s.fiber.stackLower - alignDown page addr) true

/-- A call either moves the boundary down or fails. -/
theorem efFiberExpandStack_eq (inv : StackInv page s) (addr : Word) (mprotected : Bool)
    [Decidable (s.Expandable page addr ∧ mprotected = true)] :
    efFiberExpandStack page s addr mprotected =
      if s.Expandable page addr ∧ mprotected = true then (s.expanded page addr, 0)
      else (s, -1) := by
  -- The condition of the call speaks of the page, the other one of the address itself.
  have condition := expandable_iff inv addr
  unfold efFiberExpandStack
  by_cases expandable : s.Expandable page addr
  · -- Only the answer of the kernel is left to decide.
    rw [if_pos (condition.mpr expandable)]
    cases mprotected with
    | true => simp [expandable, Stack.expanded]
    | false => simp
  · rw [if_neg (mt condition.mp expandable), if_neg fun both => expandable both.1]

/-- A stack in order whose lowest page is not mapped. -/
structure Guarded (page : PageSize) (s : Stack) : Prop extends StackInv page s where
  guard : s.fiber.stackArea.toNat + page.bytes.toNat ≤ s.fiber.stackLower.toNat

namespace StackInv

/-- A byte of the area may be used after an expansion exactly from the new boundary on. -/
theorem expanded (inv : StackInv page s) {addr : Word} (expandable : s.Expandable page addr) :
    StackInv page (s.expanded page addr) := by
  -- The page of the address is not below the area and starts below the old boundary.
  obtain ⟨reserved, under⟩ := expandable
  have area := inv.area
  have above := inv.above
  have inside := inv.inside
  have low := inv.low
  have lower := le_alignDown_iff inv.aligned addr
  have start := le_alignDown_iff inv.areaAligned addr
  -- The difference of the two boundaries does not wrap around.
  have size : (s.fiber.stackLower - alignDown page addr).toNat =
      s.fiber.stackLower.toNat - (alignDown page addr).toNat := by
    rw [BitVec.toNat_sub_of_le]
    rw [BitVec.le_def]
    omega
  refine ⟨inv.areaAligned, alignDown_aligned addr, ?_, ?_, inv.below, ?_, low, ?_⟩
  · simp only [Stack.expanded]
    omega
  · simp only [Stack.expanded]
    omega
  · simp only [Stack.expanded]
    omega
  · intro a first last
    -- A byte was usable before, or it is one of those that the call has mapped.
    have before := inv.mapped a first last
    have fits : (alignDown page addr).toNat + (s.fiber.stackLower - alignDown page addr).toNat ≤
        2 ^ 63 := by omega
    have grown := toNat_sub_lt_iff a fits
    simp only [Stack.expanded, setAccess]
    split
    · rename_i new
      have new := grown.mp new
      simp only [true_iff]
      omega
    · rename_i old
      rw [grown] at old
      rw [before]
      omega

/-- Every call keeps the stack in order. -/
theorem step (inv : StackInv page s) {call : Word × Bool}
    (stepped : expandStep page s call = some t) : StackInv page t := by
  -- What a call does is one of the two cases of its equation.
  classical
  obtain rfl := Option.some.inj stepped
  rw [efFiberExpandStack_eq inv]
  split
  · rename_i moves
    exact inv.expanded moves.1
  · exact inv

end StackInv

/-- A size that does not round to nothing is rounded up to whole pages. -/
theorem roundUp_spec {size : Word} (filled : 0 < size.toNat)
    (nonempty : 0 < (roundUp page size).toNat) :
    (roundUp page size).toNat % page.bytes.toNat = 0 ∧
      page.bytes.toNat ≤ (roundUp page size).toNat ∧
      (2 * page.bytes.toNat ≤ (roundUp page size).toNat ↔ page.bytes.toNat < size.toNat) := by
  -- Rounding down tells for each multiple of the page whether the sum has reached it.
  have aligned := @alignDown_aligned page (size + page.bytes - 1)
  have one := le_alignDown_iff (Nat.mod_self page.bytes.toNat) (size + page.bytes - 1)
  have two := le_alignDown_iff (Nat.mul_mod_left 2 page.bytes.toNat) (size + page.bytes - 1)
  have pos := page.pos
  have small := page.lt_half
  have bound := size.isLt
  have whole : page.bytes.toNat ≤ (roundUp page size).toNat :=
    Nat.le_of_dvd nonempty (Nat.dvd_of_mod_eq_zero aligned)
  -- A sum that wraps around would be less than one page, and round to nothing.
  have sum : (size + page.bytes - 1).toNat = size.toNat + page.bytes.toNat - 1 := by
    have reached := one.mp whole
    have unit : (1 : Word).toNat = 1 := rfl
    rw [BitVec.toNat_sub, BitVec.toNat_add, unit] at reached ⊢
    omega
  rw [sum] at two
  refine ⟨aligned, whole, ?_⟩
  unfold roundUp
  omega

/-- Where the parts of a new stack lie. -/
structure Layout (page : PageSize) (s : Stack) (headerSize : Word) : Prop where
  start : s.fiber.stackArea.toNat % page.bytes.toNat = 0
  whole : s.fiber.stackSize.toNat % page.bytes.toNat = 0
  page_le : page.bytes.toNat ≤ s.fiber.stackSize.toNat
  low : s.fiber.stackArea.toNat + s.fiber.stackSize.toNat ≤ 2 ^ 63
  lower : s.fiber.stackLower.toNat + page.bytes.toNat =
    s.fiber.stackArea.toNat + s.fiber.stackSize.toNat
  upper : s.fiber.stackUpper.toNat + headerSize.toNat =
    s.fiber.stackArea.toNat + s.fiber.stackSize.toNat
  pointer : s.fiber.stackPtr.toNat + 128 = s.fiber.stackUpper.toNat

section

variable {mmap : (size : Word) → Option (Area page size)} {mprotected : Bool}
  {access : Word → Bool} {stackSize headerSize : Word}

/-- A fiber that has been created has its header at the end of its area, and its frame below. -/
theorem efFiberCreate_layout
    (created : efFiberCreate page mmap mprotected access stackSize headerSize = some s)
    (room : headerSize.toNat + 128 ≤ page.bytes.toNat) : Layout page s headerSize := by
  -- A fiber exists only if both system calls have succeeded.
  obtain ⟨area, _, created⟩ := Option.bind_eq_some_iff.mp created
  obtain ⟨_, created⟩ := Option.ite_none_right_eq_some.mp created
  obtain rfl := Option.some.inj created
  have whole := @alignDown_aligned page
    ((if stackSize = 0 then page.bytes else stackSize) + page.bytes - 1)
  have low := area.low
  have page_le := Nat.le_of_dvd area.nonempty (Nat.dvd_of_mod_eq_zero whole)
  change _ ≤ (roundUp page (if stackSize = 0 then page.bytes else stackSize)).toNat at page_le
  change (roundUp page (if stackSize = 0 then page.bytes else stackSize)).toNat % _ = 0 at whole
  generalize roundUp page (if stackSize = 0 then page.bytes else stackSize) = size at *
  have small := page.lt_half
  -- The area lies in the lower half of the address space, so none of these sums wraps around.
  have end_ : (area.start + size).toNat = area.start.toNat + size.toNat := by
    rw [BitVec.toNat_add]
    omega
  have lower : (area.start + size - page.bytes).toNat =
      area.start.toNat + size.toNat - page.bytes.toNat := by
    rw [BitVec.toNat_sub, end_]
    omega
  have upper : (area.start + size - headerSize).toNat =
      area.start.toNat + size.toNat - headerSize.toNat := by
    rw [BitVec.toNat_sub, end_]
    omega
  have pointer : (efFiberInternalInit (area.start + size - headerSize)).toNat =
      area.start.toNat + size.toNat - headerSize.toNat - 128 := by
    have words : (128 : Word).toNat = 128 := rfl
    rw [efFiberInternalInit, BitVec.toNat_sub, upper, words]
    omega
  refine ⟨area.aligned, whole, page_le, low, ?_, ?_, ?_⟩
  · simp only [lower]
    omega
  · simp only [upper]
    omega
  · simp only [pointer, upper]
    omega

/-- Exactly the last page of the area may be used, and outside of it everything is as before. -/
theorem efFiberCreate_access
    (created : efFiberCreate page mmap mprotected access stackSize headerSize = some s)
    (room : headerSize.toNat + 128 ≤ page.bytes.toNat) (a : Word) :
    s.access a = if s.fiber.stackArea.toNat ≤ a.toNat ∧
        a.toNat < s.fiber.stackArea.toNat + s.fiber.stackSize.toNat then
      decide (s.fiber.stackLower.toNat ≤ a.toNat) else access a := by
  have layout := efFiberCreate_layout created room
  -- The area is reserved as a whole, and then its last page is mapped.
  have granted : s.access = setAccess (setAccess access s.fiber.stackArea s.fiber.stackSize false)
      s.fiber.stackLower page.bytes true := by
    obtain ⟨area, _, created⟩ := Option.bind_eq_some_iff.mp created
    obtain ⟨_, created⟩ := Option.ite_none_right_eq_some.mp created
    rw [← Option.some.inj created]
  have lower := layout.lower
  have low := layout.low
  have page_le := layout.page_le
  have reserved := toNat_sub_lt_iff a low
  have top := toNat_sub_lt_iff a (Nat.le_trans (Nat.le_of_eq lower) low)
  simp only [granted, setAccess, reserved, top]
  by_cases last : s.fiber.stackLower.toNat ≤ a.toNat ∧
      a.toNat < s.fiber.stackLower.toNat + page.bytes.toNat
  · rw [if_pos last, if_pos (by omega)]
    exact (decide_eq_true last.1).symm
  · rw [if_neg last]
    by_cases inside : s.fiber.stackArea.toNat ≤ a.toNat ∧
        a.toNat < s.fiber.stackArea.toNat + s.fiber.stackSize.toNat
    · rw [if_pos inside, if_pos inside]
      exact (decide_eq_false (by omega)).symm
    · rw [if_neg inside, if_neg inside]

/-- A fiber that has been created has a stack in order, with a guard page if it is long enough. -/
theorem efFiberCreate_spec
    (created : efFiberCreate page mmap mprotected access stackSize headerSize = some s)
    (room : headerSize.toNat + 128 ≤ page.bytes.toNat) :
    StackInv page s ∧ (s.fiber.stackArea.toNat + page.bytes.toNat ≤ s.fiber.stackLower.toNat ↔
      page.bytes.toNat < stackSize.toNat) := by
  obtain ⟨start, whole, page_le, low, lower, upper, pointer⟩ := efFiberCreate_layout created room
  have usable := efFiberCreate_access created room
  refine ⟨⟨start, ?_, by omega, by omega, by omega, by omega, low, ?_⟩, ?_⟩
  · -- The boundary is one page below the end, and both ends start a page.
    have sum : (s.fiber.stackLower.toNat + page.bytes.toNat) % page.bytes.toNat = 0 := by
      rw [lower, Nat.add_mod, start, whole]
      rfl
    rwa [Nat.add_mod_right] at sum
  · intro a first last
    rw [usable a, if_pos ⟨first, last⟩, decide_eq_true_iff]
  · -- The default size is one page, which is not more than one page.
    obtain ⟨area, _, created⟩ := Option.bind_eq_some_iff.mp created
    obtain ⟨_, created⟩ := Option.ite_none_right_eq_some.mp created
    have sized : s.fiber.stackSize =
        roundUp page (if stackSize = 0 then page.bytes else stackSize) := by
      rw [← Option.some.inj created]
    have default : (if stackSize = 0 then page.bytes else stackSize).toNat =
        if stackSize.toNat = 0 then page.bytes.toNat else stackSize.toNat := by
      by_cases zero : stackSize = 0
      · simp [zero]
      · have apart : stackSize.toNat ≠ 0 := fun equal => zero (BitVec.eq_of_toNat_eq equal)
        rw [if_neg zero, if_neg apart]
    have pos := page.pos
    have filled : 0 < (if stackSize = 0 then page.bytes else stackSize).toNat := by
      rw [default]
      split <;> omega
    obtain ⟨_, _, pages⟩ := roundUp_spec filled area.nonempty
    have longer : page.bytes.toNat < (if stackSize = 0 then page.bytes else stackSize).toNat ↔
        page.bytes.toNat < stackSize.toNat := by
      rw [default]
      split <;> omega
    rw [longer, ← sized] at pages
    omega

end

/-- Whatever the stack is, a call does what it should. -/
theorem StackInv.expandsRight (inv : StackInv page s) : ExpandsRight page s := by
  classical
  constructor
  · intro addr expandable
    -- The address lies between the new boundary and the old one.
    have after := inv.expanded expandable
    have rounded := @toNat_alignDown page addr
    have inside := inv.inside
    have area := inv.area
    obtain ⟨reserved, under⟩ := expandable
    rw [efFiberExpandStack_eq inv, if_pos ⟨⟨reserved, under⟩, rfl⟩]
    refine ⟨(after.mapped addr ?_ ?_).mpr ?_, Int.le_refl 0⟩
    · simp only [Stack.expanded]
      omega
    · simp only [Stack.expanded]
      omega
    · simp only [Stack.expanded]
      omega
  · intro addr mprotected refused
    -- A refused call returns before it writes anything.
    rw [efFiberExpandStack_eq inv, if_neg refused]
    exact ⟨rfl, Int.negSucc_lt_zero 0⟩

namespace Guarded

/-- Such a stack is laid out as the header shows it. -/
theorem laidOut (inv : Guarded page s) : LaidOut page s :=
  ⟨inv.aligned, inv.guard, inv.above, inv.below, inv.mapped⟩

/-- No call moves the boundary into the lowest page. -/
theorem step (inv : Guarded page s) {call : Word × Bool}
    (stepped : expandStep page s call = some t) : Guarded page t := by
  -- The order of the stack is kept by any call, so only the guard page is left to look at.
  classical
  refine ⟨inv.toStackInv.step stepped, ?_⟩
  obtain rfl := Option.some.inj stepped
  rw [efFiberExpandStack_eq inv.toStackInv]
  split
  · rename_i moves
    -- The first page above the guard starts at a page, so rounding down does not pass it.
    have first : (s.fiber.stackArea.toNat + page.bytes.toNat) % page.bytes.toNat = 0 := by
      rw [Nat.add_mod_right]
      exact inv.areaAligned
    exact (le_alignDown_iff first call.1).mpr moves.1.1
  · exact inv.guard

end Guarded

/--
The stack of a created fiber is laid out as the header shows it, after any calls that expand it.

Each call maps the page of an address in the reserved part, or fails and changes nothing.
All of this holds if and only if more than one page was asked for.
-/
theorem guard_page_iff {mmap : (size : Word) → Option (Area page size)} {mprotected : Bool}
    {access : Word → Bool} {stackSize headerSize : Word}
    (created : efFiberCreate page mmap mprotected access stackSize headerSize = some s)
    (room : headerSize.toNat + 128 ≤ page.bytes.toNat) :
    (∀ calls after, Expands page s calls after → LaidOut page after ∧ ExpandsRight page after) ↔
      page.bytes.toNat < stackSize.toNat := by
  -- The invariant holds at once, while the guard page depends on the size.
  obtain ⟨inv, long⟩ := efFiberCreate_spec created room
  constructor
  · -- Without a call the layout speaks of the size alone.
    intro always
    exact long.mp (always [] s (.start s)).1.guard
  · intro enough calls after run
    -- With the guard page in place, the run keeps it.
    have start : Guarded page s := ⟨inv, long.mpr enough⟩
    have kept : Guarded page after :=
      run.invariant start fun _ _ _ kept _ stepped => kept.step stepped
    exact ⟨kept.laidOut, kept.toStackInv.expandsRight⟩

/-- Pages of 4096 bytes. -/
def smallPage : PageSize where
  bytes := 4096
  order := 12
  power := rfl
  small := by decide

/-- An `mmap` that always answers with the same place, as long as the area fits there. -/
def mmapAt (size : Word) : Option (Area smallPage size) :=
  if fits : 0 < size.toNat ∧ 0x10000 + size.toNat ≤ 2 ^ 63 then
    some ⟨0x10000, fits.1, by decide, fits.2⟩
  else none

/-- Two pages were asked for, and one of them is the guard. -/
theorem guard_page_two_pages :
    ∃ s, efFiberCreate smallPage mmapAt true (fun _ => false) 8192 64 = some s ∧
      ((∀ calls after, Expands smallPage s calls after →
        LaidOut smallPage after ∧ ExpandsRight smallPage after) ↔
          smallPage.bytes.toNat < (8192 : Word).toNat) := by
  -- The fiber is computed, and the header fits into its page.
  have room : (64 : Word).toNat + 128 ≤ smallPage.bytes.toNat := by decide
  obtain ⟨s, created⟩ :
      ∃ s, efFiberCreate smallPage mmapAt true (fun _ => false) 8192 64 = some s := ⟨_, rfl⟩
  exact ⟨s, created, guard_page_iff created room⟩

/-- The default stack has one page, which is in use as a whole: there is no guard below it. -/
theorem default_stack_unguarded :
    ∃ s, efFiberCreate smallPage mmapAt true (fun _ => false) 0 64 = some s ∧
      s.access s.fiber.stackArea = true ∧ ¬ LaidOut smallPage s := by
  refine ⟨_, rfl, by decide, fun laid => ?_⟩
  exact absurd laid.guard (by decide)

end SimpleSrv.Ef
