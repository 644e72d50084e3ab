import SimpleSrv.Ef.FiberCalls
import SimpleSrv.Ef.StackLaws

/-! The stack pointer with which a new fiber enters its `fiber_proc`. -/

namespace SimpleSrv.Ef

namespace FiberStack

open Amd64 (Field)

/-- The fields that `ef_fiber_create` writes into the record at the end of the stack. -/
def record (s : FiberStack) (mem : Memory) (rt : Word) : Memory :=
  let fiber := s.stackUpper
  let mem := mem.store (fiber + Field.stackSize.offset) s.stackSize
  let mem := mem.store (fiber + Field.stackArea.offset) s.stackArea
  let mem := mem.store (fiber + Field.stackUpper.offset) s.stackUpper
  let mem := mem.store (fiber + Field.stackLower.offset) s.stackLower
  mem.store (fiber + Field.sched.offset) rt

/-- The record says where the stack ends. -/
theorem record_stackUpper (s : FiberStack) (mem : Memory) (rt : Word) :
    (s.record mem rt).load (s.stackUpper + Amd64.fiberStackUpperOffset) = s.stackUpper := by
  -- The routines in assembly use the offset of the field, and two stores to other fields follow.
  rw [Amd64.offsets_agree.1]
  have lower : Memory.Apart (s.stackUpper + Field.stackUpper.offset) 8
      (s.stackUpper + Field.stackLower.offset) 8 := by
    intro x inside
    simp only [Field.offset] at inside ⊢
    bv_omega
  have sched : Memory.Apart (s.stackUpper + Field.stackUpper.offset) 8
      (s.stackUpper + Field.sched.offset) 8 := by
    intro x inside
    simp only [Field.offset] at inside ⊢
    bv_omega
  rw [record, Memory.load_store_apart sched, Memory.load_store_apart lower, Memory.load_store]

end FiberStack

namespace Amd64.World

variable (exitAddress : Word)

/-- `ef_fiber_create`, from the fields that it writes into the stack it has reserved. -/
def efFiberCreate (w : World) (s : FiberStack) (rt ret proc param : Word) : Option World :=
  (w.goOn exitAddress { w.cpu with mem := s.record w.cpu.mem rt }).efFiberInit exitAddress ret
    s.stackUpper proc param

variable {exitAddress} {w v u x : World} {ret rt proc param fiber target sndval : Word}

/-- Creating a fiber is a run. -/
theorem efFiberCreate_runs {s : FiberStack}
    (built : w.efFiberCreate exitAddress s rt ret proc param = some v) :
    ∃ moves, Runs exitAddress w moves v := by
  -- The fields are written by other code, and then the fiber is set up.
  obtain ⟨moves, inited⟩ := efFiberInit_runs built
  exact ⟨_, Run.trans (.next (.start w) trivial rfl : Runs exitAddress w [.other _] _) inited⟩

/-- A fiber that has been set up has its first frame at the stack pointer in its record. -/
theorem efFiberInit_pointer
    (stack : Memory.Apart (fiber + fiberStackUpperOffset) 8 (w.cpu.regs .rsp - 8) 8)
    (built : w.efFiberInit exitAddress ret fiber proc param = some v) :
    v.cpu.mem.load (fiber + fiberStackPtrOffset) =
      w.cpu.mem.load (fiber + fiberStackUpperOffset) - 128 := by
  simp only [efFiberInit] at built
  obtain ⟨inited, stepped, same⟩ := Option.map_eq_some_iff.mp built
  rw [← same]
  -- The routine returns the pointer, which is then stored.
  show (inited.cpu.mem.store _ _).load _ = _
  rw [Memory.load_store]
  have made := Option.some.inj stepped
  obtain ⟨called, here⟩ : ∃ called, (w.toCall exitAddress w.cpu.mem fiber proc
      (if param ≠ 0 then param else fiber)).cpu.push ret = called := ⟨_, rfl⟩
  have rdi : called.regs .rdi = fiber := by
    simp [← here, toCall, goOn, Cpu.push, Cpu.set_regs]
  -- The return address of the call lies outside of the record.
  have recorded :
      called.mem.load (fiber + 16) = w.cpu.mem.load (fiber + fiberStackUpperOffset) := by
    have pushed : called.mem = w.cpu.mem.store (w.cpu.regs .rsp - 8) ret := by
      simp [← here, toCall, goOn, Cpu.push, Cpu.set_regs]
    rw [pushed]
    exact Memory.load_store_apart stack
  obtain ⟨_, returned⟩ := Amd64.efFiberInternalInit_spec exitAddress called
  rw [rdi, recorded] at returned
  rw [← made]
  show (((w.toCall exitAddress w.cpu.mem fiber proc
    (if param ≠ 0 then param else fiber)).cpu.push ret).exec
      (efFiberInternalInit exitAddress)).regs .rax = _
  rw [here, returned]

/-- The record of a created fiber points to its first frame. -/
theorem efFiberCreate_pointer {s : FiberStack}
    (stack : Memory.Apart (s.stackUpper + fiberStackUpperOffset) 8 (w.cpu.regs .rsp - 8) 8)
    (built : w.efFiberCreate exitAddress s rt ret proc param = some v) :
    v.cpu.mem.load (s.stackUpper + fiberStackPtrOffset) = s.stackUpper - 128 := by
  -- The record is written first, and the frame is set up from it.
  obtain ⟨recorded, here⟩ : ∃ recorded,
      w.goOn exitAddress { w.cpu with mem := s.record w.cpu.mem rt } = recorded := ⟨_, rfl⟩
  have inited : recorded.efFiberInit exitAddress ret s.stackUpper proc param = some v := by
    rw [← here]
    exact built
  have pointer : recorded.cpu.regs .rsp = w.cpu.regs .rsp := by
    rw [← here]
    rfl
  have mem : recorded.cpu.mem = s.record w.cpu.mem rt := by
    rw [← here]
    rfl
  rw [← pointer] at stack
  rw [efFiberInit_pointer stack inited, mem, FiberStack.record_stackUpper]

/-- A resume takes the stack pointer out of the record of its target. -/
theorem resumeCall_rdi (apart : Memory.Apart (target + fiberStackPtrOffset) 8
      (rt + schedCurrentFiberOffset) 8) :
    (u.resumeCall exitAddress rt target sndval).cpu.regs .rdi =
      u.cpu.mem.load (target + fiberStackPtrOffset) := by
  -- The parent is stored into another field before the pointer is read.
  have parent : Memory.Apart (target + fiberStackPtrOffset) 8 (target + fiberParentOffset) 8 := by
    intro x inside
    simp only [fiberStackPtrOffset, fiberParentOffset] at inside ⊢
    bv_omega
  have read : (u.resumeCall exitAddress rt target sndval).cpu.regs .rdi =
      ((u.cpu.mem.store (target + fiberParentOffset)
        (u.cpu.mem.load (rt + schedCurrentFiberOffset))).store
          (rt + schedCurrentFiberOffset) target).load (target + fiberStackPtrOffset) := by
    simp [resumeCall, toCall, goOn, Cpu.set_regs]
  rw [read, Memory.load_store_apart apart, Memory.load_store_apart parent]

/-- The first resume of a fiber enters its `fiber_proc` below the two words at the stack's end. -/
theorem efFiberResume_enters (inv : WorldInv exitAddress u) {upper : Word}
    (pointer : u.cpu.mem.load (target + fiberStackPtrOffset) = upper - 128)
    (apart : Memory.Apart (target + fiberStackPtrOffset) 8 (rt + schedCurrentFiberOffset) 8)
    (resumed : u.efFiberResume exitAddress ret rt target sndval = .ok (some x))
    (waits : Context.entry target upper proc param ∈ x.contexts) :
    x.cpu.rip = proc ∧ x.cpu.regs .rsp = upper - 16 := by
  -- The swap goes to the frame that the record points to.
  have stepped := (efFiberResume_ok resumed).2
  have called : WorldInv exitAddress (u.resumeCall exitAddress rt target sndval) := goOn_inv inv _
  have landed := swap_lands called stepped waits ((resumeCall_rdi apart).trans pointer)
  exact ⟨landed.1, landed.2.2.1⟩

/--
A new fiber enters its `fiber_proc` as the calling convention wants it for every second word.

Any moves may come before the creation and between it and the first resume.
They leave the frame of the fiber and the stack pointer in its record as they are.
-/
theorem entry_aligned_iff {page : PageSize} (whole : page.bytes.toNat % 16 = 0)
    {mmap : (size : Word) → Option (Area page size)} {mprotected : Bool} {access : Word → Bool}
    {stackSize headerSize : Word} {s : Stack}
    (created : Ef.efFiberCreate page mmap mprotected access stackSize headerSize = some s)
    (room : headerSize.toNat + 128 ≤ page.bytes.toNat)
    {exitAddress : Word} {cpu : Cpu} {before between : List Move} {w v u x : World}
    (run : Runs exitAddress (start cpu) before w) {ret ret' rt rt' proc param sndval : Word}
    (stack : Memory.Apart (s.fiber.stackUpper + fiberStackUpperOffset) 8 (w.cpu.regs .rsp - 8) 8)
    (built : w.efFiberCreate exitAddress s.fiber rt ret proc param = some v)
    (later : Runs exitAddress v between u)
    (kept : u.cpu.mem.load (s.fiber.stackUpper + fiberStackPtrOffset) =
      v.cpu.mem.load (s.fiber.stackUpper + fiberStackPtrOffset))
    (apart : Memory.Apart (s.fiber.stackUpper + fiberStackPtrOffset) 8
      (rt' + schedCurrentFiberOffset) 8)
    (resumed : u.efFiberResume exitAddress ret' rt' s.fiber.stackUpper sndval = .ok (some x))
    (waits : Context.entry s.fiber.stackUpper s.fiber.stackUpper proc
      (if param ≠ 0 then param else s.fiber.stackUpper) ∈ x.contexts) :
    x.cpu.rip = proc ∧
      ((x.cpu.regs .rsp).toNat % 16 = 8 ↔ headerSize.toNat % 16 = 8) := by
  -- The record holds the pointer to the first frame from the creation up to the resume.
  have recorded := efFiberCreate_pointer stack built
  obtain ⟨_, building⟩ := efFiberCreate_runs built
  have inv : WorldInv exitAddress u := runs_inv ((run.trans building).trans later)
  obtain ⟨entered, pointer⟩ := efFiberResume_enters inv (kept.trans recorded) apart resumed waits
  refine ⟨entered, ?_⟩
  -- The area and its size are multiples of 16, so only the header counts.
  have layout := efFiberCreate_layout created room
  have sixteen : ∀ n : Nat, n % page.bytes.toNat = 0 → n % 16 = 0 := fun n pages =>
    Nat.mod_eq_zero_of_dvd
      (Nat.dvd_trans (Nat.dvd_of_mod_eq_zero whole) (Nat.dvd_of_mod_eq_zero pages))
  have first := sixteen _ layout.start
  have length := sixteen _ layout.whole
  have upper := layout.upper
  have frame := layout.pointer
  have words : (16 : Word).toNat = 16 := rfl
  rw [pointer, BitVec.toNat_sub, words]
  omega

/-- A processor whose stack is far away from the area that `mmapAt` returns. -/
def creating : Cpu where
  regs
    | .rsp => 0x80000
    | _ => 0
  flags := 0x202
  rip := 0x500000
  mem := fun _ => 0

/-- What has been created with a header of this size, and then resumed for the first time. -/
def firstEntry (headerSize : Word) : Option World :=
  (Ef.efFiberCreate smallPage mmapAt true (fun _ => false) 4096 headerSize).bind fun s =>
    ((start creating).efFiberCreate 0x401000 s.fiber 0x20000 0x500010 0x400000 0x777).bind fun v =>
      match v.efFiberResume 0x401000 0x500020 0x20000 s.fiber.stackUpper 5 with
      | .ok entered => entered
      | .error _ => none

/-- The stack of a fiber whose header is an `ef_routine_t` of 152 bytes. -/
def routineStack : Stack where
  fiber :=
    { stackSize := 0x1000
      stackArea := 0x10000
      stackUpper := 0x10f68
      stackLower := 0x10000
      stackPtr := 0x10ee8 }
  access := setAccess (setAccess (fun _ => false) 0x10000 0x1000 false) 0x10000 0x1000 true

/-- The world in which that fiber has been created. -/
def routineBuilt : World :=
  ((start creating).efFiberCreate 0x401000 routineStack.fiber 0x20000 0x500010 0x400000
    0x777).getD (start creating)

/-- The world in which it has been resumed. -/
def routineEntered : World :=
  ((routineBuilt.resumeCall 0x401000 0x20000 routineStack.fiber.stackUpper 5).step 0x401000
    (.swap 0x500020)).getD routineBuilt

/-- An `ef_routine_t` leaves the stack as the calling convention wants it. -/
theorem entry_aligned_routine : routineEntered.cpu.rip = 0x400000 ∧
    ((routineEntered.cpu.regs .rsp).toNat % 16 = 8 ↔ (152 : Word).toNat % 16 = 8) := by
  -- The stack is built by the creation, and no other access comes near it.
  have created : Ef.efFiberCreate smallPage mmapAt true (fun _ => false) 4096 152 =
      some routineStack := rfl
  have stack : Memory.Apart (routineStack.fiber.stackUpper + fiberStackUpperOffset) 8
      ((start creating).cpu.regs .rsp - 8) 8 := by
    intro x inside
    simp only [routineStack, fiberStackUpperOffset, start, creating] at inside ⊢
    bv_omega
  have apart : Memory.Apart (routineStack.fiber.stackUpper + fiberStackPtrOffset) 8
      (0x20000 + schedCurrentFiberOffset) 8 := by
    intro x inside
    simp only [routineStack, fiberStackPtrOffset, schedCurrentFiberOffset] at inside ⊢
    bv_omega
  have built : (start creating).efFiberCreate 0x401000 routineStack.fiber 0x20000 0x500010
      0x400000 0x777 = some routineBuilt := rfl
  have resumed : routineBuilt.efFiberResume 0x401000 0x500020 0x20000
      routineStack.fiber.stackUpper 5 = .ok (some routineEntered) := rfl
  -- Nothing is written near the frame between the creation and the resume.
  have waits : Context.entry routineStack.fiber.stackUpper routineStack.fiber.stackUpper 0x400000
      0x777 ∈ routineEntered.contexts := by
    refine mem_restore.mpr (mem_goOn.mpr ⟨List.mem_append_left _ (mem_goOn.mpr ⟨mem_goOn.mpr
      ⟨mem_goOn.mpr ⟨List.mem_append_right _ (List.mem_singleton.mpr rfl), ?_⟩, ?_⟩, ?_⟩), ?_⟩)
    all_goals decide +kernel
  exact entry_aligned_iff (by decide) created (by decide) (.start _) stack built (.start _) rfl
    apart resumed waits

/-- With a bare `ef_fiber_t` of 64 bytes for a header, the stack starts at a multiple of 16. -/
theorem entry_misaligned : ∃ x, firstEntry 64 = some x ∧ x.cpu.rip = 0x400000 ∧
    (x.cpu.regs .rsp).toNat % 16 ≠ 8 := by
  refine ⟨_, rfl, ?_, ?_⟩
  · decide +kernel
  · decide +kernel

end Amd64.World

end SimpleSrv.Ef
