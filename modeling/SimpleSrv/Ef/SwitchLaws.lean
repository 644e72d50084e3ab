import SimpleSrv.Ef.Amd64

/-! What the routines save, restore and set up, and what they leave alone. -/

namespace SimpleSrv.Ef.Amd64

namespace Cpu

/-- A write to a register leaves the memory alone. -/
@[simp] theorem set_mem (c : Cpu) (reg : Reg) (w : Word) : (c.set reg w).mem = c.mem := rfl

/-- A write shows exactly in its own register. -/
theorem set_regs (c : Cpu) (reg other : Reg) (w : Word) :
    (c.set reg w).regs other = if other = reg then w else c.regs other := by
  -- The registers are updated in one place.
  simp only [set, Function.update_apply]

/-- A routine may be executed in two parts. -/
theorem exec_append (c : Cpu) (first second : List Instr) :
    c.exec (first ++ second) = (c.exec first).exec second :=
  List.foldl_append

/-- The first instruction of a routine is executed first. -/
theorem exec_cons (c : Cpu) (first : Instr) (rest : List Instr) :
    c.exec (first :: rest) = (c.step first).exec rest := rfl

/-- Push words, the first of them first. -/
def pushAll (c : Cpu) (words : List Word) : Cpu := words.foldl Cpu.push c

/-- Words may be pushed in two parts. -/
theorem pushAll_append (c : Cpu) (first second : List Word) :
    c.pushAll (first ++ second) = (c.pushAll first).pushAll second :=
  List.foldl_append

/-- Registers other than the stack pointer may be read before any of them is pushed. -/
theorem exec_pushes {regs : List Reg} (away : .rsp ∉ regs) (c : Cpu) :
    c.exec (regs.map .push) = c.pushAll (regs.map c.regs) := by
  -- A push changes no register that is still to be pushed.
  induction regs generalizing c with
  | nil => rfl
  | cons reg rest ih =>
    rw [List.mem_cons, not_or] at away
    have same : rest.map (c.push (c.regs reg)).regs = rest.map c.regs := by
      refine List.map_congr_left fun other member => ?_
      have apart : other ≠ .rsp := fun here => away.2 (here ▸ member)
      simp [push, set_regs, apart]
    show (c.push (c.regs reg)).exec (rest.map .push) = _
    rw [ih away.2, same]
    rfl

/-- Pushing words moves the stack pointer down and writes them below it. -/
theorem pushAll_spec (words : List Word) : ∀ (c : Cpu),
    (c.pushAll words).regs =
        Function.update c.regs .rsp (c.regs .rsp - BitVec.ofNat 64 (8 * words.length)) ∧
      (c.pushAll words).flags = c.flags ∧
      (c.pushAll words).mem = c.mem.storeDown (c.regs .rsp) words := by
  -- The induction is on the words, with the processor generalised.
  induction words with
  | nil => exact fun c => ⟨by simp [pushAll], rfl, rfl⟩
  | cons w rest ih =>
    intro c
    obtain ⟨regs, flags, mem⟩ := ih (c.push w)
    have moved : (c.push w).regs .rsp = c.regs .rsp - 8 := by simp [push, set_regs]
    show ((c.push w).pushAll rest).regs = _ ∧ ((c.push w).pushAll rest).flags = _ ∧
      ((c.push w).pushAll rest).mem = _
    refine ⟨?_, flags, ?_⟩
    · rw [regs, moved, Memory.below_succ]
      simp only [push, set, Function.update_idem, List.length_cons]
    · rw [mem, moved]
      rfl

/-- Registers other than the stack pointer get the words that lie on top of the stack. -/
theorem exec_pops (value : Reg → Word) (rest : List Word) {regs : List Reg} (nodup : regs.Nodup)
    (away : .rsp ∉ regs) : ∀ (c : Cpu), c.mem.Holds (c.regs .rsp) (regs.map value ++ rest) →
    (∀ reg ∈ regs, (c.exec (regs.map .pop)).regs reg = value reg) ∧
      (∀ reg ∉ regs, reg ≠ .rsp → (c.exec (regs.map .pop)).regs reg = c.regs reg) ∧
      (c.exec (regs.map .pop)).regs .rsp = c.regs .rsp + BitVec.ofNat 64 (8 * regs.length) ∧
      (c.exec (regs.map .pop)).flags = c.flags ∧ (c.exec (regs.map .pop)).mem = c.mem ∧
      c.mem.Holds ((c.exec (regs.map .pop)).regs .rsp) rest := by
  -- Each pop reads the top word and leaves the others to the pops behind it.
  induction regs with
  | nil => exact fun c holds => ⟨by simp, fun _ _ _ => rfl, by simp [exec], rfl, rfl, holds⟩
  | cons reg others ih =>
    intro c holds
    rw [List.nodup_cons] at nodup
    rw [List.mem_cons, not_or] at away
    let d := c.step (.pop reg)
    have popped : d.regs reg = value reg := by
      simpa [d, step, set_regs, top] using holds.1
    have pointer : d.regs .rsp = c.regs .rsp + 8 := by
      simp [d, step, drop, set_regs, away.1]
    have unlike : ∀ other, other ≠ reg → other ≠ .rsp → d.regs other = c.regs other := by
      intro other apart below
      simp [d, step, drop, set_regs, apart, below]
    have behind : d.mem.Holds (d.regs .rsp) (others.map value ++ rest) := by
      rw [pointer]
      exact holds.2
    obtain ⟨got, kept, moved, flags, mem, left⟩ := ih nodup.2 away.2 d behind
    -- The pops of the others start from the processor behind the first one.
    show (∀ other ∈ reg :: others, (d.exec (others.map .pop)).regs other = value other) ∧
      (∀ other ∉ reg :: others, other ≠ .rsp →
        (d.exec (others.map .pop)).regs other = c.regs other) ∧
      (d.exec (others.map .pop)).regs .rsp =
        c.regs .rsp + BitVec.ofNat 64 (8 * (others.length + 1)) ∧
      (d.exec (others.map .pop)).flags = c.flags ∧ (d.exec (others.map .pop)).mem = c.mem ∧
      c.mem.Holds ((d.exec (others.map .pop)).regs .rsp) rest
    refine ⟨fun other member => ?_, fun other absent below => ?_, ?_, flags, mem, left⟩
    · rcases List.mem_cons.mp member with rfl | member
      · rw [kept other nodup.1 (Ne.symm away.1)]
        exact popped
      · exact got other member
    · rw [List.mem_cons, not_or] at absent
      rw [kept other absent.2 below, unlike other absent.1 below]
    · have size : 8 * (others.length + 1) = 8 + 8 * others.length := by omega
      rw [moved, pointer, size, BitVec.ofNat_add, ← BitVec.add_assoc]
      rfl

end Cpu

/-- The registers that a switch saves besides the flags, in the order of the pushes. -/
def savedRegs : List Reg := [.rbx, .rbp, .rsi, .rdi, .r8, .r9, .r10, .r11, .r12, .r13, .r14, .r15]

/-- What a switch leaves on the stack below the return address, from the new top on. -/
def frame (regs : Reg → Word) (flags : Word) : List Word := flags :: savedRegs.reverse.map regs

/-- Saving pushes the frame below the return address, and nothing else changes but the result. -/
theorem efFiberSave_eq (c : Cpu) : c.exec efFiberSave =
    (c.set .rax (c.regs .rdx)).pushAll (savedRegs.map c.regs ++ [c.flags]) := by
  -- The flags are pushed behind the registers, and no push changes them.
  have parts : efFiberSave = .mov .rdx .rax :: (savedRegs.map .push ++ [.pushfq]) := rfl
  have pushes := @Cpu.exec_pushes savedRegs (by decide) (c.set .rax (c.regs .rdx))
  have same : savedRegs.map (c.set .rax (c.regs .rdx)).regs = savedRegs.map c.regs := by
    simp [savedRegs, Cpu.set_regs]
  have flags : ((c.set .rax (c.regs .rdx)).pushAll (savedRegs.map c.regs)).flags = c.flags :=
    (Cpu.pushAll_spec _ _).2.1
  rw [parts, Cpu.exec_cons]
  show (c.set .rax (c.regs .rdx)).exec (savedRegs.map .push ++ [.pushfq]) = _
  rw [Cpu.exec_append, pushes, same, Cpu.exec_cons, Cpu.step, flags, Cpu.pushAll_append]
  rfl

/-- What is in the registers and in memory once a context has been saved. -/
theorem efFiberSave_spec (c : Cpu) {above : List Word} (holds : c.mem.Holds (c.regs .rsp) above)
    (small : 8 * (13 + above.length) ≤ 2 ^ 64) :
    (c.exec efFiberSave).regs =
        Function.update (Function.update c.regs .rax (c.regs .rdx)) .rsp (c.regs .rsp - 104) ∧
      (c.exec efFiberSave).mem.Holds (c.regs .rsp - 104) (frame c.regs c.flags ++ above) ∧
      c.mem.Within (c.exec efFiberSave).mem (c.regs .rsp - 104) 104 := by
  -- The words are those of the frame in reverse.
  let words := savedRegs.map c.regs ++ [c.flags]
  obtain ⟨regs, _, mem⟩ := Cpu.pushAll_spec words (c.set .rax (c.regs .rdx))
  have pointer : (c.set .rax (c.regs .rdx)).regs .rsp = c.regs .rsp := by simp [Cpu.set_regs]
  rw [pointer] at regs mem
  rw [efFiberSave_eq, regs, mem]
  refine ⟨rfl, ?_, Memory.within_storeDown words c.mem _ (by simp [words, savedRegs])⟩
  have laid := holds.storeDown words (by simpa [words, savedRegs] using small)
  simpa [words, frame, savedRegs] using laid

/-- Leaving stores the stack pointer and takes the other one. -/
theorem efFiberLeave_spec (d : Cpu) :
    (d.exec efFiberLeave).mem = d.mem.store (d.regs .rsi) (d.regs .rsp) ∧
      (d.exec efFiberLeave).regs .rsp = d.regs .rdi ∧
      (d.exec efFiberLeave).regs .rax = d.regs .rax := by
  -- The two instructions are executed symbolically.
  have nothing : ∀ a : Word, a + 0 = a := BitVec.add_zero
  simp only [efFiberLeave, Cpu.exec, List.foldl, Cpu.step, Cpu.set_regs, Cpu.set_mem, nothing,
    reduceCtorEq, if_true, if_false, and_self]

/-- Restoring writes nothing. -/
theorem efFiberRestore_mem (c : Cpu) : (c.exec efFiberRestore).mem = c.mem := by
  -- None of the instructions stores anything.
  simp only [efFiberRestore, Cpu.exec, List.foldl, Cpu.step, Cpu.drop, Cpu.set_mem]

/-- Restoring takes everything from the frame on top of the stack, and returns behind it. -/
theorem efFiberRestore_spec (c : Cpu) {regs : Reg → Word} {flags ret : Word} {rest : List Word}
    (holds : c.mem.Holds (c.regs .rsp) (frame regs flags ++ ret :: rest)) :
    (∀ reg ∈ savedRegs, (c.exec efFiberRestore).regs reg = regs reg) ∧
      (c.exec efFiberRestore).regs .rax = c.regs .rax ∧
      (c.exec efFiberRestore).regs .rsp = c.regs .rsp + 112 ∧
      (c.exec efFiberRestore).flags = flags ∧ (c.exec efFiberRestore).rip = ret ∧
      (c.exec efFiberRestore).mem = c.mem ∧
      c.mem.Holds ((c.exec efFiberRestore).regs .rsp) rest := by
  -- The flags are popped first, then the registers, and last the return address.
  obtain ⟨d, first⟩ : ∃ d, c.step .popfq = d := ⟨_, rfl⟩
  have pointer : d.regs .rsp = c.regs .rsp + 8 := by
    simp [← first, Cpu.step, Cpu.drop, Cpu.set_regs]
  have result : d.regs .rax = c.regs .rax := by
    simp [← first, Cpu.step, Cpu.drop, Cpu.set_regs]
  have flagged : d.flags = flags := by
    rw [← first]
    exact holds.1
  have memory : d.mem = c.mem := by
    rw [← first]
    rfl
  have behind : d.mem.Holds (d.regs .rsp) (savedRegs.reverse.map regs ++ ret :: rest) := by
    rw [pointer, memory]
    exact holds.2
  have pops := @Cpu.exec_pops regs (ret :: rest) savedRegs.reverse (by decide) (by decide) d behind
  -- The last instruction takes the return address, which lies behind the frame.
  obtain ⟨e, popped⟩ : ∃ e, d.exec (savedRegs.reverse.map .pop) = e := ⟨_, rfl⟩
  have parts : efFiberRestore = .popfq :: (savedRegs.reverse.map .pop ++ [.ret]) := rfl
  have last : c.exec efFiberRestore = { e.drop with rip := e.top } := by
    rw [parts, Cpu.exec_cons, Cpu.exec_append, first, popped]
    rfl
  rw [popped] at pops
  obtain ⟨got, kept, moved, flagsKept, memoryKept, left⟩ := pops
  have moves : e.regs .rsp + 8 = c.regs .rsp + 112 := by
    rw [moved, pointer, BitVec.add_assoc, BitVec.add_assoc]
    rfl
  rw [memory] at left memoryKept
  rw [last]
  simp only [Cpu.drop, Cpu.set, Cpu.top, Function.update_self, moves, memoryKept]
  refine ⟨fun reg member => ?_, ?_, trivial, flagsKept.trans flagged, left.1, trivial, ?_⟩
  · have apart : reg ≠ .rsp := fun here => absurd (here ▸ member) (by decide)
    rw [Function.update_of_ne apart]
    exact got reg (List.mem_reverse.mpr member)
  · rw [Function.update_of_ne (by decide), ← result]
    exact kept .rax (by decide) (by decide)
  · rw [← moves]
    exact left.2

/-- The registers that the first frame of a fiber holds. -/
def entryRegs (upper param : Word) : Reg → Word
  | .rdi => param
  | .rbp => upper
  | _ => 0

/-- The words that lie from the first stack pointer of a fiber up to the end of its stack. -/
def entryFrame (exitAddress fiber upper proc param : Word) : List Word :=
  frame (entryRegs upper param) 0 ++ [proc, exitAddress, fiber]

/-- What `ef_fiber_internal_init` writes and returns. -/
theorem efFiberInternalInit_spec (exitAddress : Word) (c : Cpu) :
    (c.exec (efFiberInternalInit exitAddress)).mem =
        (c.mem.store (c.regs .rdi + 40) statusInited).storeDown (c.mem.load (c.regs .rdi + 16))
          (entryFrame exitAddress (c.regs .rdi) (c.mem.load (c.regs .rdi + 16)) (c.regs .rsi)
            (c.regs .rdx)).reverse ∧
      (c.exec (efFiberInternalInit exitAddress)).regs .rax =
        c.mem.load (c.regs .rdi + 16) - 128 := by
  -- The record of the fiber and its status do not overlap.
  have record : (c.mem.store (c.regs .rdi + 40) statusInited).load (c.regs .rdi + 16) =
      c.mem.load (c.regs .rdi + 16) :=
    Memory.load_store_apart fun x inside => by bv_omega
  have words : (entryFrame exitAddress (c.regs .rdi) (c.mem.load (c.regs .rdi + 16)) (c.regs .rsi)
      (c.regs .rdx)).reverse = [c.regs .rdi, exitAddress, c.regs .rsi, 0,
        c.mem.load (c.regs .rdi + 16), 0, c.regs .rdx, 0, 0, 0, 0, 0, 0, 0, 0, 0] := rfl
  rw [words]
  constructor
  · simp only [efFiberInternalInit, Cpu.exec, List.foldl, Cpu.step, Cpu.drop, Cpu.set_regs,
      Cpu.set_mem, reduceCtorEq, if_true, if_false, fiberStatusOffset, fiberStackUpperOffset,
      BitVec.xor_self, record]
    -- Each store lies one word below the one before it.
    simp only [Memory.storeDown, BitVec.sub_eq_add_neg, BitVec.add_assoc, BitVec.reduceNeg,
      BitVec.reduceAdd]
    rfl
  · simp only [efFiberInternalInit, Cpu.exec, List.foldl, Cpu.step, Cpu.drop, Cpu.set_regs,
      Cpu.set_mem, reduceCtorEq, if_true, if_false, fiberStatusOffset, fiberStackUpperOffset,
      record]

/-- What `_ef_fiber_exit` writes, and which stack it takes. -/
theorem efFiberToParent_spec (c : Cpu) :
    (c.exec efFiberToParent).mem =
        (c.mem.store (c.top + 40) statusExited).store (c.mem.load (c.top + 56))
          (c.mem.load (c.top + 48)) ∧
      (c.exec efFiberToParent).regs .rsp =
        ((c.mem.store (c.top + 40) statusExited).store (c.mem.load (c.top + 56))
          (c.mem.load (c.top + 48))).load (c.mem.load (c.top + 48) + 32) ∧
      (c.exec efFiberToParent).regs .rax = c.regs .rax := by
  -- The other fields of the record are read behind the store to its status.
  have parent : (c.mem.store (c.top + 40) statusExited).load (c.top + 48) =
      c.mem.load (c.top + 48) :=
    Memory.load_store_apart fun x inside => by bv_omega
  have sched : (c.mem.store (c.top + 40) statusExited).load (c.top + 56) =
      c.mem.load (c.top + 56) :=
    Memory.load_store_apart fun x inside => by bv_omega
  have nothing : ∀ a : Word, a + 0 = a := BitVec.add_zero
  simp only [Cpu.top] at parent sched ⊢
  simp only [efFiberToParent, Cpu.exec, List.foldl, Cpu.step, Cpu.drop, Cpu.set_regs, Cpu.set_mem,
    Cpu.top, reduceCtorEq, if_true, if_false, fiberStatusOffset, fiberParentOffset,
    fiberSchedOffset, schedCurrentFiberOffset, fiberStackPtrOffset, parent, sched, nothing,
    and_self]

end SimpleSrv.Ef.Amd64
