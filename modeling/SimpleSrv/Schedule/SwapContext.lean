import SimpleSrv.Ef.SwitchLaws
import SimpleSrv.Lib.Pages
import SimpleSrv.Lib.Run

/-! `swap_context` as the instructions it consists of, and where each switch of it goes on. -/

namespace SimpleSrv.Schedule

open Ef.Amd64 (Reg Cpu)

/-- The instructions in use: those that the fiber routines know as well, and two more. -/
inductive Instr where
  | plain (instr : Ef.Amd64.Instr)
  /-- Take the address of a place in memory. -/
  | leaOffset (offset : Word) (base dst : Reg)
  | jmp (target : Reg)
  deriving DecidableEq, Repr

/-- Execute one instruction. -/
def step (c : Cpu) : Instr → Cpu
  | .plain instr => c.step instr
  | .leaOffset offset base dst => c.set dst (c.regs base + offset)
  | .jmp target => { c with rip := c.regs target }

/-- Execute the instructions of a routine. -/
def exec (c : Cpu) (code : List Instr) : Cpu := code.foldl step c

/-- `swap_context`, up to its last store. -/
def swapSave : List Instr :=
  [.plain (.load 0x00 .rsp .rdx), .leaOffset 0x08 .rsp .rcx, .plain (.store .r12 0x00 .rdi),
    .plain (.store .r13 0x08 .rdi), .plain (.store .r14 0x10 .rdi), .plain (.store .r15 0x18 .rdi),
    .plain (.store .rdx 0x20 .rdi), .plain (.store .rcx 0x28 .rdi), .plain (.store .rbx 0x30 .rdi),
    .plain (.store .rbp 0x38 .rdi)]

/-- `swap_context`, from its first load on. -/
def swapLoad : List Instr :=
  [.plain (.load 0x00 .rsi .r12), .plain (.load 0x08 .rsi .r13), .plain (.load 0x10 .rsi .r14),
    .plain (.load 0x18 .rsi .r15), .plain (.load 0x20 .rsi .rax), .plain (.load 0x28 .rsi .rcx),
    .plain (.load 0x30 .rsi .rbx), .plain (.load 0x38 .rsi .rbp), .plain (.mov .rcx .rsp),
    .jmp .rax]

/-- `swap_context`. -/
def swapContext : List Instr := swapSave ++ swapLoad

/-- The registers that `swap_context` saves besides the stack pointer and the return address. -/
def calleeSaved : List Reg := [.r12, .r13, .r14, .r15, .rbx, .rbp]

/-- The value of `rcx` that the constructor of `Context` computes for a stack of this size. -/
def stackTop (mem size : Word) : Word := ((mem + (size - 1)) &&& ~~~15) - 8

/-- What a `Context` can stand for. -/
inductive Saved where
  /-- One that has been constructed for this function, on the stack with this top. -/
  | entry (at_ proc top : Word)
  /-- The caller of `swap_context`, as it was at the call, with the address behind it. -/
  | swap (at_ : Word) (caller : Cpu) (ret : Word)

namespace Saved

/-- The address of the `Context`. -/
def context : Saved → Word
  | .entry at_ _ _ | .swap at_ _ _ => at_

/-- Where the fields lie that say where to go on. -/
def pointer : Saved → Word
  | .entry at_ _ _ => at_ + 0x20
  | .swap at_ _ _ => at_

/-- What these fields are. -/
def words : Saved → List Word
  | .entry _ proc top => [proc, top]
  | .swap _ caller ret => [caller.regs .r12, caller.regs .r13, caller.regs .r14, caller.regs .r15,
      ret, caller.regs .rsp, caller.regs .rbx, caller.regs .rbp]

/-- Execution goes on where this context says. -/
def Resumed (d : Cpu) : Saved → Prop
  | .entry _ proc top => d.rip = proc ∧ d.regs .rsp = top
  | .swap _ caller ret => d.rip = ret ∧ d.regs .rsp = caller.regs .rsp ∧
      ∀ reg ∈ calleeSaved, d.regs reg = caller.regs reg

end Saved

/-- The processor, and the contexts whose fields nothing has changed since they were written. -/
structure Contexts where
  cpu : Cpu
  saved : List Saved

/-- What happens between two switches, or is one. -/
inductive Move where
  /-- Other code executes and leaves the processor and memory like this. -/
  | other (after : Cpu)
  /-- A `Context` is constructed at this address, on a stack of so many bytes. -/
  | construct (at_ proc mem size : Word)
  /-- A call of `swap_context`, the arguments being in registers. -/
  | swap (ret : Word)

namespace Contexts

/-- The processor goes on, and what it overwrites is lost. -/
def goOn (w : Contexts) (d : Cpu) : Contexts where
  cpu := d
  saved := w.saved.filter fun x => w.cpu.mem.SameOn d.mem x.pointer (8 * x.words.length)

/-- One move. -/
def step (w : Contexts) : Move → Option Contexts
  | .other after => some (w.goOn after)
  | .construct at_ proc mem size =>
    let top := stackTop mem size
    let written := (w.cpu.mem.store (at_ + 0x20) proc).store (at_ + 0x28) top
    let done := w.goOn { w.cpu with mem := written }
    some { done with saved := done.saved ++ [.entry at_ proc top] }
  | .swap ret =>
    let saving := exec (w.cpu.push ret) swapSave
    let left := w.goOn saving
    -- From here on the caller is a context that waits like the others.
    let left := { left with saved := left.saved ++ [Saved.swap (w.cpu.regs .rdi) w.cpu ret] }
    some (left.goOn (exec saving swapLoad))

/-- A run of any moves in any order, before which nothing has been saved. -/
abbrev Runs (cpu : Cpu) (moves : List Move) (w : Contexts) : Prop :=
  Run step (fun _ _ => True) ⟨cpu, []⟩ moves w

/-- What a switch does wherever it is made. -/
structure SwapsLand (w : Contexts) : Prop where
  /-- Whatever waits, a switch to its address lets just that go on. -/
  lands : ∀ ret v, w.step (.swap ret) = some v → ∀ x ∈ v.saved, x.context = w.cpu.regs .rsi →
    x.Resumed v.cpu
  /-- The caller waits at the address of its first argument. -/
  waits : ∀ ret v, w.step (.swap ret) = some v →
    Saved.swap (w.cpu.regs .rdi) w.cpu ret ∈ v.saved
  /-- A switch writes the return address below the stack pointer, and the first context. -/
  frame : ∀ ret v, w.step (.swap ret) = some v → ∃ m, w.cpu.mem.Within m (w.cpu.regs .rsp - 8) 8 ∧
    m.Within v.cpu.mem (w.cpu.regs .rdi) 64
  /-- A new context waits for its function to be entered, on an aligned stack inside its memory. -/
  constructed : ∀ at_ proc mem size v, w.step (.construct at_ proc mem size) = some v →
    Saved.entry at_ proc (stackTop mem size) ∈ v.saved
  aligned : ∀ mem size : Word, 24 ≤ size.toNat → mem.toNat + size.toNat ≤ 2 ^ 64 →
    (stackTop mem size).toNat % 16 = 8 ∧ mem.toNat ≤ (stackTop mem size).toNat ∧
      (stackTop mem size).toNat + 8 ≤ mem.toNat + size.toNat

end Contexts

/-- What the first half of the routine saves, and that it leaves the other arguments alone. -/
theorem swapSave_spec (c : Cpu) (ret : Word) :
    (exec (c.push ret) swapSave).mem = (c.mem.store (c.regs .rsp - 8) ret).storeUp (c.regs .rdi)
        (Saved.swap (c.regs .rdi) c ret).words ∧
      (exec (c.push ret) swapSave).regs .rsi = c.regs .rsi := by
  -- The stack pointer that is saved points behind the return address, as before the `call`.
  have back : ∀ a : Word, a - 8#64 + 8#64 = a := fun a => BitVec.sub_add_cancel a 8
  constructor
  · simp [exec, swapSave, step, Cpu.step, Cpu.push, Cpu.set_regs, Saved.words, Memory.storeUp,
      BitVec.add_assoc, back]
  · simp [exec, swapSave, step, Cpu.step, Cpu.push, Cpu.set_regs]

/-- What the second half of the routine loads. -/
theorem swapLoad_spec (d : Cpu) :
    (exec d swapLoad).mem = d.mem ∧
      (exec d swapLoad).rip = d.mem.load (d.regs .rsi + 0x20) ∧
      (exec d swapLoad).regs .rsp = d.mem.load (d.regs .rsi + 0x28) ∧
      (exec d swapLoad).regs .r12 = d.mem.load (d.regs .rsi) ∧
      (exec d swapLoad).regs .r13 = d.mem.load (d.regs .rsi + 0x08) ∧
      (exec d swapLoad).regs .r14 = d.mem.load (d.regs .rsi + 0x10) ∧
      (exec d swapLoad).regs .r15 = d.mem.load (d.regs .rsi + 0x18) ∧
      (exec d swapLoad).regs .rbx = d.mem.load (d.regs .rsi + 0x30) ∧
      (exec d swapLoad).regs .rbp = d.mem.load (d.regs .rsi + 0x38) := by
  simp [exec, swapLoad, step, Cpu.step, Cpu.set_regs]

namespace Contexts

variable {w v : Contexts} {x : Saved}

/-- A switch executes the routine as a whole. -/
theorem swap_exec {ret : Word} (stepped : w.step (.swap ret) = some v) :
    v.cpu = exec (w.cpu.push ret) swapContext := by
  obtain rfl := Option.some.inj stepped
  exact List.foldl_append.symm

/-- Whatever waits has its words in memory. -/
def Inv (w : Contexts) : Prop := ∀ x ∈ w.saved, w.cpu.mem.Holds x.pointer x.words

/-- A context is still there when nothing has changed its words. -/
theorem mem_goOn {d : Cpu} : x ∈ (w.goOn d).saved ↔
    x ∈ w.saved ∧ w.cpu.mem.SameOn d.mem x.pointer (8 * x.words.length) := by
  simp [goOn, List.mem_filter]

/-- Going on loses only what has been overwritten. -/
theorem goOn_inv (inv : w.Inv) (d : Cpu) : (w.goOn d).Inv := by
  intro x member
  obtain ⟨member, same⟩ := mem_goOn.mp member
  exact (inv x member).kept same (by cases x <;> simp [Saved.words])

/-- A context whose words lie in memory may join the others. -/
theorem join_inv (inv : w.Inv) (holds : w.cpu.mem.Holds x.pointer x.words) :
    ({ w with saved := w.saved ++ [x] } : Contexts).Inv := by
  intro y member
  rcases List.mem_append.mp member with member | member
  · exact inv y member
  · rw [List.mem_singleton.mp member]
    exact holds

/-- The words of the caller lie in the first context after its half of the routine. -/
theorem saved_holds (c : Cpu) (ret : Word) :
    (exec (c.push ret) swapSave).mem.Holds (Saved.swap (c.regs .rdi) c ret).pointer
      (Saved.swap (c.regs .rdi) c ret).words := by
  rw [(swapSave_spec c ret).1]
  exact Memory.holds_storeUp _ _ _ (by simp [Saved.words])

/-- The two words of a new context lie there once they have been written. -/
theorem constructed_holds (m : Memory) (at_ proc top : Word) :
    ((m.store (at_ + 0x20) proc).store (at_ + 0x28) top).Holds (at_ + 0x20) [proc, top] := by
  have up : (m.store (at_ + 0x20) proc).store (at_ + 0x28) top =
      m.storeUp (at_ + 0x20) [proc, top] := by
    simp [Memory.storeUp, BitVec.add_assoc]
  rw [up]
  exact Memory.holds_storeUp _ _ _ (by simp)

/-- Every move keeps the words of what waits. -/
theorem step_inv (inv : w.Inv) {move : Move} (stepped : w.step move = some v) : v.Inv := by
  -- A move drops the contexts whose words it has written to, and may add one whose words lie there.
  cases move with
  | other after =>
    obtain rfl := Option.some.inj stepped
    exact goOn_inv inv after
  | construct at_ proc mem size =>
    obtain rfl := Option.some.inj stepped
    exact join_inv (goOn_inv inv _) (constructed_holds _ _ _ _)
  | swap ret =>
    obtain rfl := Option.some.inj stepped
    exact goOn_inv (join_inv (goOn_inv inv _) (saved_holds _ _)) _

/-- Loading the words of a context lets it go on. -/
theorem resumed_of_holds {d : Cpu} (here : x.context = d.regs .rsi)
    (holds : d.mem.Holds x.pointer x.words) : x.Resumed (exec d swapLoad) := by
  -- An entry consists of two words, a saved context of eight, and the routine loads the same places
  -- of either.
  obtain ⟨_, rip, rsp, r12, r13, r14, r15, rbx, rbp⟩ := swapLoad_spec d
  cases x with
  | entry at_ proc top =>
    obtain rfl : at_ = d.regs .rsi := here
    obtain ⟨first, second, _⟩ := holds
    have place : d.regs .rsi + 0x20 + 8 = d.regs .rsi + 0x28 := by
      rw [BitVec.add_assoc]
      rfl
    exact ⟨rip.trans first, rsp.trans (place ▸ second)⟩
  | swap at_ caller ret =>
    obtain rfl : at_ = d.regs .rsi := here
    simp only [Saved.pointer, Saved.words, Memory.Holds, BitVec.add_assoc] at holds
    obtain ⟨first, second, third, fourth, fifth, sixth, seventh, eighth, _⟩ := holds
    refine ⟨rip.trans fifth, rsp.trans sixth, fun reg member => ?_⟩
    simp only [calleeSaved, List.mem_cons, List.not_mem_nil, or_false] at member
    rcases member with rfl | rfl | rfl | rfl | rfl | rfl
    · exact r12.trans first
    · exact r13.trans second
    · exact r14.trans third
    · exact r15.trans fourth
    · exact rbx.trans seventh
    · exact rbp.trans eighth

/-- The second half of the routine overwrites nothing. -/
theorem mem_load {d : Cpu} (here : w.cpu.mem = d.mem) :
    x ∈ (w.goOn (exec d swapLoad)).saved ↔ x ∈ w.saved := by
  rw [mem_goOn, (swapLoad_spec d).1, ← here]
  exact and_iff_left fun _ _ => rfl

/-- The alignment of the stack, as a size to round down to. -/
def sixteen : PageSize := ⟨16, 4, rfl, by decide⟩

/-- The top of a new stack is a word below the last multiple of 16 in its memory. -/
theorem stackTop_aligned {mem size : Word} (large : 24 ≤ size.toNat)
    (fits : mem.toNat + size.toNat ≤ 2 ^ 64) :
    (stackTop mem size).toNat % 16 = 8 ∧ mem.toNat ≤ (stackTop mem size).toNat ∧
      (stackTop mem size).toNat + 8 ≤ mem.toNat + size.toNat := by
  -- The mask rounds the last byte down to a multiple of 16, and the top is one word below that.
  have back : (mem + (size - 1)).toNat = mem.toNat + size.toNat - 1 := by bv_omega
  have down : ((mem + (size - 1)) &&& ~~~15).toNat =
      (mem + (size - 1)).toNat - (mem + (size - 1)).toNat % 16 := by
    have rounded := @toNat_alignDown sixteen (mem + (size - 1))
    have mask : sixteen.bytes - 1 = 15 := by decide
    rwa [alignDown, mask] at rounded
  have high : 8 ≤ ((mem + (size - 1)) &&& ~~~15).toNat := by omega
  have top : (stackTop mem size).toNat = ((mem + (size - 1)) &&& ~~~15).toNat - 8 := by
    rw [stackTop, BitVec.toNat_sub_of_le (by rwa [BitVec.le_def])]
    rfl
  omega

/--
However switches, new contexts and other code follow each other, a switch goes on just where the
context in its second argument says, which is where that context was left.
-/
theorem swaps_land {cpu : Cpu} {moves : List Move} (run : Runs cpu moves w) : w.SwapsLand where
  lands := by
    intro ret v stepped x waiting here
    -- Saving the caller comes first, and a context that still waits behind it has kept its words.
    have inv : w.Inv := run.invariant
      (fun _ none => by cases none)
      fun _ _ _ inv _ stepped => step_inv inv stepped
    obtain rfl := Option.some.inj stepped
    have left := join_inv (goOn_inv inv (exec (w.cpu.push ret) swapSave))
      (saved_holds w.cpu ret)
    refine resumed_of_holds (here.trans (swapSave_spec w.cpu ret).2.symm) ?_
    exact left x ((mem_load rfl).mp waiting)
  waits := by
    intro ret v stepped
    obtain rfl := Option.some.inj stepped
    exact (mem_load rfl).mpr (by simp)
  frame := by
    intro ret v stepped
    obtain rfl := Option.some.inj stepped
    refine ⟨_, Memory.within_store _ _ ret, ?_⟩
    show Memory.Within _ (exec (exec (w.cpu.push ret) swapSave) swapLoad).mem _ _
    rw [(swapLoad_spec _).1, (swapSave_spec w.cpu ret).1]
    exact Memory.within_storeUp (Saved.swap (w.cpu.regs .rdi) w.cpu ret).words _ _
      (by simp [Saved.words])
  constructed := by
    intro at_ proc mem size v stepped
    obtain rfl := Option.some.inj stepped
    simp
  aligned := fun _ _ => stackTop_aligned

/-- A main routine about to resume a coroutine for the first time. -/
def resuming : Cpu where
  regs
    | .rdi => 0x10000
    | .rsi => 0x20000
    | .rsp => 0x80000
    | _ => 0
  flags := 0x202
  rip := 0x500000
  mem := fun _ => 0

/-- The coroutine's context has been constructed, with a stack of 4096 bytes. -/
def built : Contexts :=
  ((Contexts.mk resuming []).step (.construct 0x20000 0x400000 0x30000 4096)).getD ⟨resuming, []⟩

/-- The function of the coroutine is entered on the last aligned word of its stack. -/
theorem swaps_land_entry : ∃ v, built.step (.swap 0x500020) = some v ∧
    v.cpu.rip = 0x400000 ∧ v.cpu.regs .rsp = 0x30fe8 := by
  have run : Runs resuming [.construct 0x20000 0x400000 0x30000 4096] built :=
    .next (.start _) trivial rfl
  have begun : Runs resuming [] ⟨resuming, []⟩ := .start _
  have waiting := (swaps_land begun).constructed 0x20000 0x400000 0x30000 4096 built rfl
  have top : stackTop 0x30000 4096 = 0x30fe8 := by decide
  rw [top] at waiting
  refine ⟨_, rfl, ?_⟩
  have landed := (swaps_land run).lands 0x500020 _ rfl (.entry 0x20000 0x400000 0x30fe8) ?_ rfl
  · exact landed
  · -- The caller's context and its return address are written elsewhere.
    refine (mem_load rfl).mpr (List.mem_append_left _ (mem_goOn.mpr ⟨waiting, ?_⟩))
    decide +kernel

end Contexts

end SimpleSrv.Schedule
