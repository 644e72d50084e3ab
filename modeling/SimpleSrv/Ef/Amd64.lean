import Mathlib.Logic.Function.Basic
import SimpleSrv.Lib.Memory

/-! The amd64 routines that switch stacks, as the instructions they consist of. -/

namespace SimpleSrv.Ef.Amd64

/-- The general registers. -/
inductive Reg where
  | rax | rbx | rcx | rdx | rsi | rdi | rbp | rsp | r8 | r9 | r10 | r11 | r12 | r13 | r14 | r15
  deriving DecidableEq, Repr

/-- The processor and its memory. -/
structure Cpu where
  regs : Reg → Word
  /-- The flags that a program may change, all of which `pushfq` and `popfq` transfer. -/
  flags : Word
  /-- Where execution goes on once a routine has returned. -/
  rip : Word
  mem : Memory

/-- The instructions in use, each with its source before its destination. -/
inductive Instr where
  | mov (src dst : Reg)
  | movImm (imm : Word) (dst : Reg)
  | load (offset : Word) (base dst : Reg)
  | store (src : Reg) (offset : Word) (base : Reg)
  /-- Take the address of a label. -/
  | lea (address : Word) (dst : Reg)
  | push (src : Reg)
  | pop (dst : Reg)
  | pushfq
  | popfq
  | xor (src dst : Reg)
  | sub (imm : Word) (dst : Reg)
  | ret
  deriving DecidableEq, Repr

namespace Cpu

/-- Write to a register. -/
def set (c : Cpu) (reg : Reg) (w : Word) : Cpu := { c with regs := Function.update c.regs reg w }

/-- Push a word. -/
def push (c : Cpu) (w : Word) : Cpu :=
  { c.set .rsp (c.regs .rsp - 8) with mem := c.mem.store (c.regs .rsp - 8) w }

/-- The word on top of the stack. -/
def top (c : Cpu) : Word := c.mem.load (c.regs .rsp)

/-- Take the word on top off the stack. -/
def drop (c : Cpu) : Cpu := c.set .rsp (c.regs .rsp + 8)

end Cpu

/-- The flags that say something about a result: parity, zero and sign. -/
def resultFlags (result : Word) : Word :=
  let even := ((List.range 8).countP fun i => result.getLsbD i) % 2 = 0
  (if even then 0x4 else 0) ||| (if result = 0 then 0x40 else 0) |||
    (if result.msb then 0x80 else 0)

/-- The flags behind a subtraction. -/
def subFlags (a b : Word) : Word :=
  resultFlags (a - b) ||| (if a.ult b then 0x1 else 0) |||
    (if (a &&& 0xf).ult (b &&& 0xf) then 0x10 else 0) |||
    (if a.msb ≠ b.msb ∧ (a - b).msb ≠ a.msb then 0x800 else 0)

/-- The flags that arithmetic sets: carry, parity, adjust, zero, sign and overflow. -/
def arithmeticFlags : Word := 0x8d5

/-- Execute one instruction. -/
def Cpu.step (c : Cpu) : Instr → Cpu
  | .mov src dst => c.set dst (c.regs src)
  | .movImm imm dst => c.set dst imm
  | .load offset base dst => c.set dst (c.mem.load (c.regs base + offset))
  | .store src offset base => { c with mem := c.mem.store (c.regs base + offset) (c.regs src) }
  | .lea address dst => c.set dst address
  | .push src => c.push (c.regs src)
  | .pop dst => c.drop.set dst c.top
  | .pushfq => c.push c.flags
  | .popfq => { c.drop with flags := c.top }
  | .xor src dst =>
    let result := c.regs dst ^^^ c.regs src
    { c.set dst result with flags := c.flags &&& ~~~arithmeticFlags ||| resultFlags result }
  | .sub imm dst =>
    { c.set dst (c.regs dst - imm) with
      flags := c.flags &&& ~~~arithmeticFlags ||| subFlags (c.regs dst) imm }
  | .ret => { c.drop with rip := c.top }

/-- Execute the instructions of a routine. -/
def Cpu.exec (c : Cpu) (code : List Instr) : Cpu := code.foldl Cpu.step c

/-- Call a routine, with the address behind the call. -/
def Cpu.call (c : Cpu) (ret : Word) (code : List Instr) : Cpu := (c.push ret).exec code

/-- The fields of `ef_fiber_t` in their order, each of them a word. -/
inductive Field where
  | stackSize | stackArea | stackUpper | stackLower | stackPtr | status | parent | sched
  deriving DecidableEq, Repr

/-- How far a field is from the start of its structure. -/
def Field.offset : Field → Word
  | .stackSize => 0
  | .stackArea => 8
  | .stackUpper => 16
  | .stackLower => 24
  | .stackPtr => 32
  | .status => 40
  | .parent => 48
  | .sched => 56

/-- `FIBER_STACK_UPPER_OFFSET`. -/
def fiberStackUpperOffset : Word := 16

/-- `FIBER_STACK_PTR_OFFSET`. -/
def fiberStackPtrOffset : Word := 32

/-- `FIBER_STATUS_OFFSET`. -/
def fiberStatusOffset : Word := 40

/-- `FIBER_PARENT_OFFSET`. -/
def fiberParentOffset : Word := 48

/-- `FIBER_SCHED_OFFSET`. -/
def fiberSchedOffset : Word := 56

/-- `SCHED_CURRENT_FIBER_OFFSET`. -/
def schedCurrentFiberOffset : Word := 0

/-- `FIBER_STATUS_EXITED`. -/
def statusExited : Word := 0

/-- `FIBER_STATUS_INITED`. -/
def statusInited : Word := 1

/-- `ef_fiber_internal_swap`, up to its `pushfq`. -/
def efFiberSave : List Instr :=
  [.mov .rdx .rax, .push .rbx, .push .rbp, .push .rsi, .push .rdi, .push .r8, .push .r9, .push .r10,
    .push .r11, .push .r12, .push .r13, .push .r14, .push .r15, .pushfq]

/-- `ef_fiber_internal_swap`, from there to the label `_ef_fiber_restore`. -/
def efFiberLeave : List Instr := [.store .rsp 0 .rsi, .mov .rdi .rsp]

/-- `_ef_fiber_restore`. -/
def efFiberRestore : List Instr :=
  [.popfq, .pop .r15, .pop .r14, .pop .r13, .pop .r12, .pop .r11, .pop .r10, .pop .r9, .pop .r8,
    .pop .rdi, .pop .rsi, .pop .rbp, .pop .rbx, .ret]

/-- `ef_fiber_internal_swap`, which runs on into `_ef_fiber_restore`. -/
def efFiberInternalSwap : List Instr := efFiberSave ++ efFiberLeave ++ efFiberRestore

/-- `_ef_fiber_exit`, up to its jump to `_ef_fiber_restore`. -/
def efFiberToParent : List Instr :=
  [.pop .rdx, .movImm statusExited .rcx, .store .rcx fiberStatusOffset .rdx,
    .load fiberParentOffset .rdx .rcx, .load fiberSchedOffset .rdx .rdx,
    .store .rcx schedCurrentFiberOffset .rdx, .load fiberStackPtrOffset .rcx .rsp]

/-- `_ef_fiber_exit`, which jumps to `_ef_fiber_restore`. -/
def efFiberExit : List Instr := efFiberToParent ++ efFiberRestore

/-- `ef_fiber_internal_init`, with the address of `_ef_fiber_exit`. -/
def efFiberInternalInit (exitAddress : Word) : List Instr :=
  [.movImm statusInited .rax, .store .rax fiberStatusOffset .rdi, .mov .rdi .rcx,
    .load fiberStackUpperOffset .rdi .rdi, .store .rcx (-8) .rdi, .lea exitAddress .rax,
    .store .rax (-16) .rdi, .store .rsi (-24) .rdi, .xor .rax .rax, .store .rax (-32) .rdi,
    .store .rdi (-40) .rdi, .store .rax (-48) .rdi, .store .rdx (-56) .rdi, .store .rax (-64) .rdi,
    .store .rax (-72) .rdi, .store .rax (-80) .rdi, .store .rax (-88) .rdi, .store .rax (-96) .rdi,
    .store .rax (-104) .rdi, .store .rax (-112) .rdi, .store .rax (-120) .rdi,
    .store .rax (-128) .rdi, .mov .rdi .rax, .sub 128 .rax, .ret]

/-- The offsets in the assembly are those of the structure. -/
theorem offsets_agree : fiberStackUpperOffset = Field.stackUpper.offset ∧
    fiberStackPtrOffset = Field.stackPtr.offset ∧ fiberStatusOffset = Field.status.offset ∧
    fiberParentOffset = Field.parent.offset ∧ fiberSchedOffset = Field.sched.offset :=
  ⟨rfl, rfl, rfl, rfl, rfl⟩

end SimpleSrv.Ef.Amd64
