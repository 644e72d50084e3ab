import SimpleSrv.Ef.SwitchLaws
import SimpleSrv.Lib.Run

/-! Contexts that are switched to in any order, while other code does anything in between. -/

namespace SimpleSrv.Ef.Amd64

/-- What waits to be switched to. -/
inductive Context where
  /-- A fiber that has been set up on the stack that ends at `upper`. -/
  | entry (fiber upper proc param : Word)
  /-- The caller of `ef_fiber_internal_swap`, as it was at the call, with the address behind it. -/
  | swap (caller : Cpu) (ret : Word)

/-- The stack pointer that stands for a context. -/
def Context.pointer : Context → Word
  | .entry _ upper _ _ => upper - 128
  | .swap caller _ => caller.regs .rsp - 112

/-- A `fiber_proc` that has not returned, with the place of its return address. -/
structure Base where
  pointer : Word
  fiber : Word

/-- The processor, and what it may still go on with. -/
structure World where
  cpu : Cpu
  /-- The contexts whose stack nothing has changed, at and above their pointers, since they left. -/
  contexts : List Context
  /-- The fibers whose words at the end of the stack nothing has changed since they were set up. -/
  bases : List Base

/-- What happens between two switches, or is one. -/
inductive Move where
  /-- Other code executes and leaves the processor and memory like this. -/
  | other (after : Cpu)
  /-- A call of `ef_fiber_internal_init`, the arguments being in registers. -/
  | init (ret : Word)
  /-- A call of `ef_fiber_internal_swap`, the arguments being in registers. -/
  | swap (ret : Word)
  /-- The `ret` of a `fiber_proc`, which leads to `_ef_fiber_exit`. -/
  | exit

section

-- The address of `_ef_fiber_exit`.
variable (exitAddress : Word)

/-- The words at and above the pointer of a context. -/
def Context.words : Context → List Word
  | .entry fiber upper proc param => entryFrame exitAddress fiber upper proc param
  | .swap caller ret => frame caller.regs caller.flags ++ [ret]

/-- The words that a `fiber_proc` finds above it. -/
def Base.words (b : Base) : List Word := [exitAddress, b.fiber]

namespace World

/-- A world in which nothing has been set up. -/
def start (cpu : Cpu) : World := ⟨cpu, [], []⟩

/-- The processor goes on, and what it overwrites is lost. -/
def goOn (w : World) (d : Cpu) : World where
  cpu := d
  contexts := w.contexts.filter fun x =>
    w.cpu.mem.SameOn d.mem x.pointer (8 * (x.words exitAddress).length)
  bases := w.bases.filter fun b =>
    w.cpu.mem.SameOn d.mem b.pointer (8 * (b.words exitAddress).length)

/-- One move. -/
def step (w : World) : Move → Option World
  | .other after => some (w.goOn exitAddress after)
  | .init ret =>
    let called := w.cpu.push ret
    let fiber := called.regs .rdi
    let upper := called.mem.load (fiber + fiberStackUpperOffset)
    let done := w.goOn exitAddress (called.exec (efFiberInternalInit exitAddress))
    some
      { done with
        contexts := done.contexts ++ [.entry fiber upper (called.regs .rsi) (called.regs .rdx)]
        bases := done.bases ++ [⟨upper - 16, fiber⟩] }
  | .swap ret =>
    let saved := (w.cpu.push ret).exec efFiberSave
    let leaving := w.goOn exitAddress saved
    -- From here on the caller is a context that waits like the others.
    let leaving := { leaving with contexts := leaving.contexts ++ [Context.swap w.cpu ret] }
    let left := leaving.goOn exitAddress (saved.exec efFiberLeave)
    some (left.goOn exitAddress (left.cpu.exec efFiberRestore))
  | .exit =>
    if w.cpu.top = exitAddress then
      let left := w.goOn exitAddress ((w.cpu.step .ret).exec efFiberToParent)
      some (left.goOn exitAddress (left.cpu.exec efFiberRestore))
    else none

/-- A run of any moves in any order. -/
abbrev Runs (s : World) (moves : List Move) (w : World) : Prop :=
  Run (step exitAddress) (fun _ _ => True) s moves w

end World

/-- Execution goes on where this context says, with this value as the result of its call. -/
def Context.Resumed (d : Cpu) (value : Word) : Context → Prop
  | .entry fiber upper proc param =>
    d.rip = proc ∧ d.regs .rdi = param ∧ d.regs .rsp = upper - 16 ∧
      d.mem.Holds (d.regs .rsp) [exitAddress, fiber]
  | .swap caller ret =>
    d.rip = ret ∧ d.regs .rsp = caller.regs .rsp ∧
      (∀ reg ∈ savedRegs, d.regs reg = caller.regs reg) ∧ d.flags = caller.flags ∧
      d.regs .rax = value

end

end SimpleSrv.Ef.Amd64
