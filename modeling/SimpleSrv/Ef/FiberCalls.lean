import SimpleSrv.Ef.SwitchRuns

/-! The functions of the scheduler, as what they make of the processor and its memory. -/

namespace SimpleSrv.Ef.Amd64.World

variable (exitAddress : Word)

/-- The code of a C function goes on to a call, with these arguments and this memory. -/
def toCall (w : World) (mem : Memory) (rdi rsi rdx : Word) : World :=
  w.goOn exitAddress { ((w.cpu.set .rdi rdi).set .rsi rsi).set .rdx rdx with mem := mem }

/-- `ef_fiber_init`. -/
def efFiberInit (w : World) (ret fiber proc param : Word) : Option World :=
  let called := w.toCall exitAddress w.cpu.mem fiber proc (if param ≠ 0 then param else fiber)
  (called.step exitAddress (.init ret)).map fun inited =>
    let mem := inited.cpu.mem.store (fiber + fiberStackPtrOffset) (inited.cpu.regs .rax)
    inited.goOn exitAddress { inited.cpu with mem := mem }

/-- `ef_fiber_resume`, from its check of the status to its call of the swap. -/
def resumeCall (w : World) (rt target sndval : Word) : World :=
  let current := w.cpu.mem.load (rt + schedCurrentFiberOffset)
  let mem := w.cpu.mem.store (target + fiberParentOffset) current
  let mem := mem.store (rt + schedCurrentFiberOffset) target
  w.toCall exitAddress mem (mem.load (target + fiberStackPtrOffset))
    (current + fiberStackPtrOffset) sndval

/-- `ef_fiber_resume`, up to its return or to the place where the other context goes on. -/
def efFiberResume (w : World) (ret rt target sndval : Word) : Except Int (Option World) :=
  let status := w.cpu.mem.load (target + fiberStatusOffset)
  if status ≠ statusInited then
    -- `ERROR_FIBER_EXITED` and `ERROR_FIBER_NOT_INITED`.
    if status = statusExited then .error (-1) else .error (-2)
  else .ok ((w.resumeCall exitAddress rt target sndval).step exitAddress (.swap ret))

/-- `ef_fiber_yield`, up to the place where the other context goes on. -/
def efFiberYield (w : World) (ret rt sndval : Word) : Option World :=
  let current := w.cpu.mem.load (rt + schedCurrentFiberOffset)
  let parent := w.cpu.mem.load (current + fiberParentOffset)
  let mem := w.cpu.mem.store (rt + schedCurrentFiberOffset) parent
  -- The parent is read once more behind the store.
  let pointer := mem.load (mem.load (current + fiberParentOffset) + fiberStackPtrOffset)
  let called := w.toCall exitAddress mem pointer (current + fiberStackPtrOffset) sndval
  called.step exitAddress (.swap ret)

variable {exitAddress} {w v : World} {ret rt fiber proc param target sndval : Word}

/-- Going on to a call is a run. -/
theorem toCall_runs (w : World) (mem : Memory) (rdi rsi rdx : Word) :
    ∃ moves, Runs exitAddress w moves (w.toCall exitAddress mem rdi rsi rdx) :=
  ⟨_, @Run.next _ _ _ _ w w _ [] (.other _) (.start w) trivial rfl⟩

/-- Setting up a fiber is a run. -/
theorem efFiberInit_runs (done : w.efFiberInit exitAddress ret fiber proc param = some v) :
    ∃ moves, Runs exitAddress w moves v := by
  -- The fields are set up by other code, and then the routine is called.
  simp only [efFiberInit] at done
  obtain ⟨inited, stepped, rfl⟩ := Option.map_eq_some_iff.mp done
  obtain ⟨moves, called⟩ := @toCall_runs exitAddress w w.cpu.mem fiber proc
    (if param ≠ 0 then param else fiber)
  exact ⟨_, @Run.next _ _ _ _ w _ _ _ (.other _) (called.next trivial stepped) trivial rfl⟩

/-- A resume that gets to its swap passes the check of the status. -/
theorem efFiberResume_ok (done : w.efFiberResume exitAddress ret rt target sndval = .ok (some v)) :
    w.cpu.mem.load (target + fiberStatusOffset) = statusInited ∧
      (w.resumeCall exitAddress rt target sndval).step exitAddress (.swap ret) = some v := by
  -- Any other status ends the call before the swap.
  simp only [efFiberResume] at done
  split at done
  · split at done <;> cases done
  · rename_i inited
    exact ⟨of_not_not inited, Except.ok.inj done⟩

/-- A resume that switches is a run. -/
theorem efFiberResume_runs
    (done : w.efFiberResume exitAddress ret rt target sndval = .ok (some v)) :
    ∃ moves, Runs exitAddress w moves v := by
  -- The fields are written by other code, and then the swap is called.
  obtain ⟨moves, called⟩ := @toCall_runs exitAddress w _ _ _ _
  exact ⟨_, called.next trivial (efFiberResume_ok done).2⟩

/-- A yield is a run. -/
theorem efFiberYield_runs (done : w.efFiberYield exitAddress ret rt sndval = some v) :
    ∃ moves, Runs exitAddress w moves v := by
  -- The fields are written by other code, and then the swap is called.
  simp only [efFiberYield] at done
  obtain ⟨moves, called⟩ := @toCall_runs exitAddress w _ _ _ _
  exact ⟨_, called.next trivial done⟩

/-- The objects that a resume writes are separate from each other and from the stack in use. -/
structure ResumeSeparate (w : World) (rt target : Word) : Prop where
  parentSched : Memory.Apart (target + fiberParentOffset) 8 (rt + schedCurrentFiberOffset) 8
  parentSaved : Memory.Apart (target + fiberParentOffset) 8
    (w.cpu.mem.load (rt + schedCurrentFiberOffset) + fiberStackPtrOffset) 8
  schedSaved : Memory.Apart (rt + schedCurrentFiberOffset) 8
    (w.cpu.mem.load (rt + schedCurrentFiberOffset) + fiberStackPtrOffset) 8
  parentStack : Memory.Apart (target + fiberParentOffset) 8 (w.cpu.regs .rsp - 112) 112
  schedStack : Memory.Apart (rt + schedCurrentFiberOffset) 8 (w.cpu.regs .rsp - 112) 112
  stackSaved : Memory.Apart (w.cpu.regs .rsp - 112) 112
    (w.cpu.mem.load (rt + schedCurrentFiberOffset) + fiberStackPtrOffset) 8

/-- The caller of a resume waits as the parent of the fiber that it has resumed. -/
theorem efFiberResume_waits (separate : ResumeSeparate w rt target)
    (done : w.efFiberResume exitAddress ret rt target sndval = .ok (some v)) :
    v.cpu.mem.load (rt + schedCurrentFiberOffset) = target ∧
      v.cpu.mem.load (target + fiberParentOffset) =
        w.cpu.mem.load (rt + schedCurrentFiberOffset) ∧
      ∃ caller, Context.swap caller ret ∈ v.contexts ∧
        v.cpu.mem.load (w.cpu.mem.load (rt + schedCurrentFiberOffset) + fiberStackPtrOffset) =
          (Context.swap caller ret).pointer := by
  -- The swap is called with the place for the stack pointer of the caller.
  have stepped := (efFiberResume_ok done).2
  obtain ⟨called, here⟩ : ∃ called, w.resumeCall exitAddress rt target sndval = called := ⟨_, rfl⟩
  rw [here] at stepped
  have pointer : called.cpu.regs .rsp = w.cpu.regs .rsp := by
    simp [← here, resumeCall, toCall, goOn, Cpu.set_regs]
  have cell : called.cpu.regs .rsi =
      w.cpu.mem.load (rt + schedCurrentFiberOffset) + fiberStackPtrOffset := by
    simp [← here, resumeCall, toCall, goOn, Cpu.set_regs]
  have written : called.cpu.mem = (w.cpu.mem.store (target + fiberParentOffset)
      (w.cpu.mem.load (rt + schedCurrentFiberOffset))).store
        (rt + schedCurrentFiberOffset) target := by
    rw [← here]
    rfl
  obtain ⟨m, within, mem⟩ := swap_mem stepped
  have waits := swap_waits stepped
  rw [pointer, cell] at mem waits
  rw [pointer, written] at within
  refine ⟨?_, ?_, called.cpu, waits separate.stackSaved⟩
  · -- The swap writes elsewhere, so both words are those that the resume has stored.
    rw [mem, Memory.load_store_apart separate.schedSaved,
      (within.sameOn separate.schedStack).load (Nat.le_refl 8), Memory.load_store]
  · rw [mem, Memory.load_store_apart separate.parentSaved,
      (within.sameOn separate.parentStack).load (Nat.le_refl 8),
      Memory.load_store_apart separate.parentSched, Memory.load_store]

end SimpleSrv.Ef.Amd64.World
