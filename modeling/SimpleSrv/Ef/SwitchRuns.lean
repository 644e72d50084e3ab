import SimpleSrv.Ef.Contexts

/-! Every switch goes on where its context says, whatever has happened on the other stacks. -/

namespace SimpleSrv.Ef.Amd64

variable {exitAddress : Word}

/-- The words of a context are few. -/
theorem Context.words_small (x : Context) : 8 * (x.words exitAddress).length ≤ 2 ^ 64 := by
  -- A frame has no more than sixteen words.
  cases x <;> simp [words, entryFrame, frame, savedRegs]

/-- Whatever still waits has its words in memory. -/
structure WorldInv (exitAddress : Word) (w : World) : Prop where
  held : ∀ x ∈ w.contexts, w.cpu.mem.Holds x.pointer (x.words exitAddress)
  based : ∀ b ∈ w.bases, w.cpu.mem.Holds b.pointer (b.words exitAddress)

/-- Restoring the words of a context lets it go on. -/
theorem Context.resumed_of_holds {x : Context} {d : Cpu} (here : d.regs .rsp = x.pointer)
    (holds : d.mem.Holds x.pointer (x.words exitAddress)) :
    x.Resumed exitAddress (d.exec efFiberRestore) (d.regs .rax) := by
  -- Both kinds of contexts begin with a frame.
  rw [← here] at holds
  cases x with
  | entry fiber upper proc param =>
    obtain ⟨got, _, moved, _, went, kept, above⟩ :=
      @efFiberRestore_spec d (entryRegs upper param) 0 proc [exitAddress, fiber] holds
    refine ⟨went, got .rdi (by decide), ?_, ?_⟩
    · rw [moved, here, pointer]
      bv_omega
    · rw [kept]
      exact above
  | swap caller ret =>
    obtain ⟨got, result, moved, flags, went, _, _⟩ :=
      @efFiberRestore_spec d caller.regs caller.flags ret [] holds
    refine ⟨went, ?_, got, flags, result⟩
    rw [moved, here, pointer]
    exact BitVec.sub_add_cancel _ _

namespace World

variable {w v : World} {x : Context} {b : Base}

/-- A context is still there when nothing has changed its words. -/
theorem mem_goOn {d : Cpu} : x ∈ (w.goOn exitAddress d).contexts ↔
    x ∈ w.contexts ∧ w.cpu.mem.SameOn d.mem x.pointer (8 * (x.words exitAddress).length) := by
  -- Going on filters by just this condition.
  simp [goOn, List.mem_filter]

/-- A base is still there when nothing has changed its words. -/
theorem base_mem_goOn {d : Cpu} : b ∈ (w.goOn exitAddress d).bases ↔
    b ∈ w.bases ∧ w.cpu.mem.SameOn d.mem b.pointer (8 * (b.words exitAddress).length) := by
  -- Going on filters by just this condition.
  simp [goOn, List.mem_filter]

/-- Going on loses only what has been overwritten. -/
theorem goOn_inv (inv : WorldInv exitAddress w) (d : Cpu) :
    WorldInv exitAddress (w.goOn exitAddress d) where
  held x member := by
    obtain ⟨member, same⟩ := mem_goOn.mp member
    exact (inv.held x member).kept same x.words_small
  based b member := by
    obtain ⟨member, same⟩ := base_mem_goOn.mp member
    exact (inv.based b member).kept same (by simp [Base.words])

/-- A context whose words lie in memory may join the others. -/
theorem join_inv (inv : WorldInv exitAddress w)
    (holds : w.cpu.mem.Holds x.pointer (x.words exitAddress)) :
    WorldInv exitAddress { w with contexts := w.contexts ++ [x] } where
  held y member := by
    rcases List.mem_append.mp member with member | member
    · exact inv.held y member
    · rw [List.mem_singleton.mp member]
      exact holds
  based := inv.based

/-- What a call of the swap leaves below the return address, and in the registers. -/
theorem saved_spec (c : Cpu) (ret : Word) :
    ((c.push ret).exec efFiberSave).mem.Holds (Context.swap c ret).pointer
        ((Context.swap c ret).words exitAddress) ∧
      ((c.push ret).exec efFiberSave).regs .rsp = c.regs .rsp - 112 ∧
      ((c.push ret).exec efFiberSave).regs .rsi = c.regs .rsi ∧
      ((c.push ret).exec efFiberSave).regs .rdi = c.regs .rdi ∧
      ((c.push ret).exec efFiberSave).regs .rax = c.regs .rdx := by
  -- The return address lies on top when the routine is entered.
  have top : (c.push ret).mem.Holds ((c.push ret).regs .rsp) [ret] := by
    simp [Cpu.push, Cpu.set_regs, Memory.Holds]
  obtain ⟨regs, holds, _⟩ := efFiberSave_spec (c.push ret) top (by simp)
  have pointer : (c.push ret).regs .rsp - 104 = c.regs .rsp - 112 := by
    simp only [Cpu.push, Cpu.set_regs, if_true]
    bv_omega
  have same : ∀ reg, reg ≠ .rsp → (c.push ret).regs reg = c.regs reg := by
    intro reg apart
    simp [Cpu.push, Cpu.set_regs, apart]
  -- Pushing the return address changes no register that the frame holds.
  have framed : frame (c.push ret).regs (c.push ret).flags = frame c.regs c.flags := by
    have registers : savedRegs.reverse.map (c.push ret).regs = savedRegs.reverse.map c.regs :=
      List.map_congr_left fun reg member => same reg fun here => absurd (here ▸ member) (by decide)
    rw [frame, registers]
    rfl
  rw [pointer, framed] at holds
  rw [pointer] at regs
  refine ⟨holds, ?_, ?_, ?_, ?_⟩
  · rw [regs, Function.update_self]
  · rw [regs, Function.update_of_ne (by decide), Function.update_of_ne (by decide),
      same _ (by decide)]
  · rw [regs, Function.update_of_ne (by decide), Function.update_of_ne (by decide),
      same _ (by decide)]
  · rw [regs, Function.update_of_ne (by decide), Function.update_self, same _ (by decide)]

/-- A fiber that has been set up has its frame at the pointer that is returned. -/
theorem inited_spec (c : Cpu) :
    let fiber := c.regs .rdi
    let upper := c.mem.load (fiber + fiberStackUpperOffset)
    let entry := Context.entry fiber upper (c.regs .rsi) (c.regs .rdx)
    let d := c.exec (efFiberInternalInit exitAddress)
    d.mem.Holds entry.pointer (entry.words exitAddress) ∧
      d.mem.Holds (upper - 16) (Base.words exitAddress ⟨upper - 16, fiber⟩) ∧
      d.regs .rax = entry.pointer := by
  -- The routine writes the words of the frame from the end of the stack down.
  intro fiber upper entry d
  obtain ⟨mem, result⟩ := efFiberInternalInit_spec exitAddress c
  have laid : d.mem.Holds (upper - 128) (entryFrame exitAddress fiber upper (c.regs .rsi)
      (c.regs .rdx)) := by
    have written := @Memory.Holds.storeDown (entryFrame exitAddress fiber upper (c.regs .rsi)
      (c.regs .rdx)).reverse (c.mem.store (fiber + 40) statusInited) upper [] trivial
      (by simp [entryFrame, frame, savedRegs])
    rw [List.reverse_reverse, List.append_nil] at written
    exact mem ▸ written
  refine ⟨laid, ?_, result⟩
  -- The last two words of the frame are the ones that stay when `fiber_proc` has been entered.
  have split : entryFrame exitAddress fiber upper (c.regs .rsi) (c.regs .rdx) =
      (frame (entryRegs upper (c.regs .rdx)) 0 ++ [c.regs .rsi]) ++ [exitAddress, fiber] := rfl
  rw [split] at laid
  have above := (Memory.holds_append.mp laid).2
  have place : upper - 128 + BitVec.ofNat 64 (8 * (frame (entryRegs upper (c.regs .rdx)) 0 ++
      [c.regs .rsi]).length) = upper - 16 := by
    show upper - 128 + 112 = upper - 16
    bv_omega
  rw [place] at above
  exact above

/-- Every move keeps the words of what still waits. -/
theorem step_inv (inv : WorldInv exitAddress w) (move : Move)
    (stepped : w.step exitAddress move = some v) : WorldInv exitAddress v := by
  -- Each move goes on with what it has changed, and may let another context join.
  cases move with
  | other after =>
    obtain rfl := Option.some.inj stepped
    exact goOn_inv inv after
  | init ret =>
    obtain rfl := Option.some.inj stepped
    obtain ⟨entered, based, _⟩ := @inited_spec exitAddress (w.cpu.push ret)
    have joined := join_inv (goOn_inv inv _) entered
    refine ⟨joined.held, fun b member => ?_⟩
    rcases List.mem_append.mp member with member | member
    · exact joined.based b member
    · rw [List.mem_singleton.mp member]
      exact based
  | swap ret =>
    obtain rfl := Option.some.inj stepped
    have joined := join_inv (goOn_inv inv _) (saved_spec w.cpu ret).1
    exact goOn_inv (goOn_inv joined _) _
  | exit =>
    obtain ⟨_, same⟩ := Option.ite_none_right_eq_some.mp stepped
    obtain rfl := Option.some.inj same
    exact goOn_inv (goOn_inv inv _) _

/-- In every run whatever still waits has its words in memory. -/
theorem runs_inv {cpu : Cpu} {moves : List Move} (run : Runs exitAddress (start cpu) moves w) :
    WorldInv exitAddress w :=
  run.invariant ⟨fun _ absent => (nomatch absent), fun _ absent => (nomatch absent)⟩
    fun _ move _ inv _ stepped => step_inv inv move stepped

/-- A restore lets the context go on whose pointer has been taken. -/
theorem restore_lands (inv : WorldInv exitAddress w)
    (waiting : x ∈ (w.goOn exitAddress (w.cpu.exec efFiberRestore)).contexts)
    (here : w.cpu.regs .rsp = x.pointer) :
    x.Resumed exitAddress (w.cpu.exec efFiberRestore) (w.cpu.regs .rax) :=
  Context.resumed_of_holds here (inv.held x (mem_goOn.mp waiting).1)

/-- A restore overwrites nothing. -/
theorem mem_restore : x ∈ (w.goOn exitAddress (w.cpu.exec efFiberRestore)).contexts ↔
    x ∈ w.contexts := by
  -- The memory is the same before and after.
  rw [mem_goOn, efFiberRestore_mem]
  exact and_iff_left fun _ _ => rfl

/-- A call of the swap writes the caller's frame, and the stack pointer where it is told to. -/
theorem swap_mem {ret : Word} (stepped : w.step exitAddress (.swap ret) = some v) :
    ∃ m, w.cpu.mem.Within m (w.cpu.regs .rsp - 112) 112 ∧
      v.cpu.mem = m.store (w.cpu.regs .rsi) (w.cpu.regs .rsp - 112) := by
  -- The frame lies below the stack pointer of the caller.
  obtain rfl := Option.some.inj stepped
  obtain ⟨_, pointer, cell, _, _⟩ := @saved_spec exitAddress w.cpu ret
  obtain ⟨mem, _, _⟩ := efFiberLeave_spec ((w.cpu.push ret).exec efFiberSave)
  rw [pointer, cell] at mem
  refine ⟨((w.cpu.push ret).exec efFiberSave).mem, ?_, ?_⟩
  · -- The return address is the last word of the region, behind the frame.
    have pushed : w.cpu.mem.Within (w.cpu.push ret).mem (w.cpu.regs .rsp - 8) 8 :=
      Memory.within_store _ _ _
    obtain ⟨_, _, saved⟩ := @efFiberSave_spec (w.cpu.push ret) [] trivial (by simp)
    have below : (w.cpu.push ret).regs .rsp - 104 = w.cpu.regs .rsp - 112 := by
      simp only [Cpu.push, Cpu.set_regs, if_true]
      bv_omega
    rw [below] at saved
    refine pushed.trans saved (fun x outside => ?_) fun x outside => ?_
    · bv_omega
    · omega
  · exact (efFiberRestore_mem _).trans mem

/-- A call of the swap lets the context go on whose pointer is its first argument. -/
theorem swap_lands (inv : WorldInv exitAddress w) {ret : Word}
    (stepped : w.step exitAddress (.swap ret) = some v) (waiting : x ∈ v.contexts)
    (target : w.cpu.regs .rdi = x.pointer) :
    x.Resumed exitAddress v.cpu (w.cpu.regs .rdx) := by
  -- The first half of the routine leaves the stack of the caller for that of the target.
  obtain rfl := Option.some.inj stepped
  obtain ⟨held, _, _, first, third⟩ := @saved_spec exitAddress w.cpu ret
  obtain ⟨_, pointer, result⟩ := efFiberLeave_spec ((w.cpu.push ret).exec efFiberSave)
  have left := goOn_inv (join_inv (goOn_inv inv _) held)
    (((w.cpu.push ret).exec efFiberSave).exec efFiberLeave)
  have landed := restore_lands left waiting ((pointer.trans first).trans target)
  change x.Resumed exitAddress _ ((((w.cpu.push ret).exec efFiberSave).exec efFiberLeave).regs .rax)
    at landed
  rw [result, third] at landed
  exact landed

/-- A caller of the swap waits at the pointer that has been stored, if the store spares it. -/
theorem swap_waits {ret : Word} (stepped : w.step exitAddress (.swap ret) = some v)
    (apart : Memory.Apart (w.cpu.regs .rsp - 112) 112 (w.cpu.regs .rsi) 8) :
    Context.swap w.cpu ret ∈ v.contexts ∧
      v.cpu.mem.load (w.cpu.regs .rsi) = (Context.swap w.cpu ret).pointer := by
  -- Only the store of the stack pointer could overwrite the frame.
  obtain rfl := Option.some.inj stepped
  obtain ⟨_, pointer, cell, _, _⟩ := @saved_spec exitAddress w.cpu ret
  obtain ⟨mem, _, _⟩ := efFiberLeave_spec ((w.cpu.push ret).exec efFiberSave)
  rw [pointer, cell] at mem
  constructor
  · refine mem_restore.mpr (mem_goOn.mpr ⟨by simp, ?_⟩)
    show ((w.cpu.push ret).exec efFiberSave).mem.SameOn
      (((w.cpu.push ret).exec efFiberSave).exec efFiberLeave).mem (w.cpu.regs .rsp - 112) 112
    rw [mem]
    exact (Memory.within_store _ _ _).sameOn apart
  · show ((((w.cpu.push ret).exec efFiberSave).exec efFiberLeave).exec efFiberRestore).mem.load
      (w.cpu.regs .rsi) = w.cpu.regs .rsp - 112
    rw [efFiberRestore_mem, mem, Memory.load_store]

/-- The objects that `_ef_fiber_exit` goes through: the fiber, its parent and its scheduler. -/
structure Exit where
  fiber : Word
  parent : Word
  sched : Word

/-- The exit of a fiber. -/
def exitOf (m : Memory) (fiber : Word) : Exit where
  fiber := fiber
  parent := m.load (fiber + fiberParentOffset)
  sched := m.load (fiber + fiberSchedOffset)

/-- The words that the exit writes and reads belong to different objects. -/
def Exit.Separate (e : Exit) : Prop :=
  Memory.Apart (e.fiber + fiberStatusOffset) 8 (e.sched + schedCurrentFiberOffset) 8 ∧
    Memory.Apart (e.parent + fiberStackPtrOffset) 8 (e.fiber + fiberStatusOffset) 8 ∧
    Memory.Apart (e.parent + fiberStackPtrOffset) 8 (e.sched + schedCurrentFiberOffset) 8

/-- The return of a `fiber_proc` ends its fiber and lets the context of the parent go on. -/
theorem exit_lands (inv : WorldInv exitAddress w) (present : b ∈ w.bases)
    (here : w.cpu.regs .rsp = b.pointer) (apart : (exitOf w.cpu.mem b.fiber).Separate) :
    ∃ v, w.step exitAddress .exit = some v ∧
      v.cpu.mem.load (b.fiber + fiberStatusOffset) = statusExited ∧
      v.cpu.mem.load ((exitOf w.cpu.mem b.fiber).sched + schedCurrentFiberOffset) =
        (exitOf w.cpu.mem b.fiber).parent ∧
      ∀ x ∈ v.contexts,
        w.cpu.mem.load ((exitOf w.cpu.mem b.fiber).parent + fiberStackPtrOffset) = x.pointer →
        x.Resumed exitAddress v.cpu (w.cpu.regs .rax) := by
  -- The base of the stack holds the address that the return goes to.
  have based := inv.based b present
  rw [← here] at based
  have returns : w.cpu.top = exitAddress := based.1
  -- The word behind the return address is the fiber's own address.
  have own : (w.cpu.step .ret).top = b.fiber := by
    have pointer : (w.cpu.step .ret).regs .rsp = w.cpu.regs .rsp + 8 := by
      simp [Cpu.step, Cpu.drop, Cpu.set_regs]
    rw [Cpu.top, pointer]
    exact based.2.1
  have value : (w.cpu.step .ret).regs .rax = w.cpu.regs .rax := by
    simp [Cpu.step, Cpu.drop, Cpu.set_regs]
  obtain ⟨mem, pointer, result⟩ := efFiberToParent_spec (w.cpu.step .ret)
  rw [own] at mem pointer
  obtain ⟨statusApart, stackApart, otherApart⟩ := apart
  have first : ∀ a : Word, a + schedCurrentFiberOffset = a := BitVec.add_zero
  simp only [exitOf, first] at statusApart stackApart otherApart ⊢
  refine ⟨_, if_pos returns, ?_, ?_, fun x waiting target => ?_⟩
  · show (((w.cpu.step .ret).exec efFiberToParent).exec efFiberRestore).mem.load _ = _
    rw [efFiberRestore_mem, mem]
    exact (Memory.load_store_apart statusApart).trans Memory.load_store
  · show (((w.cpu.step .ret).exec efFiberToParent).exec efFiberRestore).mem.load _ = _
    rw [efFiberRestore_mem, mem]
    exact Memory.load_store
  · -- The pointer is read behind two stores, which are to other words.
    have landed := restore_lands (goOn_inv inv _) waiting (pointer.trans ?_)
    · change x.Resumed exitAddress _ (((w.cpu.step .ret).exec efFiberToParent).regs .rax) at landed
      rw [result, value] at landed
      exact landed
    · rw [← target]
      exact (Memory.load_store_apart otherApart).trans (Memory.load_store_apart stackApart)

/-- What the routines do wherever they are called. -/
structure SwitchesLand (exitAddress : Word) (w : World) : Prop where
  /-- A fiber that is set up waits at the pointer that is returned, to enter its `fiber_proc`. -/
  inits : ∀ ret v, w.step exitAddress (.init ret) = some v →
    let fiber := w.cpu.regs .rdi
    let upper := (w.cpu.push ret).mem.load (fiber + fiberStackUpperOffset)
    let entry := Context.entry fiber upper (w.cpu.regs .rsi) (w.cpu.regs .rdx)
    v.cpu.regs .rax = entry.pointer ∧ entry ∈ v.contexts ∧ ⟨upper - 16, fiber⟩ ∈ v.bases
  /-- The caller of a swap waits at the pointer that is stored. -/
  waits : ∀ ret v, w.step exitAddress (.swap ret) = some v →
    Memory.Apart (w.cpu.regs .rsp - 112) 112 (w.cpu.regs .rsi) 8 →
    Context.swap w.cpu ret ∈ v.contexts ∧
      v.cpu.mem.load (w.cpu.regs .rsi) = (Context.swap w.cpu ret).pointer
  /-- A swap to the pointer of anything that waits lets just that go on. -/
  swaps : ∀ ret v, w.step exitAddress (.swap ret) = some v →
    ∀ x ∈ v.contexts, w.cpu.regs .rdi = x.pointer →
    x.Resumed exitAddress v.cpu (w.cpu.regs .rdx)
  /-- The return of a `fiber_proc` ends its fiber and lets the pending swap of the parent return. -/
  exits : ∀ b ∈ w.bases, w.cpu.regs .rsp = b.pointer → (exitOf w.cpu.mem b.fiber).Separate →
    ∃ v, w.step exitAddress .exit = some v ∧
      v.cpu.mem.load (b.fiber + fiberStatusOffset) = statusExited ∧
      v.cpu.mem.load ((exitOf w.cpu.mem b.fiber).sched + schedCurrentFiberOffset) =
        (exitOf w.cpu.mem b.fiber).parent ∧
      ∀ x ∈ v.contexts,
        w.cpu.mem.load ((exitOf w.cpu.mem b.fiber).parent + fiberStackPtrOffset) = x.pointer →
        x.Resumed exitAddress v.cpu (w.cpu.regs .rax)

/-- However calls of the routines and other code follow each other, every switch lands rightly. -/
theorem switches_land {cpu : Cpu} {moves : List Move} {w : World}
    (run : Runs exitAddress (start cpu) moves w) : SwitchesLand exitAddress w where
  inits ret v stepped := by
    obtain rfl := Option.some.inj stepped
    have same : ∀ reg, reg ≠ .rsp → (w.cpu.push ret).regs reg = w.cpu.regs reg := by
      intro reg apart
      simp [Cpu.push, Cpu.set_regs, apart]
    obtain ⟨_, _, result⟩ := @inited_spec exitAddress (w.cpu.push ret)
    simp only [same .rdi (by decide), same .rsi (by decide), same .rdx (by decide)] at result ⊢
    exact ⟨result, by simp, by simp⟩
  waits _ _ stepped apart := swap_waits stepped apart
  swaps _ _ stepped _ waiting target := swap_lands (runs_inv run) stepped waiting target
  exits _ present here apart := exit_lands (runs_inv run) present here apart

/-- A processor about to set up a fiber, whose stack ends at its own address. -/
def settingUp : Cpu where
  regs
    | .rdi => 0x10000
    | .rsi => 0x400000
    | .rdx => 0x777
    | .rsp => 0x80000
    | _ => 0
  flags := 0x202
  rip := 0x500000
  mem := Memory.store (fun _ => 0) 0x10010 0x10000

/-- The world in which that fiber has been set up. -/
def setUp : World := ((start settingUp).step 0x401000 (.init 0x500010)).getD (start settingUp)

/-- The processor about to switch to that fiber. -/
def switching : Cpu :=
  ((setUp.cpu.set .rdi (setUp.cpu.regs .rax)).set .rsi 0x20020).set .rdx 5

/-- A switch to a fiber just set up begins its procedure, with the parameter in `rdi`. -/
theorem switches_land_entry :
    ∃ v, (setUp.goOn 0x401000 switching).step 0x401000 (.swap 0x500020) = some v ∧
      v.cpu.rip = 0x400000 ∧ v.cpu.regs .rdi = 0x777 := by
  -- The fiber waits where it has been set up, as nothing else is written.
  have first : Runs 0x401000 (start settingUp) [.init 0x500010] setUp :=
    .next (.start _) trivial rfl
  have run : Runs 0x401000 (start settingUp) [.init 0x500010, .other switching]
      (setUp.goOn 0x401000 switching) := .next first trivial rfl
  obtain ⟨pointer, waiting, _⟩ := (switches_land (.start _)).inits 0x500010 setUp rfl
  refine ⟨_, rfl, ?_⟩
  have landed := (switches_land run).swaps 0x500020 _ rfl _ ?_ pointer
  · exact ⟨landed.1, landed.2.1⟩
  · refine mem_restore.mpr (mem_goOn.mpr ⟨List.mem_append_left _ (mem_goOn.mpr ⟨mem_goOn.mpr
      ⟨waiting, ?_⟩, ?_⟩), ?_⟩)
    all_goals decide +kernel

end World

end SimpleSrv.Ef.Amd64
