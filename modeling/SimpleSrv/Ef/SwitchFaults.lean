import SimpleSrv.Ef.PageFaultRuns

/-! A switch of stacks whose frame does not fit into what is mapped of the stack that is left. -/

namespace SimpleSrv.Ef

namespace Amd64

/-- The word of memory that an instruction reads or writes. -/
def Instr.place (c : Cpu) : Instr → Option Word
  | .load offset base _ => some (c.regs base + offset)
  | .store _ offset base => some (c.regs base + offset)
  | .push _ | .pushfq => some (c.regs .rsp - 8)
  | .pop _ | .popfq | .ret => some (c.regs .rsp)
  | .mov .. | .movImm .. | .lea .. | .xor .. | .sub .. => none

/-- The words that a routine reads or writes, in their order. -/
def Cpu.places (c : Cpu) : List Instr → List Word
  | [] => []
  | i :: rest => (i.place c).toList ++ (c.step i).places rest

end Amd64

open Amd64

variable {page : PageSize} {start : Word → Bool} {s t : Process} {k : Nat} {f : FiberStack}
  {c : Cpu} {mprotected : Bool} {a ret : Word} {next : Option Nat} {ops : List (StackOp page)}

/-- An instruction, as a step of the process. -/
def instrOp (page : PageSize) (mprotected : Bool) (c : Cpu) (i : Instr) : StackOp page :=
  match i.place c with
  | some a => .execute a 8 (fun c => c.step i) mprotected
  | none => .execute 0 0 (fun c => c.step i) mprotected

/-- The instructions of a routine, which is called with this processor. -/
def codeOps (page : PageSize) (mprotected : Bool) (c : Cpu) : List Instr → List (StackOp page)
  | [] => []
  | i :: rest => instrOp page mprotected c i :: codeOps page mprotected (c.step i) rest

/-- A switch: `current_fiber` is set, and then `ef_fiber_internal_swap` is called. -/
def switchOps (page : PageSize) (mprotected : Bool) (c : Cpu) (next : Option Nat) (ret : Word) :
    List (StackOp page) :=
  .setCurrent next :: .execute (c.regs .rsp - 8) 8 (fun c => c.push ret) mprotected ::
    codeOps page mprotected (c.push ret) Amd64.efFiberInternalSwap

/-- The words of a routine in two parts. -/
theorem places_append (c : Cpu) (first second : List Instr) :
    c.places (first ++ second) = c.places first ++ (c.exec first).places second := by
  -- The second part is called with what the first one leaves behind.
  induction first generalizing c with
  | nil => rfl
  | cons i rest ih => simp [Cpu.places, ih, Cpu.exec]

/-- Saving goes down the stack. -/
theorem places_save (c : Cpu) : c.places efFiberSave =
    (List.range 13).map fun i => c.regs .rsp - BitVec.ofNat 64 (8 * (i + 1)) := by
  -- Each push is eight bytes below the one before.
  simp [efFiberSave, Cpu.places, Instr.place, Cpu.step, Cpu.push, Cpu.set_regs, List.range_succ,
    BitVec.sub_sub]

/-- Leaving writes to the place for the stack pointer. -/
theorem places_leave (c : Cpu) : c.places efFiberLeave = [c.regs .rsi] := by
  simp [efFiberLeave, Cpu.places, Instr.place]

/-- Restoring goes up the other stack. -/
theorem places_restore (c : Cpu) : c.places efFiberRestore =
    (List.range 14).map fun i => c.regs .rsp + BitVec.ofNat 64 (8 * i) := by
  -- Each pop is eight bytes above the one before.
  simp [efFiberRestore, Cpu.places, Instr.place, Cpu.step, Cpu.drop, Cpu.set_regs,
    List.range_succ, BitVec.add_assoc]

/-- The bytes of a region are those that lie close enough behind its start. -/
theorem mem_bytes {a b : Word} {size : Nat} (small : size ≤ 2 ^ 64) :
    b ∈ bytes a size ↔ (b - a).toNat < size := by
  -- An offset that fits a word is not changed by being one.
  unfold bytes
  simp only [List.mem_map, List.mem_range]
  constructor
  · rintro ⟨i, inside, rfl⟩
    have offset : a + BitVec.ofNat 64 i - a = BitVec.ofNat 64 i := by
      rw [BitVec.add_comm, BitVec.add_sub_cancel]
    rw [offset, BitVec.toNat_ofNat, Nat.mod_eq_of_lt (by omega)]
    exact inside
  · intro inside
    refine ⟨(b - a).toNat, inside, ?_⟩
    rw [BitVec.ofNat_toNat, BitVec.setWidth_eq, BitVec.add_comm, BitVec.sub_add_cancel]

/-- A region that consists of whole words. -/
theorem mem_bytes_words {a b : Word} {count : Nat} (small : 8 * count ≤ 2 ^ 64) :
    b ∈ bytes a (8 * count) ↔ ∃ i < count, b ∈ bytes (a + BitVec.ofNat 64 (8 * i)) 8 := by
  rw [mem_bytes small]
  -- The word is found by dividing the offset.
  have word : ∀ i < count, b ∈ bytes (a + BitVec.ofNat 64 (8 * i)) 8 ↔
      8 * i ≤ (b - a).toNat ∧ (b - a).toNat < 8 * i + 8 := by
    intro i inside
    rw [mem_bytes (by decide)]
    bv_omega
  constructor
  · intro inside
    have low : (b - a).toNat / 8 < count := by omega
    exact ⟨(b - a).toNat / 8, low, (word _ low).mpr (by omega)⟩
  · rintro ⟨i, low, inside⟩
    have inside := (word i low).mp inside
    omega

namespace Process

/-- What becomes of a process whose next instructions touch these bytes. -/
structure Outcome (page : PageSize) (mprotected : Bool) (s : Process) (c : Cpu)
    (touched : List Word) (t : Process) : Prop where
  aborts : t.aborted = true ↔ ∃ b ∈ touched, ¬ s.CanTouch page mprotected b
  lands : t.aborted = false → t.cpu = c

/-- An instruction is executed as a whole, or it aborts the process. -/
theorem execute_outcome (inv : s.Inv page start) (alive : s.aborted = false) (a : Word)
    (size : Nat) (effect : Cpu → Cpu) :
    ∃ t, s.step page (.execute a size effect mprotected) = some t ∧ t.Inv page start ∧
      Outcome page mprotected s (effect s.cpu) (bytes a size) t ∧
      (t.aborted = false →
        ∀ b, t.CanTouch page mprotected b ↔ s.CanTouch page mprotected b) := by
  -- Either all bytes can be touched, or there is one that cannot.
  have all := (touch_independent page start mprotected).execute_iff inv (bytes a size)
  cases touched : execute (touch page mprotected) (fun _ _ => True) s (bytes a size) with
  | none =>
    have stepped : s.step page (.execute a size effect mprotected) =
        some { s with aborted := true } := by
      simp [Process.step, alive, touched]
    have cannot : ∃ b ∈ bytes a size, ¬ s.CanTouch page mprotected b := by
      by_contra can
      push Not at can
      obtain ⟨u, served⟩ := all.mpr can
      rw [touched] at served
      cases served
    have permitted : s.Permitted page (.execute a size effect mprotected) := trivial
    exact ⟨_, stepped, inv.step permitted stepped,
      ⟨by simpa using cannot, fun going => by cases going⟩, fun going => by cases going⟩
  | some u =>
    have stepped : s.step page (.execute a size effect mprotected) =
        some { u with cpu := effect u.cpu } := by
      simp [Process.step, alive, touched]
    obtain ⟨_, grown, same⟩ := Touched.of_execute inv touched
    have can := all.mp ⟨u, touched⟩
    have permitted : s.Permitted page (.execute a size effect mprotected) := trivial
    refine ⟨_, stepped, inv.step permitted stepped, ⟨?_, fun _ => by simp [grown.cpu]⟩,
      fun _ => same⟩
    simp only [grown.aborted, alive, Bool.false_eq_true, false_iff, not_exists, not_and, not_not]
    exact can

/-- Nothing more happens to an aborted process. -/
theorem run_aborted (aborted : s.aborted = true) {ops : List (StackOp page)}
    (permitted : ∀ op ∈ ops, s.Permitted page op) :
    Run (Process.step page) (Permitted page) s ops s := by
  -- By induction on the steps.
  induction ops with
  | nil => exact .start s
  | cons op rest ih =>
    obtain ⟨first, others⟩ := List.forall_mem_cons.mp permitted
    exact .cons first (step_aborted aborted) (ih others)

/-- Instructions are always permitted. -/
theorem instrOp_permitted (s : Process) (c : Cpu) (i : Instr) :
    s.Permitted page (instrOp page mprotected c i) := by
  unfold instrOp
  split <;> trivial

/-- So are those of a routine. -/
theorem codeOps_permitted (s : Process) (c : Cpu) (code : List Instr) :
    ∀ op ∈ codeOps page mprotected c code, s.Permitted page op := by
  -- By induction on the routine.
  induction code generalizing c with
  | nil => exact List.forall_mem_nil _
  | cons i rest ih => exact List.forall_mem_cons.mpr ⟨instrOp_permitted s c i, ih (c.step i)⟩

/-- The bytes of these words. -/
def wordBytes (words : List Word) : List Word := words.flatMap fun w => bytes w 8

/-- What has been executed goes on, unless it has aborted the process. -/
theorem Outcome.cons {op : StackOp page} {d : Cpu} {first rest : List Word}
    (permitted : s.Permitted page op) (stepped : s.step page op = some t)
    (outcome : Outcome page mprotected s c first t)
    (same : t.aborted = false → ∀ b, t.CanTouch page mprotected b ↔ s.CanTouch page mprotected b)
    (allowed : ∀ op ∈ ops, t.Permitted page op)
    (later : t.aborted = false → ∃ u, Run (Process.step page) (Permitted page) t ops u ∧
      Outcome page mprotected t d rest u) :
    ∃ u, Run (Process.step page) (Permitted page) s (op :: ops) u ∧
      Outcome page mprotected s d (first ++ rest) u := by
  -- The rest only matters if the first step has not aborted the process.
  cases aborted : t.aborted with
  | true =>
    refine ⟨t, .cons permitted stepped (run_aborted aborted allowed), ?_, by simp [aborted]⟩
    obtain ⟨b, member, cannot⟩ := outcome.aborts.mp aborted
    simp only [aborted, true_iff]
    exact ⟨b, List.mem_append_left _ member, cannot⟩
  | false =>
    obtain ⟨u, ran, after⟩ := later aborted
    have none := outcome.aborts
    simp only [aborted, Bool.false_eq_true, false_iff, not_exists, not_and, not_not] at none
    refine ⟨u, .cons permitted stepped ran, ?_, after.lands⟩
    rw [after.aborts]
    constructor
    · rintro ⟨b, member, cannot⟩
      exact ⟨b, List.mem_append_right _ member, (same aborted b).not.mp cannot⟩
    · rintro ⟨b, member, cannot⟩
      rcases List.mem_append.mp member with early | late
      · exact absurd (none b early) cannot
      · exact ⟨b, late, (same aborted b).not.mpr cannot⟩

/-- A routine is executed as a whole, or one of its words aborts the process. -/
theorem code_outcome (inv : s.Inv page start) (alive : s.aborted = false) (code : List Instr) :
    ∃ t, Run (Process.step page) (Permitted page) s (codeOps page mprotected s.cpu code) t ∧
      Outcome page mprotected s (s.cpu.exec code) (wordBytes (s.cpu.places code)) t := by
  -- By induction on the routine, whose rest is called with what its first instruction leaves.
  induction code generalizing s with
  | nil => exact ⟨s, .start s, by simp [alive, wordBytes, Cpu.places], fun _ => rfl⟩
  | cons i rest ih =>
    -- An instruction without a word touches nothing.
    have one : ∃ t, s.step page (instrOp page mprotected s.cpu i) = some t ∧ t.Inv page start ∧
        Outcome page mprotected s (s.cpu.step i) (wordBytes (i.place s.cpu).toList) t ∧
        (t.aborted = false →
          ∀ b, t.CanTouch page mprotected b ↔ s.CanTouch page mprotected b) := by
      unfold instrOp wordBytes
      cases i.place s.cpu with
      | none => simpa [bytes] using execute_outcome inv alive 0 0 (fun c => c.step i)
      | some a => simpa using execute_outcome inv alive a 8 (fun c => c.step i)
    obtain ⟨t, stepped, after, outcome, same⟩ := one
    have words : wordBytes (s.cpu.places (i :: rest)) =
        wordBytes (i.place s.cpu).toList ++ wordBytes ((s.cpu.step i).places rest) :=
      List.flatMap_append
    rw [words]
    refine Outcome.cons (instrOp_permitted s s.cpu i) stepped outcome same
      (codeOps_permitted t (s.cpu.step i) rest) fun going => ?_
    have moved : t.cpu = s.cpu.step i := outcome.lands going
    have later := ih after going
    rw [moved] at later
    exact later

/-- Words that go up from an address. -/
theorem mem_words_up {a b : Word} {count : Nat} (small : 8 * count ≤ 2 ^ 64) :
    b ∈ wordBytes ((List.range count).map fun i => a + BitVec.ofNat 64 (8 * i)) ↔
      b ∈ bytes a (8 * count) := by
  rw [mem_bytes_words small]
  simp [wordBytes]

/-- Words that go down from an address. -/
theorem mem_words_down {a b : Word} {count : Nat} (small : 8 * count ≤ 2 ^ 64) :
    b ∈ wordBytes ((List.range count).map fun i => a - BitVec.ofNat 64 (8 * (i + 1))) ↔
      b ∈ bytes (a - BitVec.ofNat 64 (8 * count)) (8 * count) := by
  -- Counted from the other end, the words go up.
  rw [mem_bytes_words small]
  have turned : ∀ i < count, a - BitVec.ofNat 64 (8 * (i + 1)) =
      a - BitVec.ofNat 64 (8 * count) + BitVec.ofNat 64 (8 * (count - 1 - i)) := by
    intro i inside
    have parts : 8 * count = 8 * (i + 1) + 8 * (count - 1 - i) := by omega
    rw [parts, BitVec.ofNat_add, ← BitVec.sub_sub, BitVec.sub_add_cancel]
  simp only [wordBytes, List.mem_flatMap, List.mem_map, List.mem_range]
  constructor
  · rintro ⟨_, ⟨i, inside, rfl⟩, member⟩
    rw [turned i inside] at member
    exact ⟨count - 1 - i, by omega, member⟩
  · rintro ⟨i, inside, member⟩
    have back : count - 1 - (count - 1 - i) = i := by omega
    refine ⟨_, ⟨count - 1 - i, by omega, rfl⟩, ?_⟩
    rw [turned _ (by omega), back]
    exact member

/-- The bytes that a switch touches: below the stack pointer, the place for it, and a frame. -/
theorem mem_switch (c : Cpu) (ret b : Word) :
    b ∈ bytes (c.regs .rsp - 8) 8 ++ wordBytes ((c.push ret).places Amd64.efFiberInternalSwap) ↔
      b ∈ bytes (c.regs .rsp - 112) 112 ∨ b ∈ bytes (c.regs .rsi) 8 ∨
        b ∈ bytes (c.regs .rdi) 112 := by
  -- The call and the saved registers make one row of words, and so does the other frame.
  have down : (c.regs .rsp - 8) :: (c.push ret).places efFiberSave =
      (List.range 14).map fun i => c.regs .rsp - BitVec.ofNat 64 (8 * (i + 1)) := by
    simp [places_save, List.range_succ, Cpu.push, Cpu.set_regs, BitVec.sub_sub]
  have saved : b ∈ wordBytes ((c.regs .rsp - 8) :: (c.push ret).places efFiberSave) ↔
      b ∈ bytes (c.regs .rsp - 112) 112 := by
    rw [down]
    exact mem_words_down (show 8 * 14 ≤ 2 ^ 64 by decide)
  have restored : ∀ a, b ∈ wordBytes ((List.range 14).map fun i => a + BitVec.ofNat 64 (8 * i)) ↔
      b ∈ bytes a 112 := fun a => mem_words_up (show 8 * 14 ≤ 2 ^ 64 by decide)
  have rsi : ((c.push ret).exec efFiberSave).regs .rsi = c.regs .rsi := by
    simp [efFiberSave, Cpu.exec, Cpu.step, Cpu.push, Cpu.set_regs]
  have left : (((c.push ret).exec efFiberSave).exec efFiberLeave).regs .rsp = c.regs .rdi := by
    simp [efFiberSave, efFiberLeave, Cpu.exec, Cpu.step, Cpu.push, Cpu.set_regs]
  rw [← saved, ← restored, ← left, ← places_restore, ← rsi]
  simp [Amd64.efFiberInternalSwap, places_append, places_leave, wordBytes, or_assoc]

/-- So is the call of a routine. -/
theorem call_outcome (inv : s.Inv page start) (alive : s.aborted = false) (ret : Word)
    (code : List Instr) :
    ∃ t, Run (Process.step page) (Permitted page) s
        (.execute (s.cpu.regs .rsp - 8) 8 (fun c => c.push ret) mprotected ::
          codeOps page mprotected (s.cpu.push ret) code) t ∧
      Outcome page mprotected s (s.cpu.call ret code)
        (bytes (s.cpu.regs .rsp - 8) 8 ++ wordBytes ((s.cpu.push ret).places code)) t := by
  -- A call pushes the address behind it, and goes on as a routine.
  obtain ⟨t, stepped, after, outcome, same⟩ :=
    execute_outcome inv alive (s.cpu.regs .rsp - 8) 8 (fun c => c.push ret)
  have permitted : s.Permitted page
      (.execute (s.cpu.regs .rsp - 8) 8 (fun c => c.push ret) mprotected) := trivial
  refine Outcome.cons permitted stepped outcome same
    (codeOps_permitted t (s.cpu.push ret) code) fun going => ?_
  have moved : t.cpu = s.cpu.push ret := outcome.lands going
  have whole : s.cpu.call ret code = t.cpu.exec code := by
    rw [moved]
    rfl
  rw [whole, ← moved]
  exact code_outcome after going code

/-- What a switch comes to that leaves the stack of a fiber. -/
structure Switched (page : PageSize) (s : Process) (f : FiberStack) (ret : Word) (t : Process) :
    Prop where
  /-- Until `current_fiber` is set, every byte that the switch pushes could be touched. -/
  room : ∀ b ∈ bytes (s.cpu.regs .rsp - 112) 112, s.CanTouch page true b
  aborts_iff : t.aborted = true ↔ (s.cpu.regs .rsp).toNat < f.stackLower.toNat + 112
  lands : t.aborted = false → t.cpu = s.cpu.call ret Amd64.efFiberInternalSwap

/-- Once `current_fiber` is another one, what is reserved on the old stack cannot be touched. -/
theorem canTouch_left (inv : s.Inv page start) (own : s.fibers k = some f)
    (other : s.current ≠ some k) (inside : f.Inside a) :
    s.CanTouch page mprotected a ↔ f.stackLower.toNat ≤ a.toNat := by
  -- Being reserved on another stack would put the byte into two areas.
  rw [← (inv.inOrder k f own).mapped a inside.1 inside.2]
  refine or_iff_left ?_
  rintro ⟨reserved, _⟩
  obtain ⟨l, g, running, here, waits⟩ := running_of_reserved inv reserved
  have same := inv.apart l k g f a here own ((inv.inOrder l g here).inside_of_reserved waits) inside
  exact other (same ▸ running)

/-- Where a switch pushes, if there is room. -/
theorem mem_below {rsp : Word} (enough : 112 ≤ rsp.toNat) :
    a ∈ bytes (rsp - 112) 112 ↔ rsp.toNat ≤ a.toNat + 112 ∧ a.toNat < rsp.toNat := by
  -- There is no wrap around, as the stack pointer is large enough.
  rw [mem_bytes (by decide)]
  bv_omega

/--
A fiber with room on its stack may abort the process by leaving it: `current_fiber` is set before
the registers are pushed, and then a page fault of these pushes is not served.

No signal pushes a frame on the stack meanwhile.
-/
theorem switch_window
    (run : Run (Process.step page) (Permitted page) { cpu := c, access := start } ops s)
    (alive : s.aborted = false) (running : s.current = some k) (own : s.fibers k = some f)
    (other : next ≠ some k) (live : ∀ l, next = some l → s.fibers l ≠ none)
    (low : f.stackArea.toNat + page.bytes.toNat + 112 ≤ (s.cpu.regs .rsp).toNat)
    (high : (s.cpu.regs .rsp).toNat ≤ f.stackArea.toNat + f.stackSize.toNat)
    (place : ∀ b ∈ bytes (s.cpu.regs .rsi) 8, s.access b = true)
    (frame : ∀ b ∈ bytes (s.cpu.regs .rdi) 112, s.access b = true) :
    ∃ t, Run (Process.step page) (Permitted page) s (switchOps page mprotected s.cpu next ret) t ∧
      Switched page s f ret t := by
  have inv := Inv.of_run run
  have stack := inv.inOrder k f own
  have pushed : ∀ b ∈ bytes (s.cpu.regs .rsp - 112) 112,
      f.Inside b ∧ f.stackArea.toNat + page.bytes.toNat ≤ b.toNat := by
    intro b member
    obtain ⟨first, last⟩ := (mem_below (by omega)).mp member
    exact ⟨⟨by omega, by omega⟩, by omega⟩
  have room : ∀ b ∈ bytes (s.cpu.regs .rsp - 112) 112, s.CanTouch page true b := by
    intro b member
    obtain ⟨inside, above⟩ := pushed b member
    by_cases there : f.stackLower.toNat ≤ b.toNat
    · exact .inl ((stack.mapped b inside.1 inside.2).mpr there)
    · rw [CanTouch, currentFiber_of_some running own]
      exact .inr ⟨⟨above, Nat.not_le.mp there⟩, rfl⟩
  -- From here on `current_fiber` is the next one.
  have set : s.step page (.setCurrent next) = some { s with current := next } := by
    simp [Process.step, alive]
  have permitted : s.Permitted page (.setCurrent next) := live
  have left := inv.step permitted set
  have away : ({ s with current := next } : Process).current ≠ some k := other
  obtain ⟨t, ran, outcome⟩ := call_outcome left alive ret Amd64.efFiberInternalSwap
  refine ⟨t, .cons permitted set ran, room, ?_, outcome.lands⟩
  rw [outcome.aborts]
  simp only [mem_switch]
  constructor
  · rintro ⟨b, member | there | there, cannot⟩
    · rw [canTouch_left left own away (pushed b member).1] at cannot
      obtain ⟨first, last⟩ := (mem_below (by omega)).mp member
      omega
    · exact absurd (.inl (place b there)) cannot
    · exact absurd (.inl (frame b there)) cannot
  · intro small
    have lowest : (s.cpu.regs .rsp - 112).toNat = (s.cpu.regs .rsp).toNat - 112 := by bv_omega
    have member : s.cpu.regs .rsp - 112 ∈ bytes (s.cpu.regs .rsp - 112) 112 :=
      (mem_below (by omega)).mpr ⟨by omega, by omega⟩
    refine ⟨_, .inl member, ?_⟩
    rw [canTouch_left left own away (pushed _ member).1]
    omega

/-- The processor of a fiber that has 64 bytes left on what is mapped of its stack. -/
def lowCpu : Cpu where
  regs
    | .rsp => 0x12040
    | .rsi => 0x12fe0
    | .rdi => 0x5000
    | _ => 0
  flags := 0
  rip := 0
  mem := fun _ => 0

/-- The page in which the thread has saved its frame. -/
def threadPage : Word → Bool := fun a => (a - 0x5000).toNat < 0x1000

/-- A fiber that is about to leave three pages for the thread. -/
def leavingFirst : Process :=
  (execute (Process.step smallPage) (fun _ _ => True)
    { cpu := lowCpu, access := threadPage } threePages).getD { cpu := lowCpu, access := threadPage }

/-- The stack that it leaves. -/
def firstStack : FiberStack := ⟨12288, 0x10000, 0x12fc0, 0x12000, 0x12f40⟩

/-- It has been created apart from the page of the thread. -/
theorem leavingFirst_run : Run (Process.step smallPage) (Permitted smallPage)
    { cpu := lowCpu, access := threadPage } threePages leavingFirst := by
  -- The area begins far above the page of the thread.
  have apart : Permitted smallPage { cpu := lowCpu, access := threadPage }
      (.create 0 mmapAt true 12288 64) := by
    refine ⟨rfl, by decide, fun size area mapped a low _ => ⟨?_, fun _ _ none => by cases none⟩⟩
    obtain ⟨_, placed⟩ := Option.dite_none_right_eq_some.mp mapped
    obtain rfl := Option.some.inj placed
    have low : 0x10000 ≤ a.toNat := low
    have outside : ¬ (a - 0x5000).toNat < 0x1000 := by bv_omega
    exact decide_eq_false outside
  exact .cons apart rfl <|
    .cons (fun k same => by obtain rfl := Option.some.inj same; exact nofun) rfl <| .start _

/-- Its second page would have been mapped, had it been touched before. -/
theorem switch_window_aborts : ∃ s t : Process, s.aborted = false ∧
    (∀ b ∈ bytes (s.cpu.regs .rsp - 112) 112, s.CanTouch smallPage true b) ∧
    Run (Process.step smallPage) (Permitted smallPage) s
      (switchOps smallPage true s.cpu none 0x400000) t ∧ t.aborted = true := by
  have own : leavingFirst.fibers 0 = some firstStack := rfl
  have regs : leavingFirst.cpu = lowCpu := rfl
  have inv := Inv.of_run leavingFirst_run
  -- The place for the stack pointer is above the boundary, and the frame is nowhere near.
  have place : ∀ b ∈ bytes (0x12fe0 : Word) 8, leavingFirst.access b = true := by
    intro b member
    have close := (mem_bytes (by decide)).mp member
    have low : 0x12000 ≤ b.toNat := by bv_omega
    have high : b.toNat < 0x13000 := by bv_omega
    exact ((inv.inOrder 0 firstStack own).mapped b (show 0x10000 ≤ b.toNat by omega) high).mpr low
  have frame : ∀ b ∈ bytes (0x5000 : Word) 112, leavingFirst.access b = true := by
    intro b member
    have close := (mem_bytes (by decide)).mp member
    have below : b.toNat < 0x10000 := by bv_omega
    have there : threadPage b = true := decide_eq_true (by omega)
    refine (inv.outside b ?_).trans there
    intro k f here inside
    have fibers : leavingFirst.fibers = Function.update (fun _ => none) 0 (some firstStack) := rfl
    rw [fibers] at here
    obtain ⟨_, same⟩ := (update_eq_some.mp here).resolve_right fun none => by cases none.2
    obtain rfl := Option.some.inj same
    have above : 0x10000 ≤ b.toNat := inside.1
    omega
  have left : ∃ t, Run (Process.step smallPage) (Permitted smallPage) leavingFirst
      (switchOps smallPage true leavingFirst.cpu none 0x400000) t ∧
      Switched smallPage leavingFirst firstStack 0x400000 t :=
    switch_window leavingFirst_run rfl rfl own (by decide) (fun _ none => by cases none)
      (by rw [regs]; decide) (by rw [regs]; decide) (by rw [regs]; exact place)
      (by rw [regs]; exact frame)
  obtain ⟨t, ran, switched⟩ := left
  exact ⟨leavingFirst, t, rfl, switched.room, ran, switched.aborts_iff.mpr (by rw [regs]; decide)⟩

end Process

end SimpleSrv.Ef
