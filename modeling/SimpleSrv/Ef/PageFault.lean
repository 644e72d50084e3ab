import SimpleSrv.Ef.StackLaws
import SimpleSrv.Lib.Requests

/-! A process that runs fibers, and the handler of its page faults. -/

namespace SimpleSrv.Ef

open Amd64 (Cpu Instr)

/-- The stack of `thread_fiber`, which nobody sets up: its scheduler is a static object. -/
def threadFiber : FiberStack := ⟨0, 0, 0, 0, 0⟩

/-- A process whose thread runs fibers. -/
structure Process where
  cpu : Cpu
  /-- Which bytes may be read and written. -/
  access : Word → Bool
  /-- The fibers by their numbers, with the fields that the handler of the page faults needs. -/
  fibers : Nat → Option FiberStack := fun _ => none
  /-- `current_fiber`, if it is not `thread_fiber`. -/
  current : Option Nat := none
  /-- `SIGABRT` has ended the process. -/
  aborted : Bool := false

/-- The bytes of a region in their order. -/
def bytes (a : Word) (size : Nat) : List Word :=
  (List.range size).map fun i => a + BitVec.ofNat 64 i

namespace Process

/-- The stack of `current_fiber`. -/
def currentFiber (s : Process) : FiberStack := (s.current.bind s.fibers).getD threadFiber

/-- The stack of `current_fiber` has been expanded. -/
def expanded (s : Process) (after : Stack) : Process :=
  { s with
    access := after.access
    fibers := match s.current with
      | some k => Function.update s.fibers k (some after.fiber)
      | none => s.fibers }

end Process

/-- `ef_fiber_sigsegv_handler`, for a signal that it is meant for, unless it aborts. -/
def efFiberSigsegvHandler (page : PageSize) (s : Process) (siAddr : Word) (mprotected : Bool) :
    Option Process :=
  let (after, retval) := efFiberExpandStack page ⟨s.currentFiber, s.access⟩ siAddr mprotected
  if retval < 0 then none else some (s.expanded after)

/-- What happens to a process. -/
inductive StackOp (page : PageSize) where
  /-- `ef_fiber_create`, given how the kernel answers. -/
  | create (k : Nat) (mmap : (size : Word) → Option (Area page size)) (mprotected : Bool)
      (stackSize headerSize : Word)
  /-- `ef_fiber_delete`. -/
  | delete (k : Nat)
  /-- `current_fiber` is set by `ef_fiber_resume`, `ef_fiber_yield` or `_ef_fiber_exit`. -/
  | setCurrent (next : Option Nat)
  /-- An instruction is executed that reads and writes these bytes, with how `mprotect` answers. -/
  | execute (a : Word) (size : Nat) (effect : Cpu → Cpu) (mprotected : Bool)

namespace Process

variable (page : PageSize)

/-- The running code touches a byte. -/
def touch (mprotected : Bool) (s : Process) (a : Word) : Option Process :=
  if s.access a then some s else efFiberSigsegvHandler page s a mprotected

/-- One step, in which an instruction begins anew behind each page fault. -/
def step (s : Process) (op : StackOp page) : Option Process :=
  if s.aborted then some s
  else match op with
    | .create k mmap mprotected stackSize headerSize =>
      match efFiberCreate page mmap mprotected s.access stackSize headerSize with
      | some new =>
        some { s with
          access := new.access
          fibers := Function.update s.fibers k (some new.fiber) }
      | none => some s
    | .delete k =>
      (s.fibers k).map fun fiber =>
        { s with
          access := setAccess s.access fiber.stackArea fiber.stackSize false
          fibers := Function.update s.fibers k none }
    | .setCurrent next => some { s with current := next }
    | .execute a size effect mprotected =>
      -- Bytes that it could touch before the fault are there still, so it goes on with the others.
      match SimpleSrv.execute (touch page mprotected) (fun _ _ => True) s (bytes a size) with
      | some t => some { t with cpu := effect t.cpu }
      | none => some { s with aborted := true }

end Process

/-- A byte of the area of a fiber. -/
def FiberStack.Inside (f : FiberStack) (a : Word) : Prop :=
  f.stackArea.toNat ≤ a.toNat ∧ a.toNat < f.stackArea.toNat + f.stackSize.toNat

/-- The area of a fiber, from its start on so many bytes. -/
def FiberStack.area (f : FiberStack) : Word × Word := (f.stackArea, f.stackSize)

/-- A byte that is not mapped yet, above the guard page. -/
def FiberStack.Reserved (page : PageSize) (f : FiberStack) (a : Word) : Prop :=
  f.stackArea.toNat + page.bytes.toNat ≤ a.toNat ∧ a.toNat < f.stackLower.toNat

/-- The kernel maps new areas where nothing is mapped, and a fiber that runs is not deleted. -/
def Process.Permitted (page : PageSize) (s : Process) : StackOp page → Prop
  | .create k mmap _ _ headerSize =>
    s.fibers k = none ∧ headerSize.toNat + 128 ≤ page.bytes.toNat ∧
      ∀ size (area : Area page size), mmap size = some area →
        ∀ a : Word, area.start.toNat ≤ a.toNat → a.toNat < area.start.toNat + size.toNat →
          s.access a = false ∧ ∀ l f, s.fibers l = some f → ¬ f.Inside a
  | .delete k => s.current ≠ some k
  | .setCurrent next => ∀ k, next = some k → s.fibers k ≠ none
  | .execute .. => True

/-- What is true of every stack, and of the memory around them. -/
structure Process.Inv (page : PageSize) (start : Word → Bool) (s : Process) : Prop where
  inOrder : ∀ k f, s.fibers k = some f → StackInv page ⟨f, s.access⟩
  apart : ∀ k l f g a, s.fibers k = some f → s.fibers l = some g → f.Inside a → g.Inside a → k = l
  live : ∀ k, s.current = some k → s.fibers k ≠ none
  /-- Nothing had been mapped where a stack is. -/
  fresh : ∀ k f a, s.fibers k = some f → f.Inside a → start a = false
  outside : ∀ a, (∀ k f, s.fibers k = some f → ¬ f.Inside a) → s.access a = start a

/-- A byte that the running code may touch. -/
def Process.CanTouch (page : PageSize) (mprotected : Bool) (s : Process) (a : Word) : Prop :=
  s.access a = true ∨ s.currentFiber.Reserved page a ∧ mprotected = true

/-- A byte that is mapped, or can be mapped some day. -/
def Process.Available (page : PageSize) (s : Process) (a : Word) : Prop :=
  s.access a = true ∨ ∃ k f, s.fibers k = some f ∧ f.Reserved page a

variable {page : PageSize} {start : Word → Bool} {s t : Process} {k : Nat} {f : FiberStack}
  {access other : Word → Bool} {a b : Word} {mprotected : Bool}

/-- A stack in order stays so as long as its own bytes do. -/
theorem StackInv.congr (inv : StackInv page ⟨f, access⟩)
    (same : ∀ a, f.Inside a → other a = access a) : StackInv page ⟨f, other⟩ :=
  ⟨inv.areaAligned, inv.aligned, inv.area, inv.above, inv.below, inv.inside, inv.low,
    fun a first last => by
      have kept : other a = access a := same a ⟨first, last⟩
      show other a = true ↔ _
      rw [kept]
      exact inv.mapped a first last⟩

/-- What is reserved lies in the area. -/
theorem StackInv.inside_of_reserved (inv : StackInv page ⟨f, access⟩)
    (reserved : f.Reserved page a) : f.Inside a := by
  -- The boundary is never above the end of the area.
  have inside := inv.inside
  obtain ⟨first, last⟩ := reserved
  simp only at inside
  exact ⟨by omega, by omega⟩

/-- The bytes that an expansion maps, all of which were reserved. -/
theorem StackInv.expanded_access (inv : StackInv page ⟨f, access⟩) (reserved : f.Reserved page a)
    (b : Word) : (Stack.expanded page ⟨f, access⟩ a).access b = true ↔
      access b = true ∨ (alignDown page a).toNat ≤ b.toNat ∧ b.toNat < f.stackLower.toNat := by
  -- The expansion allows a whole region, which does not wrap around.
  have inside := inv.inside
  have low := inv.low
  have lower := le_alignDown_iff inv.aligned a
  simp only at inside low lower
  obtain ⟨first, last⟩ := reserved
  have size : (f.stackLower - alignDown page a).toNat =
      f.stackLower.toNat - (alignDown page a).toNat := by
    rw [BitVec.toNat_sub_of_le]
    rw [BitVec.le_def]
    omega
  have fits : (alignDown page a).toNat + (f.stackLower - alignDown page a).toNat ≤ 2 ^ 63 := by
    omega
  have region := toNat_sub_lt_iff b fits
  simp only [Stack.expanded, setAccess]
  split
  · rename_i new
    have new := region.mp new
    simp only [true_iff]
    omega
  · rename_i old
    rw [region] at old
    constructor
    · exact .inl
    · rintro (before | new)
      · exact before
      · omega

/-- The thread's own stack is not one that grows. -/
theorem threadFiber_reserved : ¬ threadFiber.Reserved page a := fun reserved =>
  absurd reserved.2 (Nat.not_lt_zero _)

namespace Process

/-- The fiber that runs, if it is not the thread. -/
theorem currentFiber_of_some (running : s.current = some k) (own : s.fibers k = some f) :
    s.currentFiber = f := by
  simp [currentFiber, running, own]

/-- The stack of the fiber that runs has been expanded down to this byte. -/
def grown (page : PageSize) (s : Process) (f : FiberStack) (a : Word) : Process :=
  s.expanded (Stack.expanded page ⟨f, s.access⟩ a)

/-- The handler maps what is reserved on the stack of the fiber that runs. -/
theorem handler_serves (inv : s.Inv page start) (running : s.current = some k)
    (own : s.fibers k = some f) (reserved : f.Reserved page a) :
    efFiberSigsegvHandler page s a true = some (s.grown page f a) := by
  -- What is reserved is just what the handler can expand to.
  classical
  have served : Stack.Expandable page ⟨f, s.access⟩ a ∧ true = true := ⟨reserved, rfl⟩
  rw [efFiberSigsegvHandler, currentFiber_of_some running own,
    efFiberExpandStack_eq (inv.inOrder k f own), if_pos served]
  rfl

/-- It aborts on everything else, be it reserved on another stack. -/
theorem handler_aborts (inv : s.Inv page start)
    (none_ : ¬ (s.currentFiber.Reserved page a ∧ mprotected = true)) :
    efFiberSigsegvHandler page s a mprotected = none := by
  -- The thread has no stack to expand, while a fiber is judged by its own.
  classical
  cases running : s.current with
  | none =>
    -- The boundary of the thread's own stack is the null pointer, and nothing lies below that.
    have thread : s.currentFiber = threadFiber := by simp [currentFiber, running]
    rw [efFiberSigsegvHandler, thread, efFiberExpandStack,
      if_neg fun both => Nat.not_lt_zero _ both.2]
    rfl
  | some k =>
    obtain ⟨f, own⟩ := Option.ne_none_iff_exists'.mp (inv.live k running)
    rw [currentFiber_of_some running own] at none_
    have refused : ¬ (Stack.Expandable page ⟨f, s.access⟩ a ∧ mprotected = true) := none_
    rw [efFiberSigsegvHandler, currentFiber_of_some running own,
      efFiberExpandStack_eq (inv.inOrder k f own), if_neg refused]
    rfl

/-- What page faults that have been served leave as it was. -/
structure Grown (page : PageSize) (s t : Process) : Prop where
  cpu : t.cpu = s.cpu
  current : t.current = s.current
  aborted : t.aborted = s.aborted
  areas : ∀ l, (t.fibers l).map FiberStack.area = (s.fibers l).map FiberStack.area
  available : ∀ a, t.Available page a ↔ s.Available page a

namespace Grown

/-- Nothing has happened. -/
theorem refl (s : Process) : Grown page s s :=
  ⟨rfl, rfl, rfl, fun _ => rfl, fun _ => Iff.rfl⟩

/-- Two times are one. -/
theorem trans {u : Process} (first : Grown page s t) (second : Grown page t u) :
    Grown page s u :=
  ⟨second.cpu.trans first.cpu, second.current.trans first.current,
    second.aborted.trans first.aborted, fun l => (second.areas l).trans (first.areas l),
    fun a => (second.available a).trans (first.available a)⟩

end Grown

/-- The areas tell which bytes are inside. -/
theorem inside_of_area {g : FiberStack} (same : g.area = f.area) (a : Word) :
    g.Inside a ↔ f.Inside a := by
  obtain ⟨area, size⟩ := Prod.mk.inj same
  rw [FiberStack.Inside, FiberStack.Inside, area, size]

/-- A fiber had the same area before. -/
theorem exists_of_areas
    (areas : ∀ l, (t.fibers l).map FiberStack.area = (s.fibers l).map FiberStack.area)
    {l : Nat} {g : FiberStack} (here : t.fibers l = some g) :
    ∃ f, s.fibers l = some f ∧ ∀ a, g.Inside a ↔ f.Inside a := by
  -- Both have the same numbers in use, so the one is found by the other's area.
  have same := areas l
  rw [here] at same
  obtain ⟨f, before, area⟩ := Option.map_eq_some_iff.mp same.symm
  exact ⟨f, before, inside_of_area area.symm⟩

/-- Only reserved bytes of one stack have been mapped. -/
theorem Inv.of_areas (inv : s.Inv page start) (current : t.current = s.current)
    (areas : ∀ l, (t.fibers l).map FiberStack.area = (s.fibers l).map FiberStack.area)
    (inOrder : ∀ l g, t.fibers l = some g → StackInv page ⟨g, t.access⟩)
    (outside : ∀ a, (∀ l g, t.fibers l = some g → ¬ g.Inside a) → t.access a = s.access a) :
    t.Inv page start where
  inOrder := inOrder
  -- Each part speaks of areas, which are the same as before.
  apart k l f g a first second := by
    obtain ⟨f', before, inside⟩ := exists_of_areas areas first
    obtain ⟨g', also, there⟩ := exists_of_areas areas second
    rw [inside, there]
    exact inv.apart k l f' g' a before also
  live k running none := by
    have same := areas k
    rw [none, Option.map_none, eq_comm, Option.map_eq_none_iff] at same
    exact inv.live k (current ▸ running) same
  fresh k f a first := by
    obtain ⟨f', before, inside⟩ := exists_of_areas areas first
    rw [inside]
    exact inv.fresh k f' a before
  outside a away := by
    refine (outside a away).trans (inv.outside a fun k f before inside => ?_)
    have same := areas k
    rw [before] at same
    obtain ⟨g, here, area⟩ := Option.map_eq_some_iff.mp same
    exact away k g here ((inside_of_area area a).mpr inside)

/-- Which bytes are there behind a page fault. -/
theorem grown_access (inv : s.Inv page start) (own : s.fibers k = some f)
    (reserved : f.Reserved page a) (b : Word) : (s.grown page f a).access b = true ↔
      s.access b = true ∨ (alignDown page a).toNat ≤ b.toNat ∧ b.toNat < f.stackLower.toNat :=
  (inv.inOrder k f own).expanded_access reserved b

/-- A page fault moves the boundary of the one stack, and no area. -/
theorem grown_areas (running : s.current = some k) (own : s.fibers k = some f) (l : Nat) :
    ((s.grown page f a).fibers l).map FiberStack.area = (s.fibers l).map FiberStack.area := by
  -- Only one entry is written, and its area is kept.
  simp only [grown, expanded, running]
  by_cases same : l = k
  · subst same
    rw [Function.update_self, own]
    rfl
  · rw [Function.update_of_ne same]

/-- The stack of the fiber that runs, with its new boundary. -/
theorem grown_own (running : s.current = some k) :
    (s.grown page f a).fibers k = some { f with stackLower := alignDown page a } := by
  simp [grown, expanded, running, Stack.expanded]

/-- The other stacks have their old boundaries. -/
theorem grown_other (running : s.current = some k) {l : Nat} (apart : l ≠ k) :
    (s.grown page f a).fibers l = s.fibers l := by
  simp only [grown, expanded, running, Function.update_of_ne apart]

/-- A page fault is served above the guard page. -/
theorem le_boundary (inv : s.Inv page start) (own : s.fibers k = some f)
    (reserved : f.Reserved page a) :
    f.stackArea.toNat + page.bytes.toNat ≤ (alignDown page a).toNat := by
  -- Guard pages are whole pages, so rounding down does not lead into one.
  have first : (f.stackArea.toNat + page.bytes.toNat) % page.bytes.toNat = 0 := by
    rw [Nat.add_mod_right]
    exact (inv.inOrder k f own).areaAligned
  exact (le_alignDown_iff first a).mpr reserved.1

/-- What is mapped by a page fault belongs to the stack of the fiber that runs. -/
theorem inside_of_new (inv : s.Inv page start) (own : s.fibers k = some f)
    (reserved : f.Reserved page a)
    (new : (alignDown page a).toNat ≤ b.toNat ∧ b.toNat < f.stackLower.toNat) : f.Inside b :=
  (inv.inOrder k f own).inside_of_reserved
    ⟨Nat.le_trans (le_boundary inv own reserved) new.1, new.2⟩

/-- All stacks stay in order. -/
theorem grown_inv (inv : s.Inv page start) (running : s.current = some k)
    (own : s.fibers k = some f) (reserved : f.Reserved page a) :
    (s.grown page f a).Inv page start := by
  -- The stack that grows is in order by itself, and the others do not notice.
  refine inv.of_areas rfl (grown_areas running own) ?_ ?_
  · intro l g here
    by_cases same : l = k
    · subst same
      obtain rfl := Option.some.inj ((grown_own running).symm.trans here)
      exact (inv.inOrder l f own).expanded reserved
    · -- The bytes that are mapped are not those of another stack.
      rw [grown_other running same] at here
      refine (inv.inOrder l g here).congr fun b inside => ?_
      rw [Bool.eq_iff_iff, grown_access inv own reserved]
      refine ⟨fun there => there.resolve_right fun new => same ?_, .inl⟩
      exact inv.apart l k g f b here own inside (inside_of_new inv own reserved new)
  · intro b away
    rw [Bool.eq_iff_iff, grown_access inv own reserved]
    refine ⟨fun there => there.resolve_right fun new => ?_, .inl⟩
    have inside : f.Inside b := inside_of_new inv own reserved new
    exact away k _ (grown_own running) inside

/-- What was mapped or reserved on the stack is so still. -/
theorem grown_own_iff (inv : s.Inv page start) (own : s.fibers k = some f)
    (reserved : f.Reserved page a) (b : Word) :
    ((s.grown page f a).access b = true ∨
      FiberStack.Reserved page { f with stackLower := alignDown page a } b) ↔
    (s.access b = true ∨ f.Reserved page b) := by
  -- Between the two boundaries, what was reserved has been mapped.
  have lowest := le_boundary inv own reserved
  have boundary : (alignDown page a).toNat = a.toNat - a.toNat % page.bytes.toNat :=
    toNat_alignDown a
  have under := reserved.2
  rw [grown_access inv own reserved, or_assoc]
  refine or_congr_right ?_
  unfold FiberStack.Reserved
  simp only
  omega

/-- The fiber that runs can touch the same bytes as before. -/
theorem grown_canTouch (inv : s.Inv page start) (running : s.current = some k)
    (own : s.fibers k = some f) (reserved : f.Reserved page a) (b : Word) :
    (s.grown page f a).CanTouch page true b ↔ s.CanTouch page true b := by
  -- Of the two stacks, both the old and the new are those of the fiber that runs.
  have after : (s.grown page f a).currentFiber = { f with stackLower := alignDown page a } :=
    currentFiber_of_some running (grown_own running)
  rw [CanTouch, CanTouch, after, currentFiber_of_some running own, and_iff_left rfl,
    and_iff_left rfl]
  exact grown_own_iff inv own reserved b

/-- What is available stays so, and nothing else becomes it. -/
theorem grown_available (inv : s.Inv page start) (running : s.current = some k)
    (own : s.fibers k = some f) (reserved : f.Reserved page a) (b : Word) :
    (s.grown page f a).Available page b ↔ s.Available page b := by
  -- Each direction asks whether the byte belongs to the stack that has grown.
  have mine := grown_own_iff inv own reserved b
  constructor
  · rintro (there | ⟨l, g, here, waits⟩)
    · exact (mine.mp (.inl there)).imp_right fun before => ⟨k, f, own, before⟩
    · by_cases same : l = k
      · subst same
        obtain rfl := Option.some.inj ((grown_own running).symm.trans here)
        exact (mine.mp (.inr waits)).imp_right fun before => ⟨l, f, own, before⟩
      · exact .inr ⟨l, g, grown_other running same ▸ here, waits⟩
  · rintro (there | ⟨l, g, before, waits⟩)
    · exact .inl ((grown_access inv own reserved b).mpr (.inl there))
    · by_cases same : l = k
      · subst same
        obtain rfl := Option.some.inj (own.symm.trans before)
        exact (mine.mpr (.inr waits)).imp_right fun there => ⟨l, _, grown_own running, there⟩
      · exact .inr ⟨l, g, (grown_other running same).trans before, waits⟩

/-- Only a fiber with a stack of its own has reserved bytes. -/
theorem running_of_reserved (inv : s.Inv page start) (reserved : s.currentFiber.Reserved page a) :
    ∃ k f, s.current = some k ∧ s.fibers k = some f ∧ f.Reserved page a := by
  -- The boundary of the thread is zero, so nothing is below it.
  cases running : s.current with
  | none =>
    have thread : s.currentFiber = threadFiber := by simp [currentFiber, running]
    rw [thread] at reserved
    exact absurd reserved threadFiber_reserved
  | some k =>
    obtain ⟨f, own⟩ := Option.ne_none_iff_exists'.mp (inv.live k running)
    rw [currentFiber_of_some running own] at reserved
    exact ⟨k, f, rfl, own, reserved⟩

/-- What touching a byte does, if it does not abort. -/
theorem touch_cases (inv : s.Inv page start) (touched : s.touch page mprotected a = some t) :
    (s.access a = true ∧ t = s) ∨ mprotected = true ∧ ∃ k f, s.current = some k ∧
      s.fibers k = some f ∧ f.Reserved page a ∧ t = s.grown page f a := by
  -- Either there is no page fault, or the handler serves it.
  unfold touch at touched
  split at touched
  · rename_i there
    exact .inl ⟨there, (Option.some.inj touched).symm⟩
  · by_cases served : s.currentFiber.Reserved page a ∧ mprotected = true
    · obtain ⟨reserved, rfl⟩ := served
      obtain ⟨k, f, running, own, reserved⟩ := running_of_reserved inv reserved
      rw [handler_serves inv running own reserved] at touched
      exact .inr ⟨rfl, k, f, running, own, reserved, (Option.some.inj touched).symm⟩
    · rw [handler_aborts inv served] at touched
      cases touched

/-- Bytes are touched independently of each other, as the page fault of one serves no other ill. -/
theorem touch_independent (page : PageSize) (start : Word → Bool) (mprotected : Bool) :
    Independent (touch page mprotected) (Inv page start) (CanTouch page mprotected) where
  -- A byte that is there needs no handler.
  able s a inv := by
    constructor
    · rintro ⟨t, touched⟩
      rcases touch_cases inv touched with ⟨there, _⟩ | ⟨rfl, k, f, running, own, reserved, _⟩
      · exact .inl there
      · exact .inr ⟨currentFiber_of_some running own ▸ reserved, rfl⟩
    · rintro (there | ⟨reserved, rfl⟩)
      · exact ⟨s, by simp [touch, there]⟩
      · obtain ⟨k, f, running, own, reserved⟩ := running_of_reserved inv reserved
        unfold touch
        split
        · exact ⟨s, rfl⟩
        · exact ⟨_, handler_serves inv running own reserved⟩
  kept s a t inv touched := by
    rcases touch_cases inv touched with ⟨_, rfl⟩ | ⟨rfl, k, f, running, own, reserved, rfl⟩
    · exact inv
    · exact grown_inv inv running own reserved
  same s a t inv touched b := by
    rcases touch_cases inv touched with ⟨_, rfl⟩ | ⟨rfl, k, f, running, own, reserved, rfl⟩
    · exact Iff.rfl
    · exact grown_canTouch inv running own reserved b

/-- Touching a byte leaves the processor and the areas as they were. -/
theorem Grown.of_touch (inv : s.Inv page start) (touched : s.touch page mprotected a = some t) :
    Grown page s t := by
  rcases touch_cases inv touched with ⟨_, rfl⟩ | ⟨rfl, k, f, running, own, reserved, rfl⟩
  · exact .refl _
  · exact ⟨rfl, rfl, rfl, grown_areas running own, grown_available inv running own reserved⟩

/-- What an instruction leaves behind that has touched its bytes. -/
structure Touched (page : PageSize) (start : Word → Bool) (mprotected : Bool) (s t : Process) :
    Prop where
  inv : t.Inv page start
  grown : Grown page s t
  canTouch : ∀ b, t.CanTouch page mprotected b ↔ s.CanTouch page mprotected b

/-- Touching any number of bytes is touching one after the other. -/
theorem Touched.of_execute {as : List Word} (inv : s.Inv page start)
    (touched : execute (touch page mprotected) (fun _ _ => True) s as = some t) :
    Touched page start mprotected s t := by
  -- What holds after one byte is carried along the others.
  have independent := touch_independent page start mprotected
  refine (Run.of_execute touched).invariant ⟨inv, .refl s, fun _ => Iff.rfl⟩ ?_
  rintro u a v ⟨inv, grown, same⟩ _ touched
  exact ⟨independent.kept u a v inv touched, grown.trans (.of_touch inv touched),
    fun b => (independent.same u a v inv touched b).trans (same b)⟩

/-- What the running code may touch is available. -/
theorem available_of_canTouch (inv : s.Inv page start) (can : s.CanTouch page mprotected a) :
    s.Available page a := by
  refine can.imp_right fun ⟨reserved, _⟩ => ?_
  obtain ⟨k, f, _, own, reserved⟩ := running_of_reserved inv reserved
  exact ⟨k, f, own, reserved⟩

end Process

end SimpleSrv.Ef
