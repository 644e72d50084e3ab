import SimpleSrv.Ef.PageFault

/-! Stacks that grow on page faults, over every run, against stacks that are mapped at once. -/

namespace SimpleSrv.Ef

open Amd64 (Cpu)

variable {page : PageSize} {start access : Word → Bool} {s t : Process} {k : Nat}
  {f : FiberStack} {new : Stack} {a : Word} {op : StackOp page} {ops : List (StackOp page)}
  {mmap : (size : Word) → Option (Area page size)} {mprotected : Bool}
  {stackSize headerSize : Word} {cpu : Cpu}

/-- The area of a new fiber is the one that `mmap` has returned. -/
theorem efFiberCreate_area
    (created : efFiberCreate page mmap mprotected access stackSize headerSize = some new) :
    ∃ size area, mmap size = some area ∧ new.fiber.stackArea = area.start ∧
      new.fiber.stackSize = size := by
  -- Two conditions have to be met on the way to a result.
  obtain ⟨area, mapped, created⟩ := Option.bind_eq_some_iff.mp created
  obtain ⟨_, created⟩ := Option.ite_none_right_eq_some.mp created
  obtain rfl := Option.some.inj created
  exact ⟨_, area, mapped, rfl, rfl⟩

/-- The layout of a new fiber does not depend on what else is mapped. -/
theorem efFiberCreate_other (other : Word → Bool)
    (created : efFiberCreate page mmap mprotected access stackSize headerSize = some new) :
    ∃ made, efFiberCreate page mmap mprotected other stackSize headerSize = some made ∧
      made.fiber = new.fiber := by
  -- The fields come from the answers of the kernel only.
  obtain ⟨area, mapped, created⟩ := Option.bind_eq_some_iff.mp created
  obtain ⟨granted, created⟩ := Option.ite_none_right_eq_some.mp created
  obtain rfl := Option.some.inj created
  exact ⟨_, Option.bind_eq_some_iff.mpr ⟨area, mapped, if_pos granted⟩, rfl⟩

/-- Setting one number leaves the others as they were. -/
theorem update_eq_some {fibers : Nat → Option FiberStack} {value : Option FiberStack} {l : Nat}
    {g : FiberStack} : Function.update fibers k value l = some g ↔
      l = k ∧ value = some g ∨ l ≠ k ∧ fibers l = some g := by
  -- The number is either the one that is set, or it is not.
  by_cases same : l = k
  · subst same
    simp
  · simp [same]

/-- A stack that has been made where nothing was. -/
structure Fresh (page : PageSize) (s : Process) (k : Nat) (new : Stack) : Prop where
  unused : s.fibers k = none
  inOrder : StackInv page new
  free : ∀ a, new.fiber.Inside a → s.access a = false
  apart : ∀ a l f, new.fiber.Inside a → s.fibers l = some f → ¬ f.Inside a
  kept : ∀ a, ¬ new.fiber.Inside a → new.access a = s.access a

/-- Every new fiber has such a stack. -/
theorem Fresh.of_create
    (permitted : s.Permitted page (.create k mmap mprotected stackSize headerSize))
    (created : efFiberCreate page mmap mprotected s.access stackSize headerSize = some new) :
    Fresh page s k new := by
  -- The kernel only maps what is free, and the area is what it has mapped.
  obtain ⟨unused, room, maps⟩ := permitted
  obtain ⟨size, area, mapped, first, whole⟩ := efFiberCreate_area created
  have free : ∀ a, new.fiber.Inside a →
      s.access a = false ∧ ∀ l f, s.fibers l = some f → ¬ f.Inside a := by
    rintro a ⟨low, high⟩
    rw [first] at low high
    rw [whole] at high
    exact maps size area mapped a low high
  refine ⟨unused, (efFiberCreate_spec created room).1, fun a inside => (free a inside).1,
    fun a l f inside => (free a inside).2 l f, fun a outside => ?_⟩
  rw [efFiberCreate_access created room a]
  exact if_neg outside

namespace Process

/-- A new stack lies apart from what was there, which stays as it was. -/
theorem Inv.create (inv : s.Inv page start) (fresh : Fresh page s k new) :
    ({ s with
      access := new.access
      fibers := Function.update s.fibers k (some new.fiber) } : Process).Inv page start where
  -- Every statement is about the new stack, or about those that were there.
  inOrder l g here := by
    rcases update_eq_some.mp here with ⟨_, same⟩ | ⟨_, before⟩
    · obtain rfl := Option.some.inj same
      exact fresh.inOrder
    · refine (inv.inOrder l g before).congr fun a inside => fresh.kept a fun also => ?_
      exact fresh.apart a l g also before inside
  apart k l f g a first second one two := by
    rcases update_eq_some.mp first with ⟨rfl, same⟩ | ⟨_, before⟩ <;>
      rcases update_eq_some.mp second with ⟨rfl, also⟩ | ⟨_, there⟩
    · rfl
    · obtain rfl := Option.some.inj same
      exact absurd two (fresh.apart a l g one there)
    · obtain rfl := Option.some.inj also
      exact absurd one (fresh.apart a k f two before)
    · exact inv.apart k l f g a before there one two
  live l running := by
    by_cases same : l = k
    · simp [same]
    · simpa [same] using inv.live l running
  fresh l g a here inside := by
    rcases update_eq_some.mp here with ⟨_, same⟩ | ⟨_, before⟩
    · obtain rfl := Option.some.inj same
      rw [← inv.outside a fun l f here => fresh.apart a l f inside here]
      exact fresh.free a inside
    · exact inv.fresh l g a before inside
  outside a away := by
    have apart : ¬ new.fiber.Inside a := away k _ (update_eq_some.mpr (.inl ⟨rfl, rfl⟩))
    refine (fresh.kept a apart).trans (inv.outside a fun l g before => away l g ?_)
    refine update_eq_some.mpr (.inr ⟨?_, before⟩)
    rintro rfl
    rw [fresh.unused] at before
    cases before

/-- Which bytes are left when a fiber has been deleted. -/
theorem deleted_access (inv : s.Inv page start) (own : s.fibers k = some f)
    (access : Word → Bool) (a : Word) :
    setAccess access f.stackArea f.stackSize false a = true ↔
      access a = true ∧ ¬ f.Inside a := by
  -- The area does not wrap around, so its bytes are those inside.
  have region := toNat_sub_lt_iff a (inv.inOrder k f own).low
  unfold setAccess
  split
  · rename_i inside
    simp [FiberStack.Inside, region.mp inside]
  · rename_i outside
    rw [region] at outside
    exact ⟨fun there => ⟨there, outside⟩, fun both => both.1⟩

/-- The stack of a deleted fiber is gone, and nothing else. -/
theorem Inv.delete (inv : s.Inv page start) (own : s.fibers k = some f)
    (permitted : s.current ≠ some k) :
    ({ s with
      access := setAccess s.access f.stackArea f.stackSize false
      fibers := Function.update s.fibers k none } : Process).Inv page start where
  -- The stacks that are left have nothing in common with the deleted one.
  inOrder l g here := by
    obtain ⟨apart, before⟩ := (update_eq_some.mp here).resolve_left fun none => by cases none.2
    refine (inv.inOrder l g before).congr fun a inside => ?_
    have outside : ¬ f.Inside a := fun also => apart (inv.apart l k g f a before own inside also)
    rw [Bool.eq_iff_iff, deleted_access inv own]
    exact and_iff_left outside
  apart k l f g a first second := by
    obtain ⟨_, before⟩ := (update_eq_some.mp first).resolve_left fun none => by cases none.2
    obtain ⟨_, there⟩ := (update_eq_some.mp second).resolve_left fun none => by cases none.2
    exact inv.apart k l f g a before there
  live l running := by
    have apart : l ≠ k := fun same => permitted (same ▸ running)
    simpa [apart] using inv.live l running
  fresh l g a here := by
    obtain ⟨_, before⟩ := (update_eq_some.mp here).resolve_left fun none => by cases none.2
    exact inv.fresh l g a before
  outside a away := by
    by_cases inside : f.Inside a
    · -- Nothing was there before the fiber was created.
      rw [inv.fresh k f a own inside, Bool.eq_false_iff, ne_eq, deleted_access inv own]
      exact fun both => both.2 inside
    · have before : s.access a = start a := by
        refine inv.outside a fun l g here => ?_
        by_cases same : l = k
        · subst same
          obtain rfl := Option.some.inj (own.symm.trans here)
          exact inside
        · exact away l g (update_eq_some.mpr (.inr ⟨same, here⟩))
      rw [← before, Bool.eq_iff_iff, deleted_access inv own]
      exact and_iff_left inside

/-- Every step keeps all stacks in order. -/
theorem Inv.step (inv : s.Inv page start) (permitted : s.Permitted page op)
    (stepped : s.step page op = some t) : t.Inv page start := by
  -- Each kind of step has its lemma, and an aborted process takes none.
  unfold Process.step at stepped
  split at stepped
  · obtain rfl := Option.some.inj stepped
    exact inv
  · cases op with
    | create k mmap mprotected stackSize headerSize =>
      simp only at stepped
      split at stepped
      · rename_i created
        obtain rfl := Option.some.inj stepped
        exact inv.create (.of_create permitted created)
      · obtain rfl := Option.some.inj stepped
        exact inv
    | delete k =>
      obtain ⟨f, own, rfl⟩ := Option.map_eq_some_iff.mp stepped
      exact inv.delete own permitted
    | setCurrent next =>
      obtain rfl := Option.some.inj stepped
      exact ⟨inv.inOrder, inv.apart, permitted, inv.fresh, inv.outside⟩
    | execute a size effect mprotected =>
      simp only at stepped
      split at stepped
      · rename_i touched
        obtain rfl := Option.some.inj stepped
        have after := (Touched.of_execute inv touched).inv
        exact ⟨after.inOrder, after.apart, after.live, after.fresh, after.outside⟩
      · obtain rfl := Option.some.inj stepped
        exact ⟨inv.inOrder, inv.apart, inv.live, inv.fresh, inv.outside⟩

/-- A process that has no fibers yet. -/
theorem Inv.begin (cpu : Cpu) (start : Word → Bool) :
    ({ cpu := cpu, access := start } : Process).Inv page start :=
  ⟨fun _ _ none => (by cases none), fun _ _ _ _ _ none => (by cases none),
    fun _ none => (by cases none), fun _ _ _ none => (by cases none), fun _ _ => rfl⟩

/-- So all stacks are in order wherever a run leads. -/
theorem Inv.of_run
    (run : Run (Process.step page) (Permitted page) { cpu := cpu, access := start } ops s) :
    s.Inv page start :=
  -- By induction on the run.
  run.invariant (.begin cpu start) fun _ _ _ inv permitted stepped => inv.step permitted stepped

end Process

/-- A process whose stacks are mapped as a whole when they are created, guard pages apart. -/
structure Plain where
  cpu : Cpu
  access : Word → Bool
  areas : Nat → Option (Word × Word) := fun _ => none

/-- One step without a handler, where an instruction needs all its bytes. -/
def Plain.step (page : PageSize) (p : Plain) : StackOp page → Option Plain
  | .create k mmap mprotected stackSize headerSize =>
    match efFiberCreate page mmap mprotected p.access stackSize headerSize with
    | some new =>
      some { p with
        access := setAccess new.access (new.fiber.stackArea + page.bytes)
          (new.fiber.stackSize - page.bytes) true
        areas := Function.update p.areas k (some new.fiber.area) }
    | none => some p
  | .delete k =>
    (p.areas k).map fun (area, size) =>
      { p with
        access := setAccess p.access area size false
        areas := Function.update p.areas k none }
  | .setCurrent _ => some p
  | .execute a size effect _ =>
    if ∀ b ∈ bytes a size, p.access b then some { p with cpu := effect p.cpu } else none

/-- Both processors agree, and the plain process has mapped what the other one can map some day. -/
structure FollowsPlain (page : PageSize) (s : Process) (p : Plain) : Prop where
  cpu : p.cpu = s.cpu
  access : ∀ a, p.access a = true ↔ s.Available page a
  areas : ∀ k, p.areas k = (s.fibers k).map FiberStack.area

namespace FollowsPlain

variable {p : Plain}

/-- A new stack is there as a whole but for its guard page. -/
theorem mapped_iff {made : Stack} (layout : Layout page made headerSize) (a : Word) :
    setAccess access (made.fiber.stackArea + page.bytes) (made.fiber.stackSize - page.bytes) true
        a = true ↔
      made.fiber.stackArea.toNat + page.bytes.toNat ≤ a.toNat ∧ made.fiber.Inside a ∨
        access a = true := by
  -- Without its first page, the area is a region that does not wrap around either.
  have low := layout.low
  have page_le := layout.page_le
  have small := page.lt_half
  have first : (made.fiber.stackArea + page.bytes).toNat =
      made.fiber.stackArea.toNat + page.bytes.toNat := by
    rw [BitVec.toNat_add]
    omega
  have size : (made.fiber.stackSize - page.bytes).toNat =
      made.fiber.stackSize.toNat - page.bytes.toNat := by
    rw [BitVec.toNat_sub_of_le]
    rwa [BitVec.le_def]
  have fits : (made.fiber.stackArea + page.bytes).toNat +
      (made.fiber.stackSize - page.bytes).toNat ≤ 2 ^ 63 := by omega
  have region := toNat_sub_lt_iff a fits
  rw [first, size] at region
  unfold setAccess FiberStack.Inside
  rw [size]
  split
  · rename_i inside
    have inside := region.mp inside
    simp only [true_iff]
    exact .inl (by omega)
  · rename_i outside
    rw [region] at outside
    exact ⟨.inr, fun there => there.resolve_left (by omega)⟩

/-- Where the stack of a new fiber is, just the part above its guard page can be mapped. -/
theorem available_inside (inv : s.Inv page start) (fresh : Fresh page s k new)
    (inside : new.fiber.Inside a) :
    Process.Available page { s with
      access := new.access
      fibers := Function.update s.fibers k (some new.fiber) } a ↔
    (new.fiber.stackArea.toNat + page.bytes.toNat ≤ a.toNat ∨
      new.fiber.stackLower.toNat ≤ a.toNat) := by
  -- The new stack has its own boundary, and no other stack reaches into it.
  have mapped := fresh.inOrder.mapped a inside.1 inside.2
  constructor
  · rintro (there | ⟨l, g, here, waits⟩)
    · exact .inr (mapped.mp there)
    · rcases update_eq_some.mp here with ⟨_, same⟩ | ⟨_, before⟩
      · obtain rfl := Option.some.inj same
        exact .inl waits.1
      · have also := (inv.inOrder l g before).inside_of_reserved waits
        exact absurd also (fresh.apart a l g inside before)
  · intro high
    by_cases there : new.fiber.stackLower.toNat ≤ a.toNat
    · exact .inl (mapped.mpr there)
    · exact .inr ⟨k, new.fiber, update_eq_some.mpr (.inl ⟨rfl, rfl⟩),
        high.resolve_right there, Nat.not_le.mp there⟩

/-- Everywhere else nothing changes. -/
theorem available_outside (fresh : Fresh page s k new) (outside : ¬ new.fiber.Inside a) :
    Process.Available page { s with
      access := new.access
      fibers := Function.update s.fibers k (some new.fiber) } a ↔ s.Available page a := by
  -- Neither the new stack nor what it maps is there.
  have same := fresh.kept a outside
  constructor
  · rintro (there | ⟨l, g, here, waits⟩)
    · exact .inl (same ▸ there)
    · rcases update_eq_some.mp here with ⟨_, same⟩ | ⟨_, before⟩
      · obtain rfl := Option.some.inj same
        exact absurd (fresh.inOrder.inside_of_reserved waits) outside
      · exact .inr ⟨l, g, before, waits⟩
  · rintro (there | ⟨l, g, before, waits⟩)
    · exact .inl (same.trans there)
    · refine .inr ⟨l, g, update_eq_some.mpr (.inr ⟨?_, before⟩), waits⟩
      rintro rfl
      rw [fresh.unused] at before
      cases before

/-- Both create a fiber, or neither does. -/
theorem create (follows : FollowsPlain page s p) (inv : s.Inv page start)
    (permitted : s.Permitted page (.create k mmap mprotected stackSize headerSize))
    (created : efFiberCreate page mmap mprotected s.access stackSize headerSize = some new) :
    ∃ q, p.step page (.create k mmap mprotected stackSize headerSize) = some q ∧
      FollowsPlain page { s with
        access := new.access
        fibers := Function.update s.fibers k (some new.fiber) } q := by
  -- The plain process gets the same area, since the kernel answers both alike.
  have fresh := Fresh.of_create permitted created
  obtain ⟨made, also, same⟩ := efFiberCreate_other p.access created
  have room := permitted.2.1
  have moved : p.step page (.create k mmap mprotected stackSize headerSize) = some { p with
      access := setAccess made.access (made.fiber.stackArea + page.bytes)
        (made.fiber.stackSize - page.bytes) true
      areas := Function.update p.areas k (some made.fiber.area) } := by
    simp only [Plain.step, also]
  refine ⟨_, moved, follows.cpu, fun a => ?_, fun l => ?_⟩
  · have usable := efFiberCreate_access also room a
    rw [mapped_iff (efFiberCreate_layout also room), same]
    rw [same] at usable
    by_cases inside : new.fiber.Inside a
    · rw [available_inside inv fresh inside, usable.trans (if_pos inside), decide_eq_true_iff]
      exact or_congr_left (and_iff_left inside)
    · rw [available_outside fresh inside, usable.trans (if_neg inside), follows.access a]
      exact or_iff_right fun both => inside both.2
  · by_cases here : l = k
    · subst here
      simp [same]
    · simp [here, follows.areas l]

/-- Both delete a fiber. -/
theorem delete (follows : FollowsPlain page s p) (inv : s.Inv page start)
    (own : s.fibers k = some f) :
    ∃ q, p.step page (.delete k) = some q ∧
      FollowsPlain page { s with
        access := setAccess s.access f.stackArea f.stackSize false
        fibers := Function.update s.fibers k none } q := by
  have known : p.areas k = some (f.stackArea, f.stackSize) := by
    rw [follows.areas k, own]
    rfl
  have moved : p.step page (.delete k) = some { p with
      access := setAccess p.access f.stackArea f.stackSize false
      areas := Function.update p.areas k none } := by
    simp only [Plain.step, known, Option.map_some]
  refine ⟨_, moved, follows.cpu, fun a => ?_, fun l => ?_⟩
  · -- Nothing of the deleted stack is left on either side.
    have left := Process.deleted_access inv own s.access a
    rw [Process.deleted_access inv own p.access a, follows.access a]
    constructor
    · rintro ⟨there | ⟨l, g, before, waits⟩, outside⟩
      · exact .inl (left.mpr ⟨there, outside⟩)
      · refine .inr ⟨l, g, update_eq_some.mpr (.inr ⟨?_, before⟩), waits⟩
        rintro rfl
        obtain rfl := Option.some.inj (own.symm.trans before)
        exact outside ((inv.inOrder l f own).inside_of_reserved waits)
    · rintro (there | ⟨l, g, here, waits⟩)
      · obtain ⟨before, outside⟩ := left.mp there
        exact ⟨.inl before, outside⟩
      · obtain ⟨apart, before⟩ := (update_eq_some.mp here).resolve_left fun none => by cases none.2
        have inside := (inv.inOrder l g before).inside_of_reserved waits
        exact ⟨.inr ⟨l, g, before, waits⟩, fun also =>
          apart (inv.apart l k g f a before own inside also)⟩
  · by_cases here : l = k
    · subst here
      simp
    · simp [here, follows.areas l]

/-- An instruction that has been executed on grown stacks could be executed on the whole ones. -/
theorem execute {size : Nat} {effect : Cpu → Cpu} (follows : FollowsPlain page s p)
    (inv : s.Inv page start)
    (touched : SimpleSrv.execute (Process.touch page mprotected) (fun _ _ => True) s
      (bytes a size) = some t) :
    ∃ q, p.step page (.execute a size effect mprotected) = some q ∧
      FollowsPlain page { t with cpu := effect t.cpu } q := by
  -- What could be touched is available, so the plain process has it mapped.
  obtain ⟨_, grown, _⟩ := Process.Touched.of_execute inv touched
  have can := ((Process.touch_independent page start mprotected).execute_iff inv _).mp ⟨t, touched⟩
  have all : ∀ b ∈ bytes a size, p.access b = true := fun b member =>
    (follows.access b).mpr (Process.available_of_canTouch inv (can b member))
  have moved : p.step page (.execute a size effect mprotected) =
      some { p with cpu := effect p.cpu } := by
    rw [Plain.step, if_pos all]
  refine ⟨_, moved, ?_, fun b => ?_, fun l => ?_⟩
  · simp only [follows.cpu, grown.cpu]
  · exact (follows.access b).trans (grown.available b).symm
  · exact (follows.areas l).trans (grown.areas l).symm

/-- Whatever happens without an abort, the plain process can do. -/
theorem step (follows : FollowsPlain page s p) (inv : s.Inv page start)
    (permitted : s.Permitted page op) (stepped : s.step page op = some t)
    (alive : t.aborted = false) : ∃ q, p.step page op = some q ∧ FollowsPlain page t q := by
  -- An abort would show at the end.
  unfold Process.step at stepped
  split at stepped
  · rename_i aborted
    obtain rfl := Option.some.inj stepped
    rw [alive] at aborted
    cases aborted
  · cases op with
    | create k mmap mprotected stackSize headerSize =>
      simp only at stepped
      split at stepped
      · rename_i created
        obtain rfl := Option.some.inj stepped
        exact follows.create inv permitted created
      · rename_i refused
        obtain rfl := Option.some.inj stepped
        refine ⟨p, ?_, follows⟩
        cases also : efFiberCreate page mmap mprotected p.access stackSize headerSize with
        | none => simp only [Plain.step, also]
        | some made =>
          obtain ⟨new, created, _⟩ := efFiberCreate_other s.access also
          rw [created] at refused
          cases refused
    | delete k =>
      obtain ⟨f, own, rfl⟩ := Option.map_eq_some_iff.mp stepped
      exact follows.delete inv own
    | setCurrent next =>
      obtain rfl := Option.some.inj stepped
      exact ⟨p, rfl, follows.cpu, follows.access, follows.areas⟩
    | execute a size effect mprotected =>
      simp only at stepped
      split at stepped
      · rename_i touched
        obtain rfl := Option.some.inj stepped
        exact follows.execute inv touched
      · obtain rfl := Option.some.inj stepped
        cases alive

end FollowsPlain

namespace Process

/-- An aborted process stays as it is. -/
theorem step_aborted (aborted : s.aborted = true) : s.step page op = some s := if_pos aborted

/-- An abort is final. -/
theorem aborted_of_run (run : Run (Process.step page) (Permitted page) s ops t)
    (aborted : s.aborted = true) : t.aborted = true := by
  -- By induction on the run, none of whose steps does anything.
  induction run with
  | start => exact aborted
  | next _ _ stepped ih =>
    rw [step_aborted ih] at stepped
    obtain rfl := Option.some.inj stepped
    exact ih

/-- What a process without an abort has come to, against one whose stacks are mapped at once. -/
structure Transparent (page : PageSize) (cpu : Cpu) (start : Word → Bool)
    (ops : List (StackOp page)) (s : Process) : Prop where
  plain : ∃ p, Run (Plain.step page) (fun _ _ => True) { cpu := cpu, access := start } ops p ∧
    p.cpu = s.cpu ∧ ∀ a, p.access a = true ↔ s.Available page a
  /-- Just the part of a stack from its boundary on is mapped. -/
  mapped : ∀ k f a, s.fibers k = some f → f.Inside a →
    (s.access a = true ↔ f.stackLower.toNat ≤ a.toNat)
  /-- The guard page, if there is one, never will be. -/
  guard : ∀ k f a, s.fibers k = some f → f.Inside a →
    (s.Available page a ↔ f.stackArea.toNat + page.bytes.toNat ≤ a.toNat ∨
      f.stackLower.toNat ≤ a.toNat)
  apart : ∀ k l f g a, s.fibers k = some f → s.fibers l = some g → f.Inside a → g.Inside a → k = l
  /-- Around the stacks, nothing changes. -/
  outside : ∀ a, (∀ k f, s.fibers k = some f → ¬ f.Inside a) → s.access a = start a

/-- A run that has not been aborted could have been one of the plain process. -/
theorem exists_plain
    (run : Run (Process.step page) (Permitted page) { cpu := cpu, access := start } ops s)
    (alive : s.aborted = false) :
    ∃ p, Run (Plain.step page) (fun _ _ => True) { cpu := cpu, access := start } ops p ∧
      FollowsPlain page s p := by
  induction run with
  | start =>
    refine ⟨_, .start _, rfl, fun a => ?_, fun _ => rfl⟩
    refine ⟨.inl, fun there => there.resolve_right ?_⟩
    rintro ⟨_, _, none, _⟩
    cases none
  | @next t s ops op run permitted stepped ih =>
    -- Had it been aborted before, it would be so now.
    have before : t.aborted = false := by
      by_contra aborted
      have lasting := aborted_of_run ((Run.start t).next permitted stepped) (by simpa using aborted)
      rw [alive] at lasting
      cases lasting
    obtain ⟨p, plain, follows⟩ := ih before
    obtain ⟨q, moved, after⟩ := follows.step (.of_run run) permitted stepped alive
    exact ⟨q, plain.next trivial moved, after⟩

/--
As long as the handler does not abort, stacks that grow are as good as ones mapped at once.

No signal pushes a frame on a stack here.
-/
theorem stacks_transparent
    (run : Run (Process.step page) (Permitted page) { cpu := cpu, access := start } ops s)
    (alive : s.aborted = false) : Transparent page cpu start ops s where
  -- The plain process goes the same way, and the rest is what holds of all stacks in any run.
  plain := by
    obtain ⟨p, plain, follows⟩ := exists_plain run alive
    exact ⟨p, plain, follows.cpu, follows.access⟩
  mapped := fun k f a own inside => ((Inv.of_run run).inOrder k f own).mapped a inside.1 inside.2
  guard := fun k f a own inside => by
    have inv := Inv.of_run run
    have mapped := (inv.inOrder k f own).mapped a inside.1 inside.2
    constructor
    · rintro (there | ⟨l, g, here, waits⟩)
      · exact .inr (mapped.mp there)
      · -- A reserved byte is on the stack that it is inside of.
        obtain rfl := inv.apart l k g f a here own ((inv.inOrder l g here).inside_of_reserved waits)
          inside
        obtain rfl := Option.some.inj (here.symm.trans own)
        exact .inl waits.1
    · intro high
      by_cases there : f.stackLower.toNat ≤ a.toNat
      · exact .inl (mapped.mpr there)
      · exact .inr ⟨k, f, own, high.resolve_right there, Nat.not_le.mp there⟩
  apart := (Inv.of_run run).apart
  outside := (Inv.of_run run).outside

/-- A processor that has done nothing yet. -/
def idleCpu : Cpu := ⟨fun _ => 0, 0, 0, fun _ => 0⟩

/-- A fiber is created with three pages, and runs. -/
def threePages : List (StackOp smallPage) :=
  [.create 0 mmapAt true 12288 64, .setCurrent (some 0)]

/-- The process in which it runs. -/
def runningFirst : Process :=
  (execute (Process.step smallPage) (fun _ _ => True)
    { cpu := idleCpu, access := fun _ => false } threePages).getD
      { cpu := idleCpu, access := fun _ => false }

/-- Nothing is in the way of its stack. -/
theorem runningFirst_run : Run (Process.step smallPage) (Permitted smallPage)
    { cpu := idleCpu, access := fun _ => false } threePages runningFirst := by
  -- Two steps, of which the second only names the fiber.
  have nowhere : Permitted smallPage { cpu := idleCpu, access := fun _ => false }
      (.create 0 mmapAt true 12288 64) :=
    ⟨rfl, by decide, fun _ _ _ _ _ _ => ⟨rfl, fun _ _ none => by cases none⟩⟩
  exact .cons nowhere rfl <|
    .cons (fun k same => by obtain rfl := Option.some.inj same; exact nofun) rfl <| .start _

/-- Its second page is mapped when it is touched, and the process goes on. -/
theorem stacks_transparent_second : ∃ s : Process, s.access 0x11000 = true ∧
    Transparent smallPage idleCpu (fun _ => false)
      (threePages ++ [.execute 0x11000 8 id true]) s :=
  ⟨_, by decide, stacks_transparent (runningFirst_run.next trivial rfl) (by decide)⟩

/-- An instruction of the running code that the handler cannot help. -/
def Faults (page : PageSize) (s : Process) : StackOp page → Prop
  | .execute a size _ mprotected => ∃ b ∈ bytes a size, ¬ s.CanTouch page mprotected b
  | .create .. | .delete _ | .setCurrent _ => False

/-- A step aborts the process exactly if it is such an instruction. -/
theorem step_aborts_iff (inv : s.Inv page start) (alive : s.aborted = false)
    (stepped : s.step page op = some t) : t.aborted = true ↔ s.Faults page op := by
  unfold Process.step at stepped
  rw [if_neg (by simp [alive])] at stepped
  cases op with
  | create k mmap mprotected stackSize headerSize =>
    simp only at stepped
    split at stepped <;> obtain rfl := Option.some.inj stepped <;> simp [alive, Faults]
  | delete k =>
    obtain ⟨f, own, rfl⟩ := Option.map_eq_some_iff.mp stepped
    simp [alive, Faults]
  | setCurrent next =>
    obtain rfl := Option.some.inj stepped
    simp [alive, Faults]
  | execute a size effect mprotected =>
    -- Only an instruction can fail, and it does if one of its bytes does.
    have all := (touch_independent page start mprotected).execute_iff inv (bytes a size)
    simp only at stepped
    split at stepped
    · rename_i u touched
      obtain rfl := Option.some.inj stepped
      have kept := (Touched.of_execute inv touched).grown.aborted
      have can := all.mp ⟨u, touched⟩
      simp only [kept, alive, Bool.false_eq_true, false_iff]
      rintro ⟨b, member, cannot⟩
      exact cannot (can b member)
    · rename_i none
      obtain rfl := Option.some.inj stepped
      have cannot : ¬ ∀ b ∈ bytes a size, s.CanTouch page mprotected b := fun can => by
        obtain ⟨u, touched⟩ := all.mpr can
        rw [none] at touched
        cases touched
      simpa [Faults] using cannot

/--
A process is aborted exactly by an instruction that touches what nobody may, or what is reserved on
another stack than that of `current_fiber`.

No signal pushes a frame on a stack here.
-/
theorem aborts_iff
    (run : Run (Process.step page) (Permitted page) { cpu := cpu, access := start } ops s) :
    s.aborted = true ↔ ∃ first op later t u, ops = first ++ op :: later ∧
      Run (Process.step page) (Permitted page) { cpu := cpu, access := start } first t ∧
      t.aborted = false ∧ t.Faults page op ∧ t.step page op = some u ∧
      Run (Process.step page) (Permitted page) u later s := by
  constructor
  · -- The run is followed back to the step that has changed the flag.
    intro aborted
    let causes (t : Process) (op : StackOp page) : Prop := t.aborted = false ∧ t.Faults page op
    obtain ⟨first, op, later, t, u, same, path, _, ⟨alive, faults⟩, moved, rest⟩ :=
      run.exists_cause (fun s => s.aborted = true) causes Bool.false_ne_true
        (fun _ t op u before _ moved aborted => by
          by_cases alive : t.aborted = false
          · exact .inr ⟨alive, (step_aborts_iff (.of_run before) alive moved).mp aborted⟩
          · exact .inl (by simpa using alive)) aborted
    exact ⟨first, op, later, t, u, same, path, alive, faults, moved, rest⟩
  · rintro ⟨first, op, later, t, u, _, path, alive, faults, moved, rest⟩
    have fails : u.aborted = true := (step_aborts_iff (.of_run path) alive moved).mpr faults
    exact aborted_of_run rest fails

/-- The first page of the fiber is its guard. -/
theorem aborts_iff_guard : ∃ s first op later t u,
    threePages ++ [.execute 0x10ff8 8 id true] = first ++ op :: later ∧
    Run (Process.step smallPage) (Permitted smallPage)
      { cpu := idleCpu, access := fun _ => false } first t ∧
    t.aborted = false ∧ t.Faults smallPage op ∧ t.step smallPage op = some u ∧
    Run (Process.step smallPage) (Permitted smallPage) u later s := by
  have run : Run (Process.step smallPage) (Permitted smallPage)
      { cpu := idleCpu, access := fun _ => false } (threePages ++ [.execute 0x10ff8 8 id true]) _ :=
    runningFirst_run.next trivial rfl
  exact ⟨_, (aborts_iff run).mp (by decide)⟩

end Process

end SimpleSrv.Ef
