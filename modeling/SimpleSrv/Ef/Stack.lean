import SimpleSrv.Lib.Pages

/-! The stack of a fiber: how it is laid out, and how a page fault makes it grow. -/

namespace SimpleSrv.Ef

/-- The fields of `ef_fiber_t` that describe its stack. -/
structure FiberStack where
  stackSize : Word
  stackArea : Word
  stackUpper : Word
  stackLower : Word
  stackPtr : Word
  deriving DecidableEq, Repr

/-- A fiber together with the bytes of the address space that may be read and written. -/
structure Stack where
  fiber : FiberStack
  access : Word → Bool

/-- An area that `mmap` returns: whole pages in the lower half of the address space. -/
structure Area (page : PageSize) (size : Word) where
  start : Word
  /-- A mapping without a byte is refused. -/
  nonempty : 0 < size.toNat
  aligned : start.toNat % page.bytes.toNat = 0
  low : start.toNat + size.toNat ≤ 2 ^ 63

/-- Set the access to each byte of a region, the rest keeping its own. -/
def setAccess (access : Word → Bool) (start size : Word) (allowed : Bool) : Word → Bool := fun a =>
  if (a - start).toNat < size.toNat then allowed else access a

/-- A size rounded up to whole pages, as `ef_fiber_create` does it. -/
def roundUp (page : PageSize) (stackSize : Word) : Word :=
  alignDown page (stackSize + page.bytes - 1)

/-- The stack pointer that `ef_fiber_internal_init` returns. -/
def efFiberInternalInit (stackUpper : Word) : Word := stackUpper - 128

/--
`ef_fiber_create`, given how `mmap` and `mprotect` answer.

Nothing is returned for a null pointer.
-/
def efFiberCreate (page : PageSize) (mmap : (size : Word) → Option (Area page size))
    (mprotected : Bool) (access : Word → Bool) (stackSize headerSize : Word) : Option Stack :=
  let stackSize := if stackSize = 0 then page.bytes else stackSize
  let stackSize := roundUp page stackSize
  (mmap stackSize).bind fun area =>
    -- No page of the new area may be used yet.
    let access := setAccess access area.start stackSize false
    if mprotected then
      let stackLower := area.start + stackSize - page.bytes
      let stackUpper := area.start + stackSize - headerSize
      some
        { fiber :=
            { stackSize := stackSize
              stackArea := area.start
              stackUpper := stackUpper
              stackLower := stackLower
              stackPtr := efFiberInternalInit stackUpper }
          access := setAccess access stackLower page.bytes true }
    else none

/-- `ef_fiber_expand_stack`, given whether `mprotect` would succeed, with its return value. -/
def efFiberExpandStack (page : PageSize) (s : Stack) (addr : Word) (mprotected : Bool) :
    Stack × Int :=
  let lower := alignDown page addr
  -- The difference of two pointers is signed, while pointers compare as they are.
  if page.bytes.toInt ≤ (lower - s.fiber.stackArea).toInt ∧
      lower.toNat < s.fiber.stackLower.toNat then
    let size := s.fiber.stackLower - lower
    if mprotected then
      ({ fiber := { s.fiber with stackLower := lower },
         access := setAccess s.access lower size true }, 0)
    else (s, -1)
  else (s, -1)

end SimpleSrv.Ef
