import SimpleSrv.Lib.Memory

/-! Page sizes, and rounding an address down to the start of its page. -/

namespace SimpleSrv

/-- A page size, which is a power of two and fits a signed word. -/
structure PageSize where
  bytes : Word
  order : Nat
  power : bytes.toNat = 2 ^ order
  small : order < 63

/-- The start of the page that an address lies in. -/
def alignDown (page : PageSize) (a : Word) : Word := a &&& ~~~(page.bytes - 1)

namespace PageSize

variable (page : PageSize)

/-- A page has at least one byte. -/
theorem pos : 0 < page.bytes.toNat := by
  -- No power of two is zero.
  rw [page.power]
  exact Nat.two_pow_pos _

/-- A page size is positive also as a signed number. -/
theorem lt_half : page.bytes.toNat < 2 ^ 63 := by
  -- The exponent stays below that of the sign bit.
  rw [page.power]
  exact Nat.pow_lt_pow_right (by decide) page.small

end PageSize

variable {page : PageSize}

/-- Rounding down takes off what exceeds a multiple of the page size. -/
theorem toNat_alignDown (a : Word) :
    (alignDown page a).toNat = a.toNat - a.toNat % page.bytes.toNat := by
  -- The mask has exactly the bits from the page's exponent on.
  have mask : (page.bytes - 1).toNat = 2 ^ page.order - 1 := by
    have least : (1 : Word) ≤ page.bytes := by
      rw [BitVec.le_def]
      exact page.pos
    rw [BitVec.toNat_sub_of_le least, page.power]
    rfl
  have shifted : (alignDown page a).toNat = a.toNat >>> page.order <<< page.order := by
    apply Nat.eq_of_testBit_eq
    intro i
    have high : (~~~(page.bytes - 1)).toNat.testBit i =
        (decide (i < 64) && !decide (i < page.order)) := by
      rw [BitVec.testBit_toNat, BitVec.getLsbD_not, ← BitVec.testBit_toNat, mask,
        Nat.testBit_two_pow_sub_one]
    rw [alignDown, BitVec.toNat_and, Nat.testBit_and, high, Nat.testBit_shiftLeft,
      Nat.testBit_shiftRight]
    by_cases below : page.order ≤ i
    · -- The address has no bits beyond its width, so the width of the mask does not show.
      have inside : i < 64 ∨ a.toNat.testBit i = false := by
        by_cases narrow : i < 64
        · exact .inl narrow
        · exact .inr (Nat.testBit_lt_two_pow (Nat.lt_of_lt_of_le a.isLt
            (Nat.pow_le_pow_right (by decide) (by omega))))
      rcases inside with narrow | none
      · simp [below, narrow]
      · simp [below, none]
    · have low : i < page.order := by omega
      simp [below, low]
  rw [shifted, Nat.shiftLeft_eq, Nat.shiftRight_eq_div_pow, page.power]
  have parts := Nat.div_add_mod' a.toNat (2 ^ page.order)
  omega

/-- What is rounded down starts a page. -/
theorem alignDown_aligned (a : Word) : (alignDown page a).toNat % page.bytes.toNat = 0 := by
  -- The rest has been taken off.
  rw [toNat_alignDown]
  exact Nat.sub_mod_eq_zero_of_mod_eq (Nat.mod_mod _ _).symm

/-- The start of a page stays below an address that is rounded down. -/
theorem le_alignDown_iff {m : Nat} (aligned : m % page.bytes.toNat = 0) (a : Word) :
    m ≤ (alignDown page a).toNat ↔ m ≤ a.toNat := by
  -- Both sides are multiples of the page size, so their quotients may be compared.
  rw [toNat_alignDown]
  generalize page.bytes.toNat = size at aligned
  obtain ⟨count, rfl⟩ := Nat.dvd_of_mod_eq_zero aligned
  have parts := Nat.div_add_mod a.toNat size
  have rounded : a.toNat - a.toNat % size = size * (a.toNat / size) := by omega
  rw [rounded]
  constructor
  · intro smaller
    omega
  · intro smaller
    by_cases empty : size = 0
    · simp [empty]
    · apply Nat.mul_le_mul_left
      rw [Nat.le_div_iff_mul_le (Nat.pos_of_ne_zero empty), Nat.mul_comm]
      exact smaller

end SimpleSrv
