import Mathlib.Algebra.Ring.Nat
import Mathlib.Algebra.Ring.Int.Defs
import Mathlib.Data.Int.Basic
import Mathlib.Tactic.Common

/-! Conversions to the C `int` type, which has 32 bits in two's complement. -/

namespace SimpleSrv

/-- The value an `int` takes when an integer of a wider type is assigned to it. -/
def toInt (value : Int) : Int :=
  -- The low 32 bits are kept, and their top bit counts negatively.
  if value % 2 ^ 32 < 2 ^ 31 then value % 2 ^ 32 else value % 2 ^ 32 - 2 ^ 32

/-- Converting a natural number never produces a larger one. -/
theorem toInt_natCast_le (value : Nat) : toInt value ≤ value := by
  -- The low 32 bits of a number are at most the number itself.
  unfold toInt
  split <;> omega

/-- A natural number is kept exactly when it stays below the sign bit. -/
theorem toInt_natCast_eq_iff (value : Nat) : toInt value = value ↔ value < 2 ^ 31 := by
  -- Below the sign bit nothing is cut off, and from it on the result is negative or cut.
  unfold toInt
  split <;> omega

/-- Converting a number never leads away from zero. -/
theorem natAbs_toInt_le (value : Int) : (toInt value).natAbs ≤ value.natAbs := by
  -- Of the numbers with the same low 32 bits, the result is the one next to zero.
  unfold toInt
  split <;> omega

/-- The value that a `uint64_t` takes when an integer is assigned to it. -/
def toUInt64 (value : Int) : Nat := (value % 2 ^ 64).toNat

/-- What fits is kept. -/
theorem toUInt64_eq {value : Int} (nonneg : 0 ≤ value) (fits : value < 2 ^ 64) :
    (toUInt64 value : Int) = value := by
  unfold toUInt64
  omega

end SimpleSrv
