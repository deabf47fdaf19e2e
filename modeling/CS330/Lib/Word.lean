import Mathlib.Algebra.Ring.Int.Defs
import Mathlib.Algebra.Ring.Nat

/-! # Machine integers of C

The value a C expression has after conversion to a fixed-width type. Unsigned values are natural
numbers, signed values are integers, and every conversion reduces modulo the width. -/

namespace CS330

/-- Conversion to `u64`. -/
def u64 (x : Int) : Nat := (x % 2 ^ 64).toNat

/-- Conversion to `u32`. -/
def u32 (x : Int) : Nat := (x % 2 ^ 32).toNat

/-- Conversion to `long`. -/
def int64 (x : Int) : Int := (x + 2 ^ 63) % 2 ^ 64 - 2 ^ 63

/-- Conversion to `int`. -/
def int32 (x : Int) : Int := (x + 2 ^ 31) % 2 ^ 32 - 2 ^ 31

theorem u64_natCast {n : Nat} (h : n < 2 ^ 64) : u64 n = n := by unfold u64; omega

/-- Adding an `int` to a `u64` that stays in range. -/
theorem u64_add {a : Nat} {n : Int} (hn : 0 ≤ n) (h : a + n < 2 ^ 64) :
    u64 (a + n) = a + n.toNat := by unfold u64; omega

theorem int64_eq {x : Int} (h : -2 ^ 63 ≤ x) (h' : x < 2 ^ 63) : int64 x = x := by
  unfold int64; omega

theorem int32_eq {x : Int} (h : -2 ^ 31 ≤ x) (h' : x < 2 ^ 31) : int32 x = x := by
  unfold int32; omega

theorem int32_bounds (x : Int) : -2 ^ 31 ≤ int32 x ∧ int32 x < 2 ^ 31 := by
  unfold int32; omega

/-- `lock add` on a word of memory: the new value of the word, and the sign of the sum. -/
def atomicAdd (ptr val : BitVec 64) : BitVec 64 × Int :=
  let sum := ptr + val
  (sum, if sum.msb then -1 else if sum = 0 then 0 else 1)

end CS330
